import LogMemcached.Items
import LogMemcached.LogInv

/-!
# Records as values

`recOf m b` decodes the record in block `b`: everything a reader of the log can see of it, except
the CAS word.  The rules say how each store the server makes into a record changes its decoding.
-/

namespace LogMemcached

open ByteMem CText Tiling

/-- How `do_store_replication` reads the flag byte of a record. -/
inductive Kind
  | dirty
  | stored
  | deleted
  | corrupted
deriving DecidableEq, Repr

def kindOf (f : UInt8) : Kind :=
  if has f itemStored && !has f itemDirty && !has f itemCycle then
    if has f itemCorrupted then .corrupted else if has f itemDeleted then .deleted else .stored
  else .dirty

structure Rec where
  off : ℕ
  key : Key
  flags : UInt8
  suffix : List UInt8
  data : List UInt8
  exptime : ℕ
deriving DecidableEq, Repr

def Rec.kind (r : Rec) : Kind := kindOf r.flags

def recOf (m : Mem) (b : Block) : Rec :=
  ⟨b.off, keyOf m b.off, flagsOf m b.off, suffixOf m b.off, dataOf m b.off,
    exptimeOf m b.off⟩

structure Whole (m : Mem) (b : Block) : Prop where
  sized : Sized m b
  small : nbytesOf m b.off < 2 ^ 31

structure Intact (m : Mem) (o : ℕ) : Prop where
  deleted : has (flagsOf m o) itemDeleted = false
  corrupted : has (flagsOf m o) itemCorrupted = false

theorem Intact.congr {m m' : Mem} {o : ℕ} (h : Intact m o) (same : flagsOf m' o = flagsOf m o) :
    Intact m' o :=
  ⟨same ▸ h.deleted, same ▸ h.corrupted⟩

section Whole

variable {m m' : Mem} {b : Block}

theorem casRoom_le (f : UInt8) : casRoom f ≤ ntotalCasRoom f := by
  unfold casRoom ntotalCasRoom
  cases has f itemCas <;> simp

theorem ntotalCasRoom_le (f : UInt8) : ntotalCasRoom f ≤ 8 := by
  unfold ntotalCasRoom
  split_ifs <;> omega

theorem Whole.size_eq (h : Whole m b) :
    b.size = sizeofItemData + nkeyOf m b.off + 1 + nsuffixOf m b.off + nbytesOf m b.off +
      ntotalCasRoom (flagsOf m b.off) := by
  have nkey : nkeyOf m b.off < 256 := UInt8.toNat_lt _
  have nsuffix : nsuffixOf m b.off < 256 := UInt8.toNat_lt _
  have room := ntotalCasRoom_le (flagsOf m b.off)
  have small := h.small
  rw [← h.sized.total, itemNtotal, intToSize, if_pos h.small, Nat.mod_eq_of_lt]
  simp only [sizeofItemData]
  omega

theorem Whole.data_le (h : Whole m b) : itemData m b.off + nbytesOf m b.off ≤ b.stop := by
  have size := h.size_eq
  have room := casRoom_le (flagsOf m b.off)
  simp only [itemData, Block.stop]
  omega

theorem Whole.header (h : Whole m b) : b.off + 16 ≤ b.stop := by
  have := h.sized.header
  simp only [Block.stop]
  omega

theorem Whole.agree_header (h : Whole m b) (same : Agree m' m b.off b.stop) :
    Agree m' m b.off (b.off + 16) :=
  same.mono le_rfl h.header

theorem Whole.congr (h : Whole m b) (same : Agree m' m b.off b.stop) : Whole m' b :=
  ⟨h.sized.congr same, by rw [nbytesOf_congr (h.agree_header same)]; exact h.small⟩

theorem itemKey_congr {o : ℕ} (same : Agree m' m o (o + 16)) : itemKey m' o = itemKey m o := by
  rw [itemKey, itemKey, flagsOf_congr same]

theorem itemSuffix_congr {o : ℕ} (same : Agree m' m o (o + 16)) :
    itemSuffix m' o = itemSuffix m o := by
  rw [itemSuffix, itemSuffix, flagsOf_congr same, nkeyOf_congr same]

theorem itemData_congr {o : ℕ} (same : Agree m' m o (o + 16)) : itemData m' o = itemData m o := by
  rw [itemData, itemData, flagsOf_congr same, nkeyOf_congr same, nsuffixOf_congr same]

theorem Whole.recOf_congr (h : Whole m b) (same : Agree m' m b.off b.stop) :
    recOf m' b = recOf m b := by
  have header := h.agree_header same
  have stop := h.data_le
  have base : b.off ≤ itemKey m b.off := by simp only [itemKey]; omega
  have key : itemKey m b.off + nkeyOf m b.off + 1 = itemSuffix m b.off := by
    simp only [itemKey, itemSuffix]
    omega
  have suffix : itemSuffix m b.off + nsuffixOf m b.off = itemData m b.off := by
    simp only [itemSuffix, itemData]
    omega
  simp only [recOf, keyOf, suffixOf, dataOf, itemKey_congr header, itemSuffix_congr header,
    itemData_congr header, nkeyOf_congr header, nsuffixOf_congr header, nbytesOf_congr header,
    flagsOf_congr header, exptimeOf_congr header, Rec.mk.injEq, true_and, and_true]
  refine ⟨slice_congr (same.mono (by omega) (by omega)), slice_congr (same.mono (by omega) ?_),
    slice_congr (same.mono (by omega) (by omega))⟩
  omega

theorem Whole.itemGetCas_congr (h : Whole m b) (same : Agree m' m b.off b.stop) :
    itemGetCas m' b.off = itemGetCas m b.off := by
  rw [itemGetCas, itemGetCas, flagsOf_congr (h.agree_header same)]
  split_ifs with cas
  · refine u64_congr (same.mono (by omega) ?_)
    have room : ntotalCasRoom (flagsOf m b.off) = 8 := by simp [ntotalCasRoom, cas]
    have size := h.size_eq
    simp only [Block.stop]
    omega
  · rfl

end Whole

/-! ## Stores into a record -/

section Stores

variable {m : Mem} {b : Block}

theorem itemSetCas_outside {o v x : ℕ} (outside : x < o + 16 ∨ o + 24 ≤ x) :
    itemSetCas m o v x = m x := by
  unfold itemSetCas
  split_ifs
  · exact write_outside (by simp only [sizeofItemData, length_le64]; omega)
  · rfl

theorem recOf_itemSetCas (v : ℕ) : recOf (itemSetCas m b.off v) b = recOf m b := by
  have header : Agree (itemSetCas m b.off v) m b.off (b.off + 16) :=
    fun x _ hx => itemSetCas_outside (by omega)
  have tail (a n : ℕ) (after : b.off + 16 + casRoom (flagsOf m b.off) ≤ a) :
      slice (itemSetCas m b.off v) a n = slice m a n := by
    refine slice_congr fun x hl hh => ?_
    unfold itemSetCas
    split_ifs with cas
    · rw [casRoom, if_pos cas] at after
      exact write_outside (by simp only [sizeofItemData, length_le64]; omega)
    · rfl
  simp only [recOf, keyOf, suffixOf, dataOf, itemKey_congr header, itemSuffix_congr header,
    itemData_congr header, nkeyOf_congr header, nsuffixOf_congr header, nbytesOf_congr header,
    flagsOf_congr header, exptimeOf_congr header, Rec.mk.injEq, true_and, and_true]
  refine ⟨tail _ _ ?_, tail _ _ ?_, tail _ _ ?_⟩
  · simp only [itemKey, sizeofItemData]; omega
  · simp only [itemSuffix, sizeofItemData]; omega
  · simp only [itemData, sizeofItemData]; omega

theorem Whole.setCas (h : Whole m b) (v : ℕ) : Whole (itemSetCas m b.off v) b := by
  have header : Agree (itemSetCas m b.off v) m b.off (b.off + 16) :=
    fun x _ hx => itemSetCas_outside (by omega)
  exact ⟨⟨h.sized.header, (itemNtotal_congr header).trans h.sized.total,
    by rw [flagsOf_congr header]; exact h.sized.plain⟩, by rw [nbytesOf_congr header]; exact h.small⟩

theorem flagsOf_setFlags (m : Mem) (o : ℕ) (f : UInt8) : flagsOf (setFlags m o f) o = f := by
  rw [setFlags, flagsOf, write_byte, if_pos rfl]

theorem setFlags_outside {o x : ℕ} {f : UInt8} (other : x ≠ o + 9) : setFlags m o f x = m x := by
  rw [setFlags, write_byte, if_neg other]

/-- Changing the flags of a record changes nothing else, as long as `ITEM_CAS` stays. -/
theorem recOf_setFlags {f : UInt8} (cas : has f itemCas = has (flagsOf m b.off) itemCas) :
    recOf (setFlags m b.off f) b = { recOf m b with flags := f } := by
  have frame (a n : ℕ) (h : a + n ≤ b.off + 9 ∨ b.off + 10 ≤ a) :
      Agree (setFlags m b.off f) m a (a + n) :=
    fun x hl hh => setFlags_outside (by omega)
  have nkey : nkeyOf (setFlags m b.off f) b.off = nkeyOf m b.off :=
    congrArg UInt8.toNat (setFlags_outside (by omega))
  have nsuffix : nsuffixOf (setFlags m b.off f) b.off = nsuffixOf m b.off :=
    congrArg UInt8.toNat (setFlags_outside (by omega))
  have nbytes : nbytesOf (setFlags m b.off f) b.off = nbytesOf m b.off :=
    u32_congr (frame _ 4 (Or.inl (by omega)))
  have exptime : exptimeOf (setFlags m b.off f) b.off = exptimeOf m b.off :=
    u32_congr (frame _ 4 (Or.inl (by omega)))
  have room : casRoom f = casRoom (flagsOf m b.off) := by rw [casRoom, casRoom, cas]
  simp only [recOf, keyOf, suffixOf, dataOf, itemKey, itemSuffix, itemData, flagsOf_setFlags, room,
    nkey, nsuffix, nbytes, exptime, Rec.mk.injEq, true_and, and_true]
  refine ⟨slice_congr (frame _ _ (Or.inr ?_)), slice_congr (frame _ _ (Or.inr ?_)),
    slice_congr (frame _ _ (Or.inr ?_))⟩ <;> simp only [sizeofItemData] <;> omega

theorem Whole.setFlags (h : Whole m b) {f : UInt8}
    (room : ntotalCasRoom f = ntotalCasRoom (flagsOf m b.off)) (plain : has f itemCycle = false) :
    Whole (setFlags m b.off f) b := by
  have nkey : nkeyOf (LogMemcached.setFlags m b.off f) b.off = nkeyOf m b.off :=
    congrArg UInt8.toNat (setFlags_outside (by omega))
  have nsuffix : nsuffixOf (LogMemcached.setFlags m b.off f) b.off = nsuffixOf m b.off :=
    congrArg UInt8.toNat (setFlags_outside (by omega))
  have nbytes : nbytesOf (LogMemcached.setFlags m b.off f) b.off = nbytesOf m b.off :=
    u32_congr fun x _ hx => setFlags_outside (by omega)
  refine ⟨⟨h.sized.header, ?_, by rw [flagsOf_setFlags]; exact plain⟩, by rw [nbytes]; exact h.small⟩
  rw [← h.sized.total, itemNtotal, itemNtotal, nkey, nsuffix, nbytes, flagsOf_setFlags, room]

theorem recOf_write_data {a : ℕ} (bytes : List UInt8) (low : itemData m b.off ≤ a) :
    recOf (write m a bytes) b = { recOf m b with data := dataOf (write m a bytes) b.off } := by
  have before (lo hi : ℕ) (h : hi ≤ itemData m b.off) : Agree (write m a bytes) m lo hi :=
    agree_write (Or.inl (by omega))
  have header : Agree (write m a bytes) m b.off (b.off + 16) :=
    before _ _ (by simp only [itemData, sizeofItemData]; omega)
  simp only [recOf, keyOf, suffixOf, itemKey_congr header, itemSuffix_congr header,
    nkeyOf_congr header, nsuffixOf_congr header, flagsOf_congr header, exptimeOf_congr header,
    Rec.mk.injEq, true_and, and_true]
  exact ⟨slice_congr (before _ _ (by simp only [itemKey, itemData]; omega)),
    slice_congr (before _ _ (by simp only [itemSuffix, itemData]; omega))⟩

theorem Whole.write_data (h : Whole m b) {a : ℕ} {bytes : List UInt8}
    (low : itemData m b.off ≤ a) : Whole (write m a bytes) b := by
  have header : Agree (write m a bytes) m b.off (b.off + 16) :=
    agree_write (Or.inl (by simp only [itemData, sizeofItemData] at low; omega))
  exact ⟨⟨h.sized.header, (itemNtotal_congr header).trans h.sized.total,
    by rw [flagsOf_congr header]; exact h.sized.plain⟩, by rw [nbytesOf_congr header]; exact h.small⟩

end Stores

/-! ## New records -/

/-- The memory holds a record with the given header fields, key and suffix at `o`. -/
structure Written (m : Mem) (o : ℕ) (flags : UInt8) (key : Key) (suffix : List UInt8)
    (exptime nbytes : ℕ) : Prop where
  flags : flagsOf m o = flags
  nkey : nkeyOf m o = key.length
  nsuffix : nsuffixOf m o = suffix.length
  nbytes : nbytesOf m o = nbytes
  exptime : exptimeOf m o = exptime
  key : keyOf m o = key
  suffix : suffixOf m o = suffix

section New

variable {m : Mem} {o exptime flags : ℕ} {key : Key} {nbytes : ℤ}

theorem length_suffixText_le (small : flags < 2 ^ 32) (nonneg : 0 ≤ nbytes)
    (bounded : nbytes < 2 ^ 31) : (suffixText flags nbytes).length ≤ 24 := by
  have h1 := length_decimal_le (n := flags) (k := 10) (by norm_num) (by omega)
  have h2 : (decimalInt (nbytes - 2)).length ≤ 10 := by
    unfold decimalInt
    split_ifs with negative
    · have := length_decimal_le (n := (nbytes - 2).natAbs) (k := 1) (by norm_num) (by omega)
      simp only [List.length_cons]
      omega
    · exact length_decimal_le (by norm_num) (by omega)
  simp only [suffixText, List.length_cons, List.length_append, List.length_nil]
  omega

theorem intBits_of_nonneg (nonneg : 0 ≤ nbytes) (bounded : nbytes < 2 ^ 31) :
    intBits nbytes = nbytes.toNat ∧ nbytes.toNat < 2 ^ 31 := by
  unfold intBits
  omega

/-- The CAS bit of a record written under a setting of `use_cas`. -/
def casFlag (useCas : Bool) : UInt8 := if useCas then itemCas else 0

theorem allocTotal_eq (useCas : Bool) {nkey : ℕ} (short : nkey ≤ 250) (small : flags < 2 ^ 32)
    (nonneg : 0 ≤ nbytes) (bounded : nbytes < 2 ^ 31) :
    allocTotal useCas nkey flags nbytes =
      sizeofItemData + nkey + 1 + (suffixText flags nbytes).length + nbytes.toNat +
        casRoom (casFlag useCas) := by
  have suffix := length_suffixText_le small nonneg bounded
  have total : (itemMakeHeader (nkey + 1) flags nbytes).1 =
      sizeofItemData + nkey + 1 + (suffixText flags nbytes).length + nbytes.toNat := by
    simp only [itemMakeHeader, sizeofItemData]
    omega
  cases useCas with
  | false => simp only [allocTotal, total]; rfl
  | true =>
    have room : casRoom (casFlag true) = 8 := by decide
    simp only [allocTotal, total, if_true, sizeofItemData, room]
    omega

/-- The writes of `do_item_alloc` after the flags: the key `room` bytes after the header, and the
suffix after the key. -/
def writeFields (m : Mem) (o room : ℕ) (key : Key) (suffix : List UInt8) (nbytes : ℕ) : Mem :=
  let m := write m (o + 10) [UInt8.ofNat key.length]
  let m := write m (o + 4) (le32 nbytes)
  let m := write m (o + 16 + room) key
  let m := write m (o + 17 + room + key.length) suffix
  write m (o + 8) [UInt8.ofNat suffix.length]

theorem writeFields_outside {room n x : ℕ} {suffix : List UInt8}
    (outside : x < o ∨ o + 17 + room + key.length + suffix.length ≤ x) :
    writeFields m o room key suffix n x = m x := by
  simp only [writeFields]
  rw [write_outside (by simp only [List.length_singleton]; omega), write_outside (by omega),
    write_outside (by omega), write_outside (by simp only [length_le32]; omega),
    write_outside (by simp only [List.length_singleton]; omega)]

theorem writeFields_written {room n : ℕ} {suffix : List UInt8} (fits : casRoom (flagsOf m o) = room)
    (short : key.length < 256) (shortSuffix : suffix.length < 256) (small : n < 2 ^ 32) :
    Written (writeFields m o room key suffix n) o (flagsOf m o) key suffix (exptimeOf m o) n := by
  have flags : flagsOf (writeFields m o room key suffix n) o = flagsOf m o := by
    simp only [writeFields, flagsOf]
    rw [write_outside (by simp only [List.length_singleton]; omega), write_outside (by omega),
      write_outside (by omega), write_outside (by simp only [length_le32]; omega),
      write_outside (by simp only [List.length_singleton]; omega)]
  have nkey : nkeyOf (writeFields m o room key suffix n) o = key.length := by
    simp only [writeFields, nkeyOf]
    rw [write_outside (by simp only [List.length_singleton]; omega), write_outside (by omega),
      write_outside (by omega), write_outside (by simp only [length_le32]; omega), write_byte,
      if_pos rfl, UInt8.toNat_ofNat', Nat.mod_eq_of_lt short]
  have nsuffix : nsuffixOf (writeFields m o room key suffix n) o = suffix.length := by
    simp only [writeFields, nsuffixOf]
    rw [write_byte, if_pos rfl, UInt8.toNat_ofNat', Nat.mod_eq_of_lt shortSuffix]
  refine ⟨flags, nkey, nsuffix, ?_, ?_, ?_, ?_⟩
  · simp only [writeFields, nbytesOf]
    rw [u32_congr (agree_write (by omega)), u32_congr (agree_write (by omega)),
      u32_congr (agree_write (by omega)), u32_write, Nat.mod_eq_of_lt small]
  · simp only [writeFields, exptimeOf]
    rw [u32_congr (agree_write (by omega)), u32_congr (agree_write (by omega)),
      u32_congr (agree_write (by omega)), u32_congr (agree_write (by omega)),
      u32_congr (agree_write (by omega))]
  · rw [keyOf, itemKey, flags, fits, nkey]
    simp only [writeFields, sizeofItemData]
    rw [slice_congr (agree_write (by simp only [List.length_singleton]; omega)),
      slice_congr (agree_write (by omega)), slice_write_self]
  · rw [suffixOf, itemSuffix, flags, fits, nkey, nsuffix]
    have address : o + sizeofItemData + key.length + 1 + room = o + 17 + room + key.length := by
      simp only [sizeofItemData]
      omega
    simp only [writeFields, address]
    rw [slice_congr (agree_write (by simp only [List.length_singleton]; omega)), slice_write_self]

/-- The address computations of `do_item_alloc` once the flags are set. -/
theorem writeFields_eq {room : ℕ} (n : ℕ) (suffix : List UInt8) (fits : casRoom (flagsOf m o) = room)
    (short : key.length < 256) (before : Mem → Mem) (frame : ∀ m, Agree (before m) m (o + 4) (o + 16)) :
    (let m := write m (o + 10) [UInt8.ofNat key.length]
     let m := write m (o + 4) (le32 n)
     let m := write m (itemKey m o) key
     let m := before m
     let m := write m (itemSuffix m o) suffix
     write m (o + 8) [UInt8.ofNat suffix.length]) =
    (let m := write m (o + 10) [UInt8.ofNat key.length]
     let m := write m (o + 4) (le32 n)
     let m := write m (o + 16 + room) key
     let m := before m
     let m := write m (o + 17 + room + key.length) suffix
     write m (o + 8) [UInt8.ofNat suffix.length]) := by
  set m2 := write (write m (o + 10) [UInt8.ofNat key.length]) (o + 4) (le32 n) with h2
  have flags2 : flagsOf m2 o = flagsOf m o := by
    simp only [h2, flagsOf]
    rw [write_outside (by simp only [length_le32]; omega),
      write_outside (by simp only [List.length_singleton]; omega)]
  have nkey2 : nkeyOf m2 o = key.length := by
    simp only [h2, nkeyOf]
    rw [write_outside (by simp only [length_le32]; omega), write_byte, if_pos rfl,
      UInt8.toNat_ofNat', Nat.mod_eq_of_lt short]
  have key2 : itemKey m2 o = o + 16 + room := by rw [itemKey, flags2, fits, sizeofItemData]
  set m4 := before (write m2 (o + 16 + room) key) with h4
  have same : ∀ x, o + 4 ≤ x → x < o + 16 → m4 x = m2 x := fun x hl hh =>
    (frame _ x hl hh).trans (write_outside (by omega))
  have suffix4 : itemSuffix m4 o = o + 17 + room + key.length := by
    have flags4 : flagsOf m4 o = flagsOf m o := (same _ (by omega) (by omega)).trans flags2
    have nkey4 : nkeyOf m4 o = key.length :=
      (congrArg UInt8.toNat (same _ (by omega) (by omega))).trans nkey2
    rw [itemSuffix, flags4, fits, nkey4, sizeofItemData]
    omega
  simp only [← h2, key2, ← h4, suffix4]

theorem casRoom_new (useCas : Bool) :
    casRoom (casFlag useCas ||| itemDirty) = casRoom (casFlag useCas) := by
  cases useCas <;> decide

theorem writeItem_eq (useCas : Bool) (zero : flagsOf m o = 0) (short : key.length ≤ 250) :
    writeItem useCas m o key flags exptime nbytes =
      writeFields (write (setFlags (setFlags m o (casFlag useCas)) o (casFlag useCas ||| itemDirty))
        o (le32 exptime)) o (casRoom (casFlag useCas)) key (suffixText flags nbytes)
        (intBits nbytes) := by
  have first : (flagsOf m o ||| if useCas then itemCas else 0) = casFlag useCas := by
    rw [zero]
    cases useCas <;> decide
  have room : casRoom (flagsOf (setFlags (setFlags m o (casFlag useCas)) o
      (casFlag useCas ||| itemDirty)) o) = casRoom (casFlag useCas) := by
    rw [flagsOf_setFlags, casRoom_new]
  have address := writeFields_eq (intBits nbytes) (suffixText flags nbytes) room
    (by omega : key.length < 256) (write · o (le32 exptime)) fun m => agree_write (by simp)
  simp only [writeItem, itemMakeHeader, first, flagsOf_setFlags]
  rw [address]
  simp only [writeFields]
  rw [write_comm _ (a := o + 16 + casRoom (casFlag useCas)) (b := o) (by simp only [length_le32]; omega),
    write_comm _ (a := o + 4) (b := o) (by simp only [length_le32]; omega),
    write_comm _ (a := o + 10) (b := o) (by simp only [length_le32]; omega)]

theorem writeTombstone_eq (zero : flagsOf m o = 0) (short : key.length ≤ 250) :
    writeTombstone m o key flags nbytes =
      markStored (writeFields (setFlags m o itemDeleted) o 0 key (suffixText flags nbytes)
        (intBits nbytes)) o := by
  have first : flagsOf m o ||| itemDeleted = itemDeleted := by rw [zero]; decide
  have room : casRoom (flagsOf (setFlags m o itemDeleted) o) = 0 := by
    rw [flagsOf_setFlags]
    decide
  have address := writeFields_eq (intBits nbytes) (suffixText flags nbytes) room
    (by omega : key.length < 256) id fun m => Agree.refl _ _ _
  simp only [id] at address
  simp only [writeTombstone, itemMakeHeader, first]
  rw [address]
  rfl

/-- What `ITEM_ntotal` finds in a record that was just written. -/
theorem Written.ntotal {f : UInt8} {suffix : List UInt8} {n : ℕ}
    (h : Written m o f key suffix exptime n) (small : n < 2 ^ 31) (short : key.length ≤ 250)
    (shortSuffix : suffix.length ≤ 24) :
    itemNtotal m o = sizeofItemData + key.length + 1 + suffix.length + n + ntotalCasRoom f := by
  have room := ntotalCasRoom_le f
  rw [itemNtotal, h.nkey, h.nsuffix, h.nbytes, h.flags, intToSize, if_pos small, sizeofItemData,
    Nat.mod_eq_of_lt (by omega)]

theorem Written.whole {f : UInt8} {suffix : List UInt8} {n size : ℕ}
    (h : Written m o f key suffix exptime n) (plain : has f itemCycle = false)
    (room : ntotalCasRoom f = 8) (small : n < 2 ^ 31) (short : key.length ≤ 250)
    (shortSuffix : suffix.length ≤ 24)
    (total : size = sizeofItemData + key.length + 1 + suffix.length + n + 8) :
    Whole m ⟨o, size⟩ := by
  refine ⟨⟨?_, ?_, by rw [h.flags]; exact plain⟩, by rw [h.nbytes]; exact small⟩
  · simp only [sizeofItemData] at total
    dsimp only
    omega
  · rw [h.ntotal small short shortSuffix, room, total]

theorem Written.setFlags {f f' : UInt8} {suffix : List UInt8} {n : ℕ}
    (h : Written m o f key suffix exptime n) (room : casRoom f' = casRoom f) :
    Written (setFlags m o f') o f' key suffix exptime n := by
  have nkey : nkeyOf (LogMemcached.setFlags m o f') o = key.length :=
    (congrArg UInt8.toNat (setFlags_outside (by omega))).trans h.nkey
  have nsuffix : nsuffixOf (LogMemcached.setFlags m o f') o = suffix.length :=
    (congrArg UInt8.toNat (setFlags_outside (by omega))).trans h.nsuffix
  have after (a n : ℕ) (later : o + 16 ≤ a) :
      slice (LogMemcached.setFlags m o f') a n = slice m a n :=
    slice_congr fun x hl hh => setFlags_outside (by omega)
  refine ⟨flagsOf_setFlags _ _ _, nkey, nsuffix, ?_, ?_, ?_, ?_⟩
  · exact (u32_congr fun x _ hx => setFlags_outside (by omega)).trans h.nbytes
  · exact (u32_congr fun x _ hx => setFlags_outside (by omega)).trans h.exptime
  · have key := h.key
    rw [keyOf, itemKey, h.flags, h.nkey] at key
    rw [keyOf, itemKey, flagsOf_setFlags, room, nkey,
      after _ _ (by simp only [sizeofItemData]; omega), key]
  · have text := h.suffix
    rw [suffixOf, itemSuffix, h.flags, h.nkey, h.nsuffix] at text
    rw [suffixOf, itemSuffix, flagsOf_setFlags, room, nkey, nsuffix,
      after _ _ (by simp only [sizeofItemData]; omega), text]

theorem writeItem_written (useCas : Bool) (zero : flagsOf m o = 0) (short : key.length ≤ 250)
    (small : flags < 2 ^ 32) (nonneg : 0 ≤ nbytes) (bounded : nbytes < 2 ^ 31) :
    Written (writeItem useCas m o key flags exptime nbytes) o (casFlag useCas ||| itemDirty) key
      (suffixText flags nbytes) (exptime % 2 ^ 32) nbytes.toNat := by
  have length := length_suffixText_le small nonneg bounded
  obtain ⟨bits, lt⟩ := intBits_of_nonneg nonneg bounded
  have flagged (m : Mem) : flagsOf (write (setFlags m o (casFlag useCas ||| itemDirty)) o
      (le32 exptime)) o = casFlag useCas ||| itemDirty := by
    rw [flagsOf, write_outside (by simp only [length_le32]; omega)]
    exact flagsOf_setFlags _ _ _
  have written : Written (writeFields (write (setFlags (setFlags m o (casFlag useCas)) o
      (casFlag useCas ||| itemDirty)) o (le32 exptime)) o (casRoom (casFlag useCas)) key
      (suffixText flags nbytes) (intBits nbytes)) o _ key (suffixText flags nbytes) _
      (intBits nbytes) :=
    writeFields_written (by rw [flagged, casRoom_new]) (by omega) (by omega) (by omega)
  rw [flagged, exptimeOf, u32_write, bits] at written
  rw [writeItem_eq useCas zero short, bits]
  exact written

theorem writeItem_outside (useCas : Bool) (zero : flagsOf m o = 0) (short : key.length ≤ 250)
    {x : ℕ} (outside : x < o ∨
      o + 17 + casRoom (casFlag useCas) + key.length + (suffixText flags nbytes).length ≤ x) :
    writeItem useCas m o key flags exptime nbytes x = m x := by
  have low : x < o ∨ o + 17 ≤ x := by omega
  rw [writeItem_eq useCas zero short, writeFields_outside outside,
    write_outside (by simp only [length_le32]; omega), setFlags_outside (by omega),
    setFlags_outside (by omega)]

theorem writeTombstone_written (zero : flagsOf m o = 0) (short : key.length ≤ 250)
    (small : flags < 2 ^ 32) (nonneg : 0 ≤ nbytes) (bounded : nbytes < 2 ^ 31) :
    Written (writeTombstone m o key flags nbytes) o (itemDeleted ||| itemStored) key
      (suffixText flags nbytes) (exptimeOf m o) nbytes.toNat := by
  have length := length_suffixText_le small nonneg bounded
  obtain ⟨bits, lt⟩ := intBits_of_nonneg nonneg bounded
  have written : Written (writeFields (setFlags m o itemDeleted) o 0 key (suffixText flags nbytes)
      (intBits nbytes)) o _ key (suffixText flags nbytes) _ (intBits nbytes) :=
    writeFields_written (by rw [flagsOf_setFlags]; decide) (by omega) (by omega) (by omega)
  have expiry : exptimeOf (setFlags m o itemDeleted) o = exptimeOf m o :=
    u32_congr fun x _ hx => setFlags_outside (by omega)
  rw [flagsOf_setFlags, expiry, bits] at written
  rw [writeTombstone_eq zero short, bits]
  rw [markStored, written.flags]
  exact written.setFlags (by decide)

theorem writeTombstone_outside (zero : flagsOf m o = 0) (short : key.length ≤ 250) {x : ℕ}
    (outside : x < o ∨ o + 17 + key.length + (suffixText flags nbytes).length ≤ x) :
    writeTombstone m o key flags nbytes x = m x := by
  rw [writeTombstone_eq zero short, markStored, setFlags_outside (by omega),
    writeFields_outside (by omega), setFlags_outside (by omega)]

end New

end LogMemcached

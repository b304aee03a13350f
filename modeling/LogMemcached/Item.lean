import LogMemcached.Lib.ByteMem
import LogMemcached.Lib.CText

/-!
# Log records

The layout of `item_data`, the macros `ITEM_key`, `ITEM_suffix`, `ITEM_data`, `ITEM_ntotal`,
`ITEM_get_cas` and `ITEM_set_cas`, and `item_make_header`.  A record lives at an offset of the log;
its header is sixteen bytes (`exptime`, `nbytes`, `nsuffix`, `it_data_flags`, `nkey` and padding),
followed by the optional CAS word, the key, the suffix and the data.
-/

namespace LogMemcached

open ByteMem CText

/-- The bytes of a key. -/
abbrev Key := List UInt8

/-! ## Flag bits -/

def itemLinked : UInt8 := 1
def itemCas : UInt8 := 2
def itemSlabbed : UInt8 := 4
def itemStored : UInt8 := 8
def itemCycle : UInt8 := 16
def itemDirty : UInt8 := 32
def itemCorrupted : UInt8 := 64
def itemDeleted : UInt8 := 128

/-- The C condition `flags & bit`. -/
def has (flags bit : UInt8) : Bool := flags &&& bit != 0

/-- `sizeof(item_data)`; the trailing flexible array adds nothing. -/
def sizeofItemData : ℕ := 16

/-! ## Header fields -/

def exptimeOf (m : Mem) (o : ℕ) : ℕ := u32 m o

/-- The bits of the signed field `nbytes`. -/
def nbytesOf (m : Mem) (o : ℕ) : ℕ := u32 m (o + 4)

def nsuffixOf (m : Mem) (o : ℕ) : ℕ := (m (o + 8)).toNat

def flagsOf (m : Mem) (o : ℕ) : UInt8 := m (o + 9)

def nkeyOf (m : Mem) (o : ℕ) : ℕ := (m (o + 10)).toNat

/-- An `int` converted to `size_t`: the sign bit extends to the upper word. -/
def intToSize (w : ℕ) : ℕ := if w < 2 ^ 31 then w else w + (2 ^ 64 - 2 ^ 32)

/-- The room the CAS word takes in front of the key. -/
def casRoom (flags : UInt8) : ℕ := if has flags itemCas then 8 else 0

/-- The CAS term of `ITEM_ntotal`, which four flags switch on. -/
def ntotalCasRoom (flags : UInt8) : ℕ :=
  if has flags itemCas || has flags itemDeleted || has flags itemCorrupted || has flags itemCycle
  then 8 else 0

/-- `ITEM_key`, as an offset of the log. -/
def itemKey (m : Mem) (o : ℕ) : ℕ := o + sizeofItemData + casRoom (flagsOf m o)

/-- `ITEM_suffix`. -/
def itemSuffix (m : Mem) (o : ℕ) : ℕ :=
  o + sizeofItemData + nkeyOf m o + 1 + casRoom (flagsOf m o)

/-- `ITEM_data`. -/
def itemData (m : Mem) (o : ℕ) : ℕ :=
  o + sizeofItemData + nkeyOf m o + 1 + nsuffixOf m o + casRoom (flagsOf m o)

/-- `ITEM_ntotal`, a `size_t`. -/
def itemNtotal (m : Mem) (o : ℕ) : ℕ :=
  (sizeofItemData + nkeyOf m o + 1 + nsuffixOf m o + intToSize (nbytesOf m o) +
    ntotalCasRoom (flagsOf m o)) % 2 ^ 64

/-- `ITEM_get_cas`. -/
def itemGetCas (m : Mem) (o : ℕ) : ℕ :=
  if has (flagsOf m o) itemCas then u64 m (o + sizeofItemData) else 0

/-- `ITEM_set_cas`. -/
def itemSetCas (m : Mem) (o v : ℕ) : Mem :=
  if has (flagsOf m o) itemCas then write m (o + sizeofItemData) (le64 v) else m

/-! ## Contents of a record -/

def keyOf (m : Mem) (o : ℕ) : Key := slice m (itemKey m o) (nkeyOf m o)

def suffixOf (m : Mem) (o : ℕ) : List UInt8 := slice m (itemSuffix m o) (nsuffixOf m o)

def dataOf (m : Mem) (o : ℕ) : List UInt8 := slice m (itemData m o) (nbytesOf m o)

/-- The client flags, which survive only as text in the suffix. -/
def clientFlagsOf (m : Mem) (o : ℕ) : ℕ := strtoul (suffixOf m o) % 2 ^ 32

/-- Overwrite `it_data_flags`. -/
def setFlags (m : Mem) (o : ℕ) (f : UInt8) : Mem := write m (o + 9) [f]

/-- `it_data_flags &= ~ITEM_DIRTY; it_data_flags |= ITEM_STORED`. -/
def markStored (m : Mem) (o : ℕ) : Mem :=
  setFlags m o ((flagsOf m o &&& ~~~itemDirty) ||| itemStored)

/-- The flags `complete_nread_ascii` leaves on a bad data chunk. -/
def markCorrupted (m : Mem) (o : ℕ) : Mem :=
  setFlags m o (((flagsOf m o ||| itemCorrupted) &&& ~~~itemDirty) ||| itemStored)

/-! ## Sizes -/

/-- The suffix `" %u %d\r\n"` of `item_make_header`. -/
def suffixText (flags : ℕ) (nbytes : ℤ) : List UInt8 :=
  32 :: (decimal flags ++ 32 :: (decimalInt (nbytes - 2) ++ [13, 10]))

/-- `item_make_header`: the total size, a `size_t`, and the suffix. -/
def itemMakeHeader (nkey flags : ℕ) (nbytes : ℤ) : ℕ × List UInt8 :=
  let suffix := suffixText flags nbytes
  (((sizeofItemData + nkey % 256 + suffix.length % 256 + nbytes : ℤ) % 2 ^ 64).toNat, suffix)

/-- The size `do_item_alloc` asks the log for. -/
def allocTotal (useCas : Bool) (nkey flags : ℕ) (nbytes : ℤ) : ℕ :=
  let ntotal := (itemMakeHeader (nkey + 1) flags nbytes).1
  if useCas then (ntotal + 8) % 2 ^ 64 else ntotal

/-! ## Flag arithmetic -/

/-! ## Reads depend on the bytes they cover -/

section Congr

variable {m m' : Mem} {o : ℕ}

theorem flagsOf_congr (h : Agree m m' o (o + 16)) : flagsOf m o = flagsOf m' o :=
  h _ (by omega) (by omega)

theorem nkeyOf_congr (h : Agree m m' o (o + 16)) : nkeyOf m o = nkeyOf m' o :=
  congrArg UInt8.toNat (h _ (by omega) (by omega))

theorem nsuffixOf_congr (h : Agree m m' o (o + 16)) : nsuffixOf m o = nsuffixOf m' o :=
  congrArg UInt8.toNat (h _ (by omega) (by omega))

theorem nbytesOf_congr (h : Agree m m' o (o + 16)) : nbytesOf m o = nbytesOf m' o :=
  u32_congr (h.mono (by omega) (by omega))

theorem exptimeOf_congr (h : Agree m m' o (o + 16)) : exptimeOf m o = exptimeOf m' o :=
  u32_congr (h.mono (by omega) (by omega))

theorem itemNtotal_congr (h : Agree m m' o (o + 16)) : itemNtotal m o = itemNtotal m' o := by
  unfold itemNtotal
  rw [nkeyOf_congr h, nsuffixOf_congr h, nbytesOf_congr h, flagsOf_congr h]

theorem header_shift {m m' : Mem} {o o' : ℕ} (same : ∀ i < 16, m' (o' + i) = m (o + i)) :
    flagsOf m' o' = flagsOf m o ∧ nbytesOf m' o' = nbytesOf m o ∧
      itemNtotal m' o' = itemNtotal m o := by
  have flags : flagsOf m' o' = flagsOf m o := same 9 (by omega)
  have nbytes : nbytesOf m' o' = nbytesOf m o := by
    simp only [nbytesOf, u32, Nat.add_assoc]
    rw [same 4 (by omega), same (4 + 1) (by omega), same (4 + 2) (by omega),
      same (4 + 3) (by omega)]
  refine ⟨flags, nbytes, ?_⟩
  simp only [itemNtotal, nkeyOf, nsuffixOf, flags, nbytes, same 8 (by omega), same 10 (by omega)]

end Congr

end LogMemcached

import LogMemcached.NetworkSteps
import LogMemcached.Record

/-!
# Records inside their blocks

`do_item_alloc` writes a header, a key and a suffix and promises a data area of `nbytes` bytes.  All
of this lies in the block it was given exactly when `nbytes` is not negative, and the two protocols
differ in which request headers guarantee that.
-/

namespace LogMemcached

open ByteMem

variable {m : Mem} {o flags exptime : ℕ} {key : Key} {nbytes : ℤ}

/-- What `do_item_alloc` writes into its block. -/
def allocWrites (useCas : Bool) (m : Mem) (o : ℕ) (key : Key) (flags exptime : ℕ) (nbytes : ℤ) : Mem :=
  if deletedBit flags then writeTombstone m o key flags nbytes
  else writeItem useCas m o key flags exptime nbytes

/-- The length is one, and the record with its data area lies in the `ntotal` bytes from `o`. -/
structure StaysInside (useCas : Bool) (m : Mem) (o : ℕ) (key : Key) (flags exptime : ℕ)
    (nbytes : ℤ) : Prop where
  length : 0 ≤ nbytes
  writes : ∀ x, x < o ∨ o + allocTotal useCas key.length flags nbytes ≤ x →
    allocWrites useCas m o key flags exptime nbytes x = m x
  data : itemData (allocWrites useCas m o key flags exptime nbytes) o + nbytes ≤
    o + allocTotal useCas key.length flags nbytes

theorem Written.itemData_eq {f : UInt8} {suffix : List UInt8} {n : ℕ}
    (h : Written m o f key suffix exptime n) :
    itemData m o = o + sizeofItemData + casRoom f + key.length + 1 + suffix.length := by
  rw [itemData, h.flags, h.nkey, h.nsuffix]
  omega

theorem staysInside_of_nonneg (useCas : Bool) (zero : flagsOf m o = 0) (exptime : ℕ)
    (short : key.length ≤ keyMaxLength) (small : flags < 2 ^ 32) (nonneg : 0 ≤ nbytes)
    (bounded : nbytes < 2 ^ 31) : StaysInside useCas m o key flags exptime nbytes := by
  have total := allocTotal_eq useCas short small nonneg bounded
  unfold sizeofItemData at total
  by_cases marked : deletedBit flags
  · -- a tombstone has no room for a CAS id, so that eight bytes may be left over
    have writes : allocWrites useCas m o key flags exptime nbytes =
        writeTombstone m o key flags nbytes := if_pos marked
    refine ⟨nonneg, fun x outside => ?_, ?_⟩
    · rw [writes]
      exact writeTombstone_outside zero short (by omega)
    · have written := writeTombstone_written zero short small nonneg bounded
      have room : casRoom (itemDeleted ||| itemStored) = 0 := by decide
      rw [writes, written.itemData_eq, room, sizeofItemData]
      omega
  · have writes : allocWrites useCas m o key flags exptime nbytes =
        writeItem useCas m o key flags exptime nbytes := if_neg marked
    refine ⟨nonneg, fun x outside => ?_, ?_⟩
    · rw [writes]
      exact writeItem_outside useCas zero short (by omega)
    · have written : Written (writeItem useCas m o key flags exptime nbytes) o _ key _ _ _ :=
        writeItem_written useCas zero short small nonneg bounded
      rw [writes, written.itemData_eq, casRoom_new, sizeofItemData]
      omega

/-! ## Requests -/

/-- A request for a record: the tokens of a header line, or a binary request in the read buffer. -/
inductive AllocRequest
  | line (tokens : List (List UInt8)) (handleCas : Bool)
  | binary (buf : ℤ → UInt8) (a : ℤ)

namespace AllocRequest

/-- The key of the binary request at `a`. -/
def binaryKey (buf : ℤ → UInt8) (a : ℤ) : Key :=
  (List.range (binaryHeaderAt buf a).keylen).map fun k : ℕ =>
    buf (a + 24 + (binaryHeaderAt buf a).extlen + k)

/-- The data length with which `process_bin_update`, `process_bin_append_prepend` and
`process_bin_sasl_auth` call `item_alloc`. -/
def nbytesHanded (h : BinaryHeader) : BinCmd → Option ℤ
  | .set | .add | .replace => some (toInt (h.updateVlen + 2))
  | .append | .prepend => some (toInt (h.appendVlen + 2))
  | .saslAuth | .saslStep => if h.keylen > maxSaslMechLen then none else some h.appendVlen
  | _ => none

def flagsHanded (buf : ℤ → UInt8) (a : ℤ) : BinCmd → ℕ
  | .set | .add | .replace => bigEndian buf (a + 24) 4
  | _ => 0

/-- The key, client flags and data length that reach `do_item_alloc`; `none` for a request that does
not pass the checks of its parser. -/
def handed : AllocRequest → Option (Key × ℕ × ℤ)
  | .line tokens handleCas =>
      (parseUpdate tokens handleCas).map fun line => (line.key, line.flags, line.vlen + 2)
  | .binary buf a =>
      let h := binaryHeaderAt buf a
      let cmd := h.command.1
      if h.keylen > keyMaxLength ∨ (h.readsKey cmd).isNone then none
      else (nbytesHanded h cmd).map fun nbytes => (binaryKey buf a, flagsHanded buf a cmd, nbytes)

/-- `bodylen` less the extras and the key, as an unsigned number. -/
def valueLength (h : BinaryHeader) : ℤ := (h.bodylen - (h.keylen + h.extlen)) % 2 ^ 32

/-- The value length is a positive `int`, and so is the data length made of it. -/
def SizedFor (h : BinaryHeader) (cmd : BinCmd) : Prop :=
  if cmd = .saslAuth ∨ cmd = .saslStep then valueLength h < 2 ^ 31
  else valueLength h < 2 ^ 31 - 2 ∨ 2 ^ 32 - 2 ≤ valueLength h

def Sized : AllocRequest → Prop
  | .line _ _ => True
  | .binary buf a => SizedFor (binaryHeaderAt buf a) (binaryHeaderAt buf a).command.1

theorem toInt_eq (z : ℤ) :
    toInt z = if z % 2 ^ 32 < 2 ^ 31 then z % 2 ^ 32 else z % 2 ^ 32 - 2 ^ 32 := by
  rw [toInt, Int.bmod_def]
  norm_num

theorem toInt_nonneg (z : ℤ) : 0 ≤ toInt z ↔ z % 2 ^ 32 < 2 ^ 31 := by
  rw [toInt_eq]
  split_ifs <;> omega

theorem toInt_add_two_nonneg (z : ℤ) :
    0 ≤ toInt (toInt z + 2) ↔ z % 2 ^ 32 < 2 ^ 31 - 2 ∨ 2 ^ 32 - 2 ≤ z % 2 ^ 32 := by
  rw [toInt_eq (toInt z + 2), toInt_eq z]
  split_ifs <;> omega

theorem bigEndian_lt (buf : ℤ → UInt8) (a : ℤ) (n : ℕ) : bigEndian buf a n < 256 ^ n := by
  induction n with
  | zero => exact Nat.one_pos
  | succ n ih =>
    have := (buf (a + n)).toNat_lt
    rw [bigEndian, pow_succ]
    omega

theorem flagsHanded_lt (buf : ℤ → UInt8) (a : ℤ) (cmd : BinCmd) : flagsHanded buf a cmd < 2 ^ 32 := by
  have := bigEndian_lt buf (a + 24) 4
  unfold flagsHanded
  split <;> omega

theorem appendVlen_eq {h : BinaryHeader} (none : h.extlen = 0) : h.appendVlen = h.updateVlen := by
  rw [BinaryHeader.appendVlen, BinaryHeader.updateVlen, none, Nat.cast_zero, add_zero]

theorem nbytesHanded_bounds {h : BinaryHeader} {cmd : BinCmd} {next : BinSubstate} {extra : ℕ}
    (reads : h.readsKey cmd = some (next, extra)) (handed : nbytesHanded h cmd = some nbytes) :
    nbytes < 2 ^ 31 ∧ (0 ≤ nbytes ↔ SizedFor h cmd) := by
  cases cmd with
  | set | add | replace =>
    cases handed
    refine ⟨Connection.toInt_lt _, ?_⟩
    rw [SizedFor, if_neg (by decide)]
    exact toInt_add_two_nonneg _
  | append | prepend =>
    cases handed
    have none : h.extlen = 0 := by
      unfold BinaryHeader.readsKey at reads
      dsimp only at reads
      split_ifs at reads with checked
      exact checked.2
    refine ⟨Connection.toInt_lt _, ?_⟩
    rw [SizedFor, if_neg (by decide), appendVlen_eq none]
    exact toInt_add_two_nonneg _
  | saslAuth | saslStep =>
    have none : h.extlen = 0 := by
      unfold BinaryHeader.readsKey at reads
      dsimp only at reads
      split_ifs at reads with checked
      exact checked.1
    unfold nbytesHanded at handed
    dsimp only at handed
    split_ifs at handed
    cases handed
    refine ⟨Connection.toInt_lt _, ?_⟩
    rw [SizedFor, if_pos (by decide), appendVlen_eq none]
    exact toInt_nonneg _
  | _ => cases handed

theorem handed_bounds {request : AllocRequest} (passes : request.handed = some (key, flags, nbytes)) :
    key.length ≤ keyMaxLength ∧ flags < 2 ^ 32 ∧ nbytes < 2 ^ 31 ∧ (0 ≤ nbytes ↔ request.Sized) := by
  cases request with
  | line tokens handleCas =>
    obtain ⟨line, parsed, same⟩ := Option.map_eq_some_iff.1 passes
    cases same
    obtain ⟨short, small, low, high⟩ := Connection.parseUpdate_bounds parsed
    exact ⟨short, small, by omega, iff_of_true (by omega) trivial⟩
  | binary buf a =>
    unfold handed at passes
    dsimp only at passes
    split_ifs at passes with checked
    obtain ⟨short, checks⟩ := not_or.1 checked
    rw [Option.isNone_iff_eq_none] at checks
    obtain ⟨⟨next, extra⟩, reads⟩ := Option.ne_none_iff_exists'.1 checks
    obtain ⟨n, handed, same⟩ := Option.map_eq_some_iff.1 passes
    cases same
    obtain ⟨bounded, sized⟩ := nbytesHanded_bounds reads handed
    refine ⟨?_, flagsHanded_lt _ _ _, bounded, sized⟩
    rw [binaryKey, List.length_map, List.length_range]
    exact not_lt.1 short

end AllocRequest

/-- For every request that passes the checks of its parser, the record stays inside its block if and
only if the value length does not become a negative `int`, which only the binary protocol lets
happen. -/
theorem record_inside_iff {request : AllocRequest} {key : Key} {flags : ℕ} {nbytes : ℤ}
    (passes : request.handed = some (key, flags, nbytes)) :
    (∀ useCas m o exptime, flagsOf m o = 0 → StaysInside useCas m o key flags exptime nbytes) ↔
      request.Sized := by
  obtain ⟨short, small, bounded, sized⟩ := AllocRequest.handed_bounds passes
  rw [← sized]
  constructor
  · intro inside
    exact (inside true (fun _ => 0) 0 0 rfl).length
  · intro nonneg useCas m o exptime zero
    exact staysInside_of_nonneg useCas zero exptime short small nonneg bounded

/-- `set a 7 0 1`. -/
theorem record_inside_set : StaysInside true (fun _ => 0) 0 [97] 7 0 3 := by
  have passes : (AllocRequest.line (["set", "a", "7", "0", "1"].map (·.toUTF8.toList)) false).handed =
      some ([97], 7, 3) := by decide +kernel
  exact (record_inside_iff passes).2 trivial true (fun _ => 0) 0 0 rfl

/-- A binary `append` whose `bodylen` is zero, for a key of ten bytes. -/
def emptyAppend : ℤ → UInt8 := fun x =>
  if x = 0 then 0x80 else if x = 1 then 0x0e else if x = 3 then 10 else if 24 ≤ x then 97 else 0

/-- It passes every check with a data length of -8; the 35 bytes it asks for do not hold the 43 that
are written, the last of which is a line feed. -/
theorem append_writes_past_block :
    ((AllocRequest.binary emptyAppend 0).handed = some (List.replicate 10 97, 0, -8)) ∧
      allocTotal true 10 0 (-8) = 35 ∧
      allocWrites true (fun _ => 0) 0 (List.replicate 10 97) 0 0 (-8) 42 = 10 := by
  decide +kernel

end LogMemcached

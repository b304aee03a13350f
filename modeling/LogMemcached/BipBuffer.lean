import LogMemcached.Lib.ByteMem
import LogMemcached.Lib.CText

/-!
# Two-region buffers

`bipbuffer.c`: bytes are appended to region A, or to region B in front of it once the space behind A
is the smaller one, and read from region A, which B replaces when A is empty.  `contents` is the
queue that the two regions hold; the operations append to its end and remove from its front.
-/

namespace LogMemcached

open ByteMem

/-- `bipbuf_t`. -/
structure BipBuf where
  size : ℕ
  aStart : ℕ
  aEnd : ℕ
  bEnd : ℕ
  bInuse : Bool
  data : Mem

namespace BipBuf

/-- `bipbuf_new`, over memory with any contents. -/
def bipbufNew (size : ℕ) (data : Mem) : BipBuf := ⟨size, 0, 0, 0, false, data⟩

/-- The distance between region B and region A, or between region A and the buffer's end. -/
def space (me : BipBuf) : ℕ := if me.bInuse then me.aStart - me.bEnd else me.size - me.aEnd

/-- `bipbuf_unused`, which returns an `int`. -/
def bipbufUnused (me : BipBuf) : ℤ := (BitVec.ofNat 32 me.space).toInt

/-- `bipbuf_is_empty`. -/
def bipbufIsEmpty (me : BipBuf) : Bool := me.aStart == me.aEnd

/-- `__check_for_switch_to_b`. -/
def checkForSwitchToB (me : BipBuf) : BipBuf :=
  if me.size - me.aEnd < me.aStart - me.bEnd then { me with bInuse := true } else me

def tail (me : BipBuf) : ℕ := if me.bInuse then me.bEnd else me.aEnd

/-- `bipbuf_request`: the address of free space. -/
def bipbufRequest (me : BipBuf) (size : ℕ) : Option ℕ :=
  if me.bipbufUnused < size then none else some me.tail

def extend (me : BipBuf) (size : ℕ) : BipBuf :=
  if me.bInuse then { me with bEnd := me.bEnd + size } else { me with aEnd := me.aEnd + size }

/-- `bipbuf_push`, where `none` stands for 0. -/
def bipbufPush (me : BipBuf) (size : ℕ) : Option BipBuf :=
  if me.bipbufUnused < size then none else some (me.extend size).checkForSwitchToB

def store (me : BipBuf) (a : ℕ) (bytes : List UInt8) : BipBuf :=
  { me with data := write me.data a bytes }

/-- `bipbuf_offer`, where `none` stands for 0. -/
def bipbufOffer (me : BipBuf) (bytes : List UInt8) : Option BipBuf :=
  (me.store me.tail bytes).bipbufPush bytes.length

/-- `bipbuf_peek_all`: the address and the size of region A. -/
def bipbufPeekAll (me : BipBuf) : Option (ℕ × ℕ) :=
  if me.bipbufIsEmpty then none else some (me.aStart, me.aEnd - me.aStart)

/-- Replace an empty region A with region B, or move the cursor back to the start. -/
def rewind (me : BipBuf) : BipBuf :=
  if me.aStart = me.aEnd then
    if me.bInuse then { me with aStart := 0, aEnd := me.bEnd, bEnd := 0, bInuse := false }
    else { me with aStart := 0, aEnd := 0 }
  else me

/-- `bipbuf_poll`, where `none` stands for NULL. -/
def bipbufPoll (me : BipBuf) (size : ℕ) : Option BipBuf :=
  if me.bipbufIsEmpty then none
  else if me.size < me.aStart + size then none
  else some ({ me with aStart := me.aStart + size }.rewind).checkForSwitchToB

/-! ## The queue -/

def regionA (me : BipBuf) : List UInt8 := slice me.data me.aStart (me.aEnd - me.aStart)

def regionB (me : BipBuf) : List UInt8 := slice me.data 0 me.bEnd

def contents (me : BipBuf) : List UInt8 := me.regionA ++ me.regionB

/-- The regions are in order: B ends before A starts, and is empty when it is not in use or A is
empty.  A buffer whose size is no `int` refuses every request. -/
structure Valid (me : BipBuf) : Prop where
  word : me.size < 2 ^ 32
  usable : me.size < 2 ^ 31 ∨ me.aEnd = 0
  ordered : me.aStart ≤ me.aEnd
  inside : me.aEnd ≤ me.size
  below : me.bEnd ≤ me.aStart
  unused : me.bInuse = false → me.bEnd = 0
  empty : me.aStart = me.aEnd → me.aStart = 0 ∧ me.bInuse = false

theorem Valid.new {size : ℕ} (word : size < 2 ^ 32) (data : Mem) :
    Valid (bipbufNew size data) where
  word := by exact word
  usable := .inr rfl
  ordered := Nat.le_refl 0
  inside := Nat.zero_le size
  below := Nat.le_refl 0
  unused _ := rfl
  empty _ := ⟨rfl, rfl⟩

variable {me me' : BipBuf} {n : ℕ}

theorem request_eq_some {a : ℕ} (h : me.bipbufRequest n = some a) :
    ¬me.bipbufUnused < n ∧ a = me.tail := by
  rw [bipbufRequest] at h
  by_cases full : me.bipbufUnused < n
  · rw [if_pos full] at h
    cases h
  · rw [if_neg full] at h
    exact ⟨full, (Option.some.inj h).symm⟩

theorem unused_store (me : BipBuf) (a : ℕ) (bytes : List UInt8) :
    (me.store a bytes).bipbufUnused = me.bipbufUnused := rfl

theorem unused_lt_iff (word : me.space < 2 ^ 32) :
    ¬me.bipbufUnused < n ↔ n ≤ me.space ∧ me.space < 2 ^ 31 := by
  obtain ⟨k, eq, low, high⟩ := CText.bmod_spec me.space
  rw [bipbufUnused, BitVec.toInt_ofNat']
  omega

theorem Valid.space_lt (h : Valid me) : me.space < 2 ^ 32 := by
  have word := h.word
  have ordered := h.ordered
  have inside := h.inside
  rw [space]
  split <;> omega

theorem regionA_switch (me : BipBuf) : me.checkForSwitchToB.regionA = me.regionA := by
  rw [checkForSwitchToB]
  split <;> rfl

theorem regionB_switch (me : BipBuf) : me.checkForSwitchToB.regionB = me.regionB := by
  rw [checkForSwitchToB]
  split <;> rfl

/-- Only space behind a region A that starts past B makes the buffer switch, so A is not empty
then. -/
theorem Valid.switch (word : me.size < 2 ^ 32) (usable : me.size < 2 ^ 31 ∨ me.aEnd = 0)
    (ordered : me.aStart ≤ me.aEnd)
    (inside : me.aEnd ≤ me.size) (below : me.bEnd ≤ me.aStart)
    (unused : me.bInuse = false → me.bEnd = 0)
    (empty : me.aStart = me.aEnd → me.aStart = 0 ∧ me.bInuse = false) :
    Valid me.checkForSwitchToB := by
  rw [checkForSwitchToB]
  split_ifs with space
  · refine ⟨word, usable, ordered, inside, below, fun h => (by cases h), fun same => ?_⟩
    have := (empty same).1
    omega
  · exact ⟨word, usable, ordered, inside, below, unused, empty⟩

theorem aStart_switch (me : BipBuf) : me.checkForSwitchToB.aStart = me.aStart := by
  rw [checkForSwitchToB]
  split <;> rfl

/-- A record is appended: it is stored in the free space and the region in use is extended over
it. -/
theorem Valid.append (h : Valid me) {bytes : List UInt8} (record : bytes ≠ [])
    (pushed : (me.store me.tail bytes).bipbufPush bytes.length = some me') :
    Valid me' ∧ me'.aStart = me.aStart ∧
      (me'.regionA = me.regionA ++ bytes ∧ me.regionB = [] ∧ me'.regionB = [] ∨
        me'.regionA = me.regionA ∧ me'.regionB = me.regionB ++ bytes) := by
  have positive := List.length_pos_of_ne_nil record
  have ordered := h.ordered
  have inside := h.inside
  have below := h.below
  rw [bipbufPush] at pushed
  split_ifs at pushed with full
  obtain rfl := Option.some.inj pushed
  rw [unused_store] at full
  obtain ⟨fits, int⟩ := (unused_lt_iff h.space_lt).1 full
  rw [regionA_switch, regionB_switch, aStart_switch]
  cases inuse : me.bInuse with
  | false =>
    have none := h.unused inuse
    simp only [space, inuse, if_neg Bool.false_ne_true] at fits int
    have usable : me.size < 2 ^ 31 := by
      have := h.usable
      omega
    have extended : (me.store me.tail bytes).extend bytes.length =
        { me with data := write me.data me.aEnd bytes, aEnd := me.aEnd + bytes.length } := by
      simp [extend, store, tail, inuse]
    rw [extended]
    refine ⟨.switch h.word (.inl usable) ?_ ?_ below (fun _ => none) ?_, rfl, .inl ⟨?_, ?_, ?_⟩⟩
    · exact ordered.trans (Nat.le_add_right _ _)
    · dsimp only
      omega
    · dsimp only
      omega
    · have split : me.aEnd + bytes.length - me.aStart = me.aEnd - me.aStart + bytes.length := by omega
      have start : me.aStart + (me.aEnd - me.aStart) = me.aEnd := by omega
      simp only [regionA, split]
      rw [slice_add, start, slice_write_self, slice_congr (agree_write (by omega))]
    · rw [regionB, none]
      rfl
    · rw [regionB, none]
      rfl
  | true =>
    simp only [space, inuse, if_true] at fits
    have usable : me.size < 2 ^ 31 := by
      have := h.usable
      omega
    have extended : (me.store me.tail bytes).extend bytes.length =
        { me with data := write me.data me.bEnd bytes, bEnd := me.bEnd + bytes.length } := by
      simp [extend, store, tail, inuse]
    rw [extended]
    refine ⟨.switch h.word (.inl usable) ordered inside ?_ ?_ h.empty, rfl, .inr ⟨?_, ?_⟩⟩
    · dsimp only
      omega
    · intro idle
      rw [inuse] at idle
      cases idle
    · simp only [regionA]
      rw [slice_congr (agree_write (by omega))]
    · simp only [regionB]
      rw [slice_add, Nat.zero_add, slice_write_self, slice_congr (agree_write (by omega))]

/-- Bytes are removed from the front of region A; when it is empty, region B takes its place. -/
theorem Valid.poll (h : Valid me) (positive : 0 < n) (some_ : n ≤ me.regionA.length) :
    ∃ me', me.bipbufPoll n = some me' ∧ Valid me' ∧
      (me'.regionA = me.regionA.drop n ∧ me'.regionB = me.regionB ∨
        n = me.regionA.length ∧ me'.regionA = me.regionB ∧ me'.regionB = []) := by
  have ordered := h.ordered
  have inside := h.inside
  have below := h.below
  rw [regionA, length_slice] at some_ ⊢
  have usable : me.size < 2 ^ 31 := by
    have := h.usable
    omega
  have occupied : me.bipbufIsEmpty = false := by
    rw [bipbufIsEmpty, beq_eq_false_iff_ne]
    omega
  refine ⟨_, by rw [bipbufPoll, occupied, if_neg Bool.false_ne_true, if_neg (by omega)], ?_⟩
  rw [regionA_switch, regionB_switch, rewind]
  by_cases all : me.aStart + n = me.aEnd
  · rw [if_pos all]
    cases inuse : me.bInuse with
    | false =>
      have none := h.unused inuse
      rw [if_neg (by simp)]
      refine ⟨.switch h.word (.inl usable) (Nat.le_refl 0) (Nat.zero_le _) ?_ (fun _ => none) ?_,
        .inr ⟨by omega, ?_, ?_⟩⟩
      · exact none.le
      · exact fun _ => ⟨rfl, rfl⟩
      · simp [regionA, regionB, none]
      · simp [regionB, none, slice]
    | true =>
      rw [if_pos (by simp)]
      refine ⟨.switch h.word (.inl usable) (Nat.zero_le _) ?_ (Nat.le_refl 0) (fun _ => rfl) ?_,
        .inr ⟨by omega, ?_, rfl⟩⟩
      · exact below.trans (ordered.trans inside)
      · exact fun _ => ⟨rfl, rfl⟩
      · simp [regionA, regionB]
  · rw [if_neg all]
    refine ⟨.switch h.word (.inl usable) ?_ inside ?_ h.unused ?_, .inl ⟨?_, rfl⟩⟩
    · dsimp only
      omega
    · exact below.trans (Nat.le_add_right _ _)
    · exact fun same => absurd same all
    · obtain ⟨k, rest⟩ := Nat.exists_eq_add_of_le some_
      have left : me.aEnd - (me.aStart + n) = k := by omega
      simp only [regionA, left, rest]
      rw [slice_add, List.drop_left' (length_slice ..)]

theorem Valid.store (h : Valid me) (a : ℕ) (bytes : List UInt8) : Valid (me.store a bytes) :=
  ⟨h.word, h.usable, h.ordered, h.inside, h.below, h.unused, h.empty⟩

theorem Valid.offer (h : Valid me) {bytes : List UInt8} (record : bytes ≠ [])
    (offered : me.bipbufOffer bytes = some me') :
    Valid me' ∧ me'.contents = me.contents ++ bytes := by
  obtain ⟨valid, -, ⟨regionA, none, regionB⟩ | ⟨regionA, regionB⟩⟩ := h.append record offered
  · simp [valid, contents, regionA, none, regionB]
  · simp [valid, contents, regionA, regionB]

theorem Valid.contents_poll (h : Valid me) (positive : 0 < n) (some_ : n ≤ me.regionA.length) :
    ∃ me', me.bipbufPoll n = some me' ∧ Valid me' ∧
      me.contents = me.regionA.take n ++ me'.contents := by
  obtain ⟨me', polled, valid, ⟨regionA, regionB⟩ | ⟨all, regionA, regionB⟩⟩ := h.poll positive some_
  · refine ⟨me', polled, valid, ?_⟩
    rw [contents, contents, regionA, regionB, ← List.append_assoc, List.take_append_drop]
  · refine ⟨me', polled, valid, ?_⟩
    rw [contents, contents, regionA, regionB, all, List.take_length, List.append_nil]

/-- After a push the rest of the space that was requested is still there, whether or not the buffer
has switched to region B. -/
theorem Valid.unused_push (h : Valid me) {k : ℕ} (requested : ¬me.bipbufUnused < (n + k : ℕ)) :
    ∃ me', me.bipbufPush k = some me' ∧ ¬me'.bipbufUnused < n := by
  have ordered := h.ordered
  have inside := h.inside
  have below := h.below
  obtain ⟨fits, int⟩ := (unused_lt_iff h.space_lt).1 requested
  have room : ¬me.bipbufUnused < k := (unused_lt_iff h.space_lt).2 ⟨by omega, int⟩
  have usable : me.size < 2 ^ 31 := by
    have := h.usable
    rw [space] at int
    split_ifs at int with inuse
    · by_contra large
      have zero : me.aEnd = 0 := by omega
      have idle := (h.empty (by omega)).2
      rw [inuse] at idle
      cases idle
    · omega
  have bound : n ≤ (me.extend k).checkForSwitchToB.space ∧
      (me.extend k).checkForSwitchToB.space < 2 ^ 31 := by
    rw [space] at fits
    cases inuse : me.bInuse with
    | false =>
      simp only [inuse, if_neg Bool.false_ne_true] at fits
      simp only [extend, inuse, if_neg Bool.false_ne_true, checkForSwitchToB]
      split_ifs with switch
      · simp only [space, if_true]
        omega
      · simp only [space, if_neg Bool.false_ne_true]
        omega
    | true =>
      simp only [inuse, if_true] at fits
      simp only [extend, inuse, if_true, checkForSwitchToB, ite_self, space]
      omega
  refine ⟨_, by rw [bipbufPush, if_neg room], (unused_lt_iff (by omega)).2 bound⟩

end BipBuf

end LogMemcached

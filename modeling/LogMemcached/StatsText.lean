import LogMemcached.Lib.Fallible
import LogMemcached.Lib.Print

/-!
# The text of a stats response

`append_stats` appends a line to a buffer that is doubled until the line fits.  The space it asks for
leaves two bytes over the longest line: `snprintf` is given one byte less than what remains, and
writes one byte less than it is given.  The lengths go through `uint32_t` and `int` on the way.
-/

namespace LogMemcached

open CText Fallible

/-- `c->stats`; the buffer is NULL at the start. -/
structure StatsBuf where
  buffer : Option (List UInt8)
  size : ℕ
  offset : ℕ
deriving DecidableEq, Repr

/-- A call of `append_stats` with `klen` and `vlen` the lengths of the key and the value; the key is
empty only for the terminator. -/
structure StatsCall where
  key : List UInt8
  val : List UInt8
  klen : key.length < 2 ^ 16
  vlen : val.length < 2 ^ 32
  noNul : 0 ∉ key ∧ 0 ∉ val
  terminator : key = [] → val = []

/-- How a call can fail: an assertion, or a write outside the buffer. -/
inductive StatsAbort
  | nsizeZero
  | outside
  | offsetPastSize
deriving DecidableEq, Repr

def StatsCall.line (call : StatsCall) : List UInt8 :=
  if call.key.length = 0 ∧ call.val.length = 0 then "END\r\n".toUTF8.toList
  else if call.val.length = 0 then "STAT ".toUTF8.toList ++ call.key ++ [13, 10]
  else "STAT ".toUTF8.toList ++ call.key ++ [32] ++ call.val ++ [13, 10]

/-- What `snprintf` returns for the line, as a `uint32_t`. -/
def StatsCall.nbytes (call : StatsCall) : ℕ := (BitVec.ofInt 32 (printedLength call.line)).toNat

/-- `needed`, computed as a `uint32_t`. -/
def StatsCall.needed (call : StatsCall) : ℕ := (call.val.length + call.key.length + 10) % 2 ^ 32

namespace StatsBuf

def empty : StatsBuf := ⟨none, 0, 0⟩

/-- The loop of `grow_stats_buf`; a `size_t` cannot be doubled more than 64 times. -/
def growLoop (needed offset : ℕ) : ℕ → ℕ → ℕ → Except StatsAbort ℕ
  | 0, _, _ => .error .nsizeZero
  | fuel + 1, nsize, available =>
      if needed > available then do
        check (0 < nsize) .nsizeZero
        let nsize := 2 * nsize % 2 ^ 64
        growLoop needed offset fuel nsize (sizeSub nsize offset)
      else .ok nsize

/-- `grow_stats_buf`, with memory available. -/
def growStatsBuf (s : StatsBuf) (needed : ℕ) : Except StatsAbort StatsBuf :=
  match s.buffer with
  | none => do
      let nsize ← growLoop needed 0 65 1024 0
      .ok ⟨some (List.replicate nsize 0), nsize, 0⟩
  | some block => do
      let nsize ← growLoop needed s.offset 65 s.size (sizeSub s.size s.offset)
      .ok ⟨some (block ++ List.replicate (nsize - block.length) 0), nsize, s.offset⟩

/-- `room`, computed as an `int`, as the `size_t` that `snprintf` takes. -/
def room (s : StatsBuf) : ℕ :=
  let remaining := BitVec.ofNat 32 (sizeSub s.size s.offset)
  ((remaining - 1).signExtend 64).toNat

/-- `append_ascii_stats`. -/
def appendAsciiStats (s : StatsBuf) (call : StatsCall) : Except StatsAbort StatsBuf := do
  let block ← ofOption (snprintf (s.buffer.getD []) s.offset s.room call.line) .outside
  .ok ⟨some block, s.size, sizeAdd s.offset call.nbytes⟩

/-- `append_stats` on an ASCII connection. -/
def appendStats (s : StatsBuf) (call : StatsCall) : Except StatsAbort StatsBuf := do
  let s ← s.growStatsBuf call.needed
  let s ← s.appendAsciiStats call
  check (s.offset ≤ s.size) .offsetPastSize
  .ok s

def appendAll (calls : List StatsCall) : Except StatsAbort StatsBuf :=
  calls.foldlM appendStats empty

def text (s : StatsBuf) : List UInt8 := (s.buffer.getD []).take s.offset

/-! ## The budget of a line -/

theorem length_stat : "STAT ".toUTF8.toList.length = 5 := by decide +kernel

theorem length_end : "END\r\n".toUTF8.toList.length = 5 := by decide +kernel

theorem length_line (call : StatsCall) :
    call.line.length + 2 ≤ call.val.length + call.key.length + 10 ∧
      call.val.length + call.key.length + 5 ≤ call.line.length := by
  unfold StatsCall.line
  split
  · rw [length_end]
    omega
  · split <;> simp only [List.length_append, List.length_cons, List.length_nil, length_stat] <;> omega

/-- The loop of `grow_stats_buf`, from a power of two: it ends at one that has the space needed. -/
theorem growLoop_spec {needed offset : ℕ} (small : offset + needed ≤ 2 ^ 30) {fuel j available : ℕ}
    (enough : 30 < fuel + j) (le : j ≤ 30) (place : offset ≤ 2 ^ j)
    (stop : needed ≤ available → offset + needed ≤ 2 ^ j) (more : available < needed → j < 30) :
    ∃ k ≤ 30, growLoop needed offset fuel (2 ^ j) available = .ok (2 ^ k) ∧
      offset + needed ≤ 2 ^ k ∧ j ≤ k := by
  induction fuel generalizing j available with
  | zero => omega
  | succ fuel ih =>
    rw [growLoop]
    by_cases grow : needed > available
    · have next : j + 1 ≤ 30 := more grow
      have bound : 2 ^ (j + 1) ≤ 2 ^ 30 := Nat.pow_le_pow_right (by decide) next
      have positive : 0 < 2 ^ j := Nat.two_pow_pos j
      have twice : 2 ^ (j + 1) = 2 * 2 ^ j := by rw [pow_succ, Nat.mul_comm]
      have doubled : 2 * 2 ^ j % 2 ^ 64 = 2 ^ (j + 1) := by
        rw [← twice]
        exact Nat.mod_eq_of_lt (by omega)
      have space : sizeSub (2 ^ (j + 1)) offset = 2 ^ (j + 1) - offset :=
        sizeSub_eq (by omega) (by omega)
      have more' : 2 ^ (j + 1) - offset < needed → j + 1 < 30 := by
        intro short
        by_contra last
        obtain rfl : j = 29 := by omega
        omega
      rw [if_pos grow, check, if_pos (by simp), ok_bind, doubled]
      dsimp only
      rw [space]
      obtain ⟨k, bounded, ended, fits, grown⟩ :=
        ih (by omega) next (by omega) (by omega) more'
      exact ⟨k, bounded, ended, fits, by omega⟩
    · rw [if_neg grow]
      exact ⟨j, le, rfl, stop (by omega), le_rfl⟩

/-- The buffer is NULL, or its size is a power of two up to a gigabyte. -/
def Valid (s : StatsBuf) : Prop :=
  s = empty ∨ ∃ block j, s.buffer = some block ∧ block.length = s.size ∧ s.offset ≤ s.size ∧
    10 ≤ j ∧ j ≤ 30 ∧ s.size = 2 ^ j

theorem Valid.length_text {s : StatsBuf} (h : s.Valid) : s.text.length = s.offset := by
  obtain rfl | ⟨block, j, buffer, length, le, -⟩ := h
  · rfl
  · rw [text, buffer, Option.getD_some, List.length_take]
    omega

theorem Valid.growStatsBuf {s : StatsBuf} (h : s.Valid) (needed : ℕ) (positive : 0 < needed)
    (small : s.offset + needed ≤ 2 ^ 30) :
    ∃ s', s.growStatsBuf needed = .ok s' ∧ s'.Valid ∧ s'.text = s.text ∧ s'.offset = s.offset ∧
      s'.offset + needed ≤ s'.size ∧ s'.size ≤ 2 ^ 30 := by
  obtain rfl | ⟨block, j, buffer, length, le, low, high, size⟩ := h
  · obtain ⟨k, bounded, ended, fits, grown⟩ :=
      @growLoop_spec needed 0 small 65 10 0 (by omega) (by omega) (Nat.zero_le _) (by omega)
        (by omega)
    have bound : 2 ^ k ≤ 2 ^ 30 := Nat.pow_le_pow_right (by decide) bounded
    refine ⟨⟨some (List.replicate (2 ^ k) 0), 2 ^ k, 0⟩, ?_, ?_, ?_, rfl, fits, bound⟩
    · rw [StatsBuf.growStatsBuf]
      dsimp only [empty] at ended ⊢
      rw [show (1024 : ℕ) = 2 ^ 10 from rfl, ended]
      rfl
    · exact .inr ⟨_, k, rfl, List.length_replicate, Nat.zero_le _, grown, bounded, rfl⟩
    · exact List.take_zero
  · have space : sizeSub s.size s.offset = s.size - s.offset := by
      have bound : 2 ^ j ≤ 2 ^ 30 := Nat.pow_le_pow_right (by decide) high
      exact sizeSub_eq le (by omega)
    have more : s.size - s.offset < needed → j < 30 := by
      intro short
      by_contra last
      obtain rfl : j = 30 := by omega
      omega
    obtain ⟨k, bounded, ended, fits, grown⟩ :=
      @growLoop_spec needed s.offset small 65 j (s.size - s.offset) (by omega) high (size ▸ le)
        (by omega) more
    rw [← size] at ended
    have bound : 2 ^ k ≤ 2 ^ 30 := Nat.pow_le_pow_right (by decide) bounded
    have wider : 2 ^ j ≤ 2 ^ k := Nat.pow_le_pow_right (by decide) grown
    refine ⟨⟨some (block ++ List.replicate (2 ^ k - block.length) 0), 2 ^ k, s.offset⟩, ?_, ?_, ?_,
      rfl, fits, bound⟩
    · rw [StatsBuf.growStatsBuf, buffer]
      dsimp only
      rw [space, ended]
      rfl
    · refine .inr ⟨_, k, rfl, ?_, by dsimp only; omega, by omega, bounded, rfl⟩
      rw [List.length_append, List.length_replicate]
      dsimp only
      omega
    · have inside : s.offset ≤ block.length := by omega
      rw [text, text, buffer, Option.getD_some, Option.getD_some,
        List.take_append_of_le_length inside]

theorem room_eq {s : StatsBuf} (lt : s.offset < s.size) (small : s.size ≤ 2 ^ 30) :
    s.room = s.size - s.offset - 1 := by
  have space : sizeSub s.size s.offset = s.size - s.offset := sizeSub_eq lt.le (by omega)
  have value : (BitVec.ofNat 32 (s.size - s.offset) - 1).toNat = s.size - s.offset - 1 := by
    rw [BitVec.toNat_sub, BitVec.toNat_ofNat]
    simp
    omega
  have positive : (BitVec.ofNat 32 (s.size - s.offset) - 1).msb = false := by
    rw [BitVec.msb_eq_false_iff_two_mul_lt, value]
    omega
  rw [room, space, BitVec.signExtend_eq_setWidth_of_msb_false positive, BitVec.toNat_setWidth, value]
  exact Nat.mod_eq_of_lt (by omega)

theorem Valid.appendAsciiStats {s : StatsBuf} (h : s.Valid) (call : StatsCall)
    (fits : s.offset + call.line.length + 2 ≤ s.size) (small : s.size ≤ 2 ^ 30) :
    ∃ s', s.appendAsciiStats call = .ok s' ∧ s'.Valid ∧ s'.text = s.text ++ call.line ∧
      s'.offset ≤ s'.size := by
  obtain rfl | ⟨block, j, buffer, length, le, low, high, size⟩ := h
  · exact absurd fits (by simp [empty])
  · have room := room_eq (s := s) (by omega) small
    have nbytes : call.nbytes = call.line.length := by
      rw [StatsCall.nbytes, printedLength, if_pos (by omega), BitVec.toNat_ofInt]
      omega
    obtain ⟨block', printed, length', text'⟩ := @snprintf_whole block call.line s.offset
      (s.size - s.offset - 1) (by omega) (by omega)
    have offset : sizeAdd s.offset call.line.length = s.offset + call.line.length :=
      Nat.mod_eq_of_lt (by omega)
    refine ⟨⟨some block', s.size, s.offset + call.line.length⟩, ?_, ?_, ?_, by dsimp only; omega⟩
    · rw [StatsBuf.appendAsciiStats, room, buffer, Option.getD_some, printed, ofOption_some, ok_bind,
        nbytes, offset]
    · exact .inr ⟨block', j, rfl, length'.trans length, by dsimp only; omega, low, high, size⟩
    · rw [text, text, buffer]
      exact text'

theorem Valid.appendStats {s : StatsBuf} (h : s.Valid) (call : StatsCall)
    (small : s.offset + call.line.length + 5 ≤ 2 ^ 30) :
    ∃ s', s.appendStats call = .ok s' ∧ s'.Valid ∧ s'.text = s.text ++ call.line ∧
      s'.offset ≤ s'.size := by
  have budget := length_line call
  have needed : call.needed = call.val.length + call.key.length + 10 :=
    Nat.mod_eq_of_lt (by omega)
  obtain ⟨s₁, grown, valid₁, text₁, offset₁, space, size⟩ :=
    h.growStatsBuf call.needed (by omega) (by omega)
  obtain ⟨s', appended, valid, text', le⟩ := valid₁.appendAsciiStats call (by omega) size
  refine ⟨s', ?_, valid, by rw [text', text₁], le⟩
  rw [StatsBuf.appendStats, grown, ok_bind, appended, ok_bind, check, if_pos (by simpa using le)]
  rfl

def lines (calls : List StatsCall) : List UInt8 := calls.flatMap StatsCall.line

theorem appendAll_spec (calls : List StatsCall) (small : (lines calls).length + 5 ≤ 2 ^ 30) :
    ∃ s, appendAll calls = .ok s ∧ s.Valid ∧ s.text = lines calls := by
  induction calls using List.reverseRecOn with
  | nil => exact ⟨empty, rfl, .inl rfl, rfl⟩
  | append_singleton calls call ih =>
    have split : lines (calls ++ [call]) = lines calls ++ call.line := by simp [lines]
    rw [split, List.length_append] at small
    obtain ⟨s, ran, valid, text⟩ := ih (by omega)
    have offset := valid.length_text
    rw [text] at offset
    obtain ⟨s', appended, valid', text', -⟩ := valid.appendStats call (by omega)
    refine ⟨s', ?_, valid', by rw [text', text, split]⟩
    rw [appendAll, List.foldlM_append, ← appendAll, ran, ok_bind, List.foldlM_cons, appended, ok_bind]
    rfl

end StatsBuf

/-- While the whole text stays below a gigabyte, every call appends its complete line to the
buffer, and the closing assertion holds. -/
theorem stats_lines_whole (calls : List StatsCall) (call : StatsCall)
    (small : (StatsBuf.lines (calls ++ [call])).length + 5 ≤ 2 ^ 30) :
    ∃ s s', StatsBuf.appendAll calls = .ok s ∧ s.appendStats call = .ok s' ∧
      s.text = StatsBuf.lines calls ∧ s'.text = s.text ++ call.line ∧
      s'.offset = s'.text.length ∧ s'.offset ≤ s'.size := by
  have split : StatsBuf.lines (calls ++ [call]) = StatsBuf.lines calls ++ call.line := by
    simp [StatsBuf.lines]
  rw [split, List.length_append] at small
  obtain ⟨s, ran, valid, text⟩ := StatsBuf.appendAll_spec calls (by omega)
  have offset := valid.length_text
  rw [text] at offset
  obtain ⟨s', appended, valid', text', le⟩ := valid.appendStats call (by omega)
  exact ⟨s, s', ran, appended, text, text', valid'.length_text.symm, le⟩

/-- The line `STAT a 1`. -/
def statOne : StatsCall where
  key := [97]
  val := [49]
  klen := by decide
  vlen := by decide
  noNul := by decide
  terminator := nofun

theorem stats_lines_whole_one : ∃ s s', StatsBuf.appendAll [statOne] = .ok s ∧
    s.appendStats statOne = .ok s' ∧ s'.text = "STAT a 1\r\nSTAT a 1\r\n".toUTF8.toList ∧
    s'.offset ≤ s'.size := by
  obtain ⟨s, s', ran, appended, text, text', -, le⟩ :=
    stats_lines_whole [statOne] statOne (by decide +kernel)
  refine ⟨s, s', ran, appended, ?_, le⟩
  rw [text', text]
  decide +kernel

theorem exists_huge : ∃ call : StatsCall, call.key.length = 1 ∧ call.val.length = 2 ^ 32 - 11 := by
  have noNul : (0 : UInt8) ∉ List.replicate (2 ^ 32 - 11) (120 : UInt8) :=
    fun mem => absurd (List.eq_of_mem_replicate mem) (by decide)
  have vlen : (List.replicate (2 ^ 32 - 11) (120 : UInt8)).length < 2 ^ 32 := by
    rw [List.length_replicate]
    decide
  exact ⟨⟨[97], List.replicate (2 ^ 32 - 11) 120, by decide, vlen, ⟨by decide, noNul⟩, nofun⟩, rfl,
    List.length_replicate⟩

/-- The space needed for such a value is zero as a `uint32_t`: the buffer gets its smallest size, the
line is cut at its end, and the offset goes far past it. -/
theorem appendStats_huge {call : StatsCall} (key : call.key.length = 1)
    (val : call.val.length = 2 ^ 32 - 11) : ∃ s s',
    StatsBuf.empty.growStatsBuf call.needed = .ok s ∧ s.appendAsciiStats call = .ok s' ∧
      s'.size = 1024 ∧ s'.offset = 2 ^ 32 - 1 ∧
      StatsBuf.empty.appendStats call = .error .offsetPastSize := by
  have length : call.line.length = 2 ^ 32 - 2 := by
    rw [StatsCall.line, if_neg (by omega), if_neg (by omega)]
    simp only [List.length_append, List.length_cons, List.length_nil, StatsBuf.length_stat, val, key]
    decide
  have needed : call.needed = 0 := by
    rw [StatsCall.needed, val, key]
    decide
  have grown : StatsBuf.empty.growStatsBuf call.needed =
      .ok ⟨some (List.replicate 1024 0), 1024, 0⟩ := by
    rw [needed]
    rfl
  have room : StatsBuf.room ⟨some (List.replicate 1024 0), 1024, 0⟩ = 1023 :=
    StatsBuf.room_eq (by decide : 0 < 1024) (by decide : 1024 ≤ 2 ^ 30)
  have printed : (printed 1023 call.line).length = 1023 := by
    rw [CText.printed, if_neg (by decide), List.length_append, List.length_take, length]
    decide
  have nbytes : call.nbytes = 2 ^ 32 - 1 := by
    rw [StatsCall.nbytes, printedLength, length, if_neg (by decide)]
    decide
  obtain ⟨block, spliced⟩ : ∃ block,
      snprintf (List.replicate 1024 0) (0 : ℕ) 1023 call.line = some block := by
    refine ⟨_, splice_inside ?_⟩
    rw [printed, List.length_replicate]
    decide
  have appended : StatsBuf.appendAsciiStats ⟨some (List.replicate 1024 0), 1024, 0⟩ call =
      .ok ⟨some block, 1024, 2 ^ 32 - 1⟩ := by
    have offset : sizeAdd 0 (2 ^ 32 - 1) = 2 ^ 32 - 1 := by decide
    rw [StatsBuf.appendAsciiStats, room, Option.getD_some, spliced, ofOption_some, ok_bind, nbytes,
      offset]
  refine ⟨_, _, grown, appended, rfl, rfl, ?_⟩
  rw [StatsBuf.appendStats, grown, ok_bind, appended, ok_bind]
  rfl

theorem huge_value_cut : ∃ (call : StatsCall) (s s' : StatsBuf),
    StatsBuf.empty.growStatsBuf call.needed = .ok s ∧ s.appendAsciiStats call = .ok s' ∧
      s'.size = 1024 ∧ s'.offset = 2 ^ 32 - 1 ∧
      StatsBuf.empty.appendStats call = .error .offsetPastSize := by
  obtain ⟨call, key, val⟩ := exists_huge
  exact ⟨call, appendStats_huge key val⟩

end LogMemcached

import Mathlib

/-!
# Printing into a block of memory

`snprintf` writes a text and its terminator at a position of a block, cut off at a limit, and
returns the length of the text, as far as an `int` can hold it.
-/

namespace CText

/-- The sum of two `size_t`. -/
def sizeAdd (a b : ℕ) : ℕ := (a + b) % 2 ^ 64

/-- The difference of two `size_t`. -/
def sizeSub (a b : ℕ) : ℕ := (a + 2 ^ 64 - b) % 2 ^ 64

theorem sizeSub_eq {a b : ℕ} (le : b ≤ a) (small : a < 2 ^ 64) : sizeSub a b = a - b := by
  unfold sizeSub
  omega

/-- Bytes are written at a position of a block; `none` when they do not lie inside it. -/
def splice (block : List UInt8) (pos : ℤ) (out : List UInt8) : Option (List UInt8) :=
  if 0 ≤ pos ∧ pos + out.length ≤ block.length then
    some (block.take pos.toNat ++ out ++ block.drop (pos.toNat + out.length))
  else none

/-- What `snprintf` writes with the limit `n`. -/
def printed (n : ℕ) (text : List UInt8) : List UInt8 :=
  if n = 0 then [] else text.take (n - 1) ++ [0]

/-- `snprintf(block + pos, n, ...)` for a text. -/
def snprintf (block : List UInt8) (pos : ℤ) (n : ℕ) (text : List UInt8) : Option (List UInt8) :=
  splice block pos (printed n text)

/-- The value that `snprintf` returns; it fails when an `int` cannot hold the length. -/
def printedLength (text : List UInt8) : ℤ := if text.length < 2 ^ 31 then text.length else -1

section

variable {block out text : List UInt8} {pos n : ℕ}

theorem splice_inside (inside : pos + out.length ≤ block.length) :
    splice block pos out = some (block.take pos ++ out ++ block.drop (pos + out.length)) := by
  rw [splice, if_pos ⟨by omega, by omega⟩, Int.toNat_natCast]

theorem length_spliced (inside : pos + out.length ≤ block.length) :
    (block.take pos ++ out ++ block.drop (pos + out.length)).length = block.length := by
  simp only [List.length_append, List.length_take, List.length_drop]
  omega

theorem printed_whole (fits : text.length < n) : printed n text = text ++ [0] := by
  rw [printed, if_neg (by omega), List.take_of_length_le (by omega)]

theorem length_printed_le (n : ℕ) (text : List UInt8) : (printed n text).length ≤ n := by
  rw [printed]
  split
  · exact Nat.zero_le _
  · simp only [List.length_append, List.length_take, List.length_singleton]
    omega

/-- A text that is below the limit and fits into the block is written as a whole behind what was
there. -/
theorem snprintf_whole (fits : text.length < n) (inside : pos + text.length < block.length) :
    ∃ block', snprintf block pos n text = some block' ∧ block'.length = block.length ∧
      block'.take (pos + text.length) = block.take pos ++ text := by
  have inside' : pos + (text ++ [0]).length ≤ block.length := by
    simp only [List.length_append, List.length_singleton]
    omega
  refine ⟨_, ?_, length_spliced inside', ?_⟩
  · rw [snprintf, printed_whole fits, splice_inside inside']
  · have length : (block.take pos ++ text).length = pos + text.length := by
      simp only [List.length_append, List.length_take]
      omega
    rw [← length, List.append_assoc, List.append_assoc, ← List.append_assoc, List.take_left]

end

end CText

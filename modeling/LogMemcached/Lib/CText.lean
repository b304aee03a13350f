import Mathlib

/-!
# Decimal text in C

The `%u` and `%d` conversions of `printf` and the base-10 conversions of the `strto*` family, over
byte strings.  `scanDigits_decimal` is the round trip between the two.
-/

namespace CText

/-- `isspace` in the C locale. -/
def isSpace (b : UInt8) : Bool := b == 32 || (9 ≤ b && b ≤ 13)

/-- `isdigit`. -/
def isDigit (b : UInt8) : Bool := 48 ≤ b && b ≤ 57

/-- The character of a decimal digit. -/
def digitChar (d : ℕ) : UInt8 := UInt8.ofNat (48 + d)

/-- The text `%u` prints. -/
def decimal (n : ℕ) : List UInt8 :=
  if n = 0 then [48] else (Nat.digits 10 n).reverse.map digitChar

/-- The text `%d` prints. -/
def decimalInt (z : ℤ) : List UInt8 :=
  if z < 0 then 45 :: decimal z.natAbs else decimal z.natAbs

/-- Accumulate the leading digits and return the bytes after them. -/
def scanDigits : ℕ → List UInt8 → ℕ × List UInt8
  | acc, [] => (acc, [])
  | acc, b :: bs =>
      if isDigit b then scanDigits (acc * 10 + (b.toNat - 48)) bs else (acc, b :: bs)

/-- What a conversion reads: the sign, the magnitude and the bytes it leaves. -/
structure Number where
  negative : Bool
  magnitude : ℕ
  rest : List UInt8
deriving DecidableEq, Repr

/-- Take an optional sign off the text. -/
def scanSign : List UInt8 → Bool × List UInt8
  | b :: bs => if b == 45 then (true, bs) else if b == 43 then (false, bs) else (false, b :: bs)
  | [] => (false, [])

/-- Leading white space, an optional sign and at least one digit; `none` when nothing converts. -/
def scanNumber (bs : List UInt8) : Option Number :=
  let (negative, text) := scanSign (bs.dropWhile isSpace)
  match text with
  | [] => none
  | b :: _ =>
      if isDigit b then
        let (magnitude, rest) := scanDigits 0 text
        some ⟨negative, magnitude, rest⟩
      else none

/-- The value of `strtoul` and `strtoull` with 64-bit `unsigned long`, without the error report. -/
def strtoul (bs : List UInt8) : ℕ :=
  match scanNumber bs with
  | none => 0
  | some n =>
      if 2 ^ 64 ≤ n.magnitude then 2 ^ 64 - 1
      else if n.negative then (2 ^ 64 - n.magnitude) % 2 ^ 64
      else n.magnitude

/-! ## Digits -/

theorem isDigit_digitChar {d : ℕ} (h : d < 10) : isDigit (digitChar d) = true := by
  interval_cases d <;> decide

theorem isSpace_digitChar {d : ℕ} (h : d < 10) : isSpace (digitChar d) = false := by
  interval_cases d <;> decide

theorem toNat_digitChar {d : ℕ} (h : d < 10) : (digitChar d).toNat - 48 = d := by
  interval_cases d <;> decide

theorem scanDigits_map (ds : List ℕ) (small : ∀ d ∈ ds, d < 10) (acc : ℕ) (rest : List UInt8) :
    scanDigits acc (ds.map digitChar ++ rest) =
      scanDigits (ds.foldl (fun a d => a * 10 + d) acc) rest := by
  induction ds generalizing acc with
  | nil => rfl
  | cons d ds ih =>
    have hd : d < 10 := small d (List.mem_cons_self ..)
    simp only [List.map_cons, List.cons_append, scanDigits, isDigit_digitChar hd, if_true,
      toNat_digitChar hd, List.foldl_cons]
    exact ih (fun e he => small e (List.mem_cons_of_mem _ he)) _

theorem foldl_reverse_digits (n : ℕ) :
    (Nat.digits 10 n).reverse.foldl (fun a d => a * 10 + d) 0 = n := by
  rw [List.foldl_reverse]
  conv_rhs => rw [← Nat.ofDigits_digits 10 n, Nat.ofDigits_eq_foldr]
  congr 1
  funext d a
  simp only [Nat.cast_id]
  ring

/-- The digits of a number as `decimal` lists them. -/
theorem decimal_eq_map (n : ℕ) :
    ∃ ds : List ℕ, decimal n = ds.map digitChar ∧ ds ≠ [] ∧ (∀ d ∈ ds, d < 10) ∧
      ds.foldl (fun a d => a * 10 + d) 0 = n := by
  unfold decimal
  split_ifs with h
  · exact ⟨[0], by decide, by simp, by simp, by simp [h]⟩
  · refine ⟨(Nat.digits 10 n).reverse, rfl, ?_, ?_, foldl_reverse_digits n⟩
    · simpa [Nat.digits_ne_nil_iff_ne_zero] using h
    · intro d hd
      exact Nat.digits_lt_base (by norm_num) (List.mem_reverse.1 hd)

/-- Reading back a printed number stops exactly at the first byte after it. -/
theorem scanDigits_decimal (n : ℕ) {rest : List UInt8}
    (stop : ∀ b ∈ rest.head?, isDigit b = false) : scanDigits 0 (decimal n ++ rest) = (n, rest) := by
  obtain ⟨ds, hds, -, small, value⟩ := decimal_eq_map n
  rw [hds, scanDigits_map ds small, value]
  cases rest with
  | nil => rfl
  | cons b rest => simp [scanDigits, stop b (by simp)]

theorem scanNumber_decimal (n : ℕ) {rest : List UInt8}
    (stop : ∀ b ∈ rest.head?, isDigit b = false) :
    scanNumber (decimal n ++ rest) = some ⟨false, n, rest⟩ := by
  have scan := scanDigits_decimal n stop
  obtain ⟨ds, hds, nonempty, small, -⟩ := decimal_eq_map n
  obtain ⟨d, ds, rfl⟩ := List.exists_cons_of_ne_nil nonempty
  have hd : d < 10 := small d (List.mem_cons_self ..)
  have plain : digitChar d ≠ 45 ∧ digitChar d ≠ 43 := by interval_cases d <;> decide
  rw [hds, List.map_cons, List.cons_append] at scan ⊢
  simp only [scanNumber, List.dropWhile_cons, isSpace_digitChar hd, Bool.false_eq_true, if_false,
    scanSign, beq_iff_eq, plain.1, plain.2, isDigit_digitChar hd, if_true, scan]

/-- `strtoul` reads back a printed number, also after a space. -/
theorem strtoul_space_decimal {n : ℕ} (small : n < 2 ^ 64) {rest : List UInt8}
    (stop : ∀ b ∈ rest.head?, isDigit b = false) : strtoul (32 :: (decimal n ++ rest)) = n := by
  have skip : scanNumber (32 :: (decimal n ++ rest)) = scanNumber (decimal n ++ rest) := by
    simp [scanNumber, isSpace]
  simp only [strtoul, skip, scanNumber_decimal n stop, Bool.false_eq_true, if_false]
  rw [if_neg (by omega)]

theorem length_decimal_le {n k : ℕ} (positive : 0 < k) (h : n < 10 ^ k) :
    (decimal n).length ≤ k := by
  unfold decimal
  split_ifs
  · exact positive
  · rw [List.length_map, List.length_reverse]
    exact (Nat.digits_length_le_iff (by norm_num) n).2 h

/-- The `int32_t` that a `long` is truncated to. -/
theorem bmod_spec (l : ℤ) : ∃ k, l = Int.bmod l (2 ^ 32) + 2 ^ 32 * k ∧
    -2 ^ 31 ≤ Int.bmod l (2 ^ 32) ∧ Int.bmod l (2 ^ 32) < 2 ^ 31 := by
  have low := Int.le_bmod (x := l) (m := 2 ^ 32) (by norm_num)
  have high := Int.bmod_lt (x := l) (m := 2 ^ 32) (by norm_num)
  obtain ⟨k, eq⟩ := Int.dvd_self_sub_bmod (x := l) (m := 2 ^ 32)
  have cast : ((2 ^ 32 : ℕ) : ℤ) = 2 ^ 32 := rfl
  rw [cast] at eq low high
  exact ⟨k, by omega, by omega, by omega⟩

end CText

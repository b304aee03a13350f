import LogMemcached.Lib.Numeral
import LogMemcached.Lifetimes

/-!
# Which numbers are accepted

The wrappers of `util.c` around the `strto*` functions, against the strings they should accept and
the integers these denote.  Lengths, flags, deltas and CAS ids all pass through them.
-/

namespace LogMemcached

open CText

/-- `safe_strtoll`: the check is the one of `safe_strtol`, without its narrowing. -/
def safeStrtoll (str : List UInt8) : Option ℤ := acceptedLong str

def valueOf (n : Number) : ℤ := if n.negative then -n.magnitude else n.magnitude

/-- The NUL-terminated string is white space, a sign and digits, followed by the end or white space,
and denotes `v`. -/
def Denotes (str : List UInt8) (v : ℤ) : Prop :=
  ∃ n, Numeral (str.takeWhile (· != 0)) n ∧ n.rest.head?.all isSpace = true ∧ v = valueOf n

/-- A result is right: the string is accepted exactly if it denotes an integer of the type, and the
integer is the result. -/
def Exact (out : Option ℤ) (str : List UInt8) (low high : ℤ) : Prop :=
  ∀ v, out = some v ↔ Denotes str v ∧ low ≤ v ∧ v < high

def HasMinus (str : List UInt8) : Prop := 45 ∈ str.takeWhile (· != 0)

variable {str : List UInt8} {v u : ℤ}

theorem Denotes.unique (h : Denotes str v) (h' : Denotes str u) : v = u := by
  obtain ⟨n, read, -, rfl⟩ := h
  obtain ⟨n', read', -, rfl⟩ := h'
  rw [← scanNumber_eq_some_iff] at read read'
  rw [Option.some.inj (read.symm.trans read')]

theorem Denotes.hasMinus (h : Denotes str v) (negative : v < 0) : HasMinus str := by
  obtain ⟨n, ⟨ws, sign, digits, text, -, signed, -⟩, -, rfl⟩ := h
  rw [valueOf] at negative
  cases sign_eq : n.negative with
  | false =>
    rw [sign_eq, if_neg Bool.false_ne_true] at negative
    omega
  | true =>
    rw [sign_eq] at signed
    cases signed
    rw [HasMinus, text]
    simp

/-- `strtoll` with the checks: the integer, if a `long` can hold it. -/
theorem acceptedLong_eq_some_iff :
    acceptedLong str = some v ↔ Denotes str v ∧ -2 ^ 63 ≤ v ∧ v < 2 ^ 63 := by
  rw [acceptedLong]
  cases read : scanNumber (str.takeWhile (· != 0)) with
  | none =>
    constructor
    · intro none
      cases none
    · rintro ⟨⟨n, numeral, -⟩, -⟩
      rw [scanNumber_eq_some_iff.2 numeral] at read
      cases read
  | some n =>
    have numeral := scanNumber_eq_some_iff.1 read
    dsimp only
    change (if valueOf n < -2 ^ 63 ∨ 2 ^ 63 ≤ valueOf n then none else
      if n.rest.head?.all isSpace = true then some (valueOf n) else none) = some v ↔ _
    constructor
    · intro accepted
      split_ifs at accepted with range ended
      obtain rfl := Option.some.inj accepted
      exact ⟨⟨n, numeral, ended, rfl⟩, by omega⟩
    · rintro ⟨⟨n', numeral', ended, rfl⟩, low, high⟩
      rw [← scanNumber_eq_some_iff, read] at numeral'
      obtain rfl := Option.some.inj numeral'
      rw [if_neg (by omega), if_pos ended]

/-- `strtoull` with the checks: the integer modulo 2⁶⁴, unless it is large as an unsigned number and
there is a minus sign. -/
theorem safeStrtoull_eq_some_iff :
    (safeStrtoull str).map Nat.cast = some u ↔
      ∃ v, Denotes str v ∧ -2 ^ 64 < v ∧ v < 2 ^ 64 ∧ u = v % 2 ^ 64 ∧ ¬(2 ^ 63 ≤ u ∧ HasMinus str) := by
  rw [safeStrtoull]
  cases read : scanNumber (str.takeWhile (· != 0)) with
  | none =>
    constructor
    · intro none
      cases none
    · rintro ⟨v, ⟨n, numeral, -⟩, -⟩
      rw [scanNumber_eq_some_iff.2 numeral] at read
      cases read
  | some n =>
    have numeral := scanNumber_eq_some_iff.1 read
    dsimp only
    generalize ull_eq : (if n.negative then (2 ^ 64 - n.magnitude) % 2 ^ 64 else n.magnitude) = ull
    have wraps : n.magnitude < 2 ^ 64 → (ull : ℤ) = valueOf n % 2 ^ 64 := by
      intro small
      rw [← ull_eq, valueOf]
      split_ifs <;> omega
    have range : n.magnitude < 2 ^ 64 ↔ -2 ^ 64 < valueOf n ∧ valueOf n < 2 ^ 64 := by
      rw [valueOf]
      split_ifs <;> omega
    constructor
    · intro accepted
      split_ifs at accepted with large ended minus
      · cases accepted
      · cases accepted
      · obtain rfl := Option.some.inj accepted
        have small := Nat.lt_of_not_le large
        exact ⟨_, ⟨n, numeral, ended, rfl⟩, (range.1 small).1, (range.1 small).2, wraps small,
          fun ⟨big, sign⟩ => minus ⟨by exact_mod_cast big, sign⟩⟩
      · cases accepted
    · rintro ⟨_, ⟨n', numeral', ended, rfl⟩, low, high, rfl, minus⟩
      rw [← scanNumber_eq_some_iff, read] at numeral'
      obtain rfl := Option.some.inj numeral'
      have small := range.2 ⟨low, high⟩
      rw [← wraps small] at minus ⊢
      rw [if_neg (Nat.not_le.2 small), if_pos ended,
        if_neg fun ⟨big, sign⟩ => minus ⟨by exact_mod_cast big, sign⟩]
      rfl

/-- `safe_strtoul` keeps the low 32 bits. -/
theorem safeStrtoul_eq_some_iff :
    (safeStrtoul str).map Nat.cast = some u ↔
      ∃ w : ℤ, (safeStrtoull str).map Nat.cast = some w ∧ u = w % 2 ^ 32 := by
  rw [safeStrtoul]
  cases safeStrtoull str with
  | none => simp
  | some w => simp [eq_comm]

/-- An integer of which the unsigned functions take the value modulo 2⁶⁴ for a small number. -/
def Wraps (v : ℤ) : Prop := -2 ^ 64 < v ∧ v < -2 ^ 63

theorem nonneg_of_accepted (denotes : Denotes str v) (noWrap : ¬Wraps v) (low : -2 ^ 64 < v)
    (kept : ¬(2 ^ 63 ≤ v % 2 ^ 64 ∧ HasMinus str)) : 0 ≤ v := by
  rw [Wraps] at noWrap
  by_contra negative
  have minus := denotes.hasMinus (by omega)
  have small : ¬2 ^ 63 ≤ v % 2 ^ 64 := fun big => kept ⟨big, minus⟩
  omega

theorem exact_safeStrtoull :
    Exact ((safeStrtoull str).map Nat.cast) str 0 (2 ^ 64) ↔
      ∀ v, Denotes str v → ¬Wraps v ∧ ¬(2 ^ 63 ≤ v ∧ v < 2 ^ 64 ∧ HasMinus str) := by
  constructor
  · intro exact_ v denotes
    refine ⟨fun ⟨low, high⟩ => ?_, fun ⟨low, high, minus⟩ => ?_⟩
    · have accepted : (safeStrtoull str).map Nat.cast = some (v % 2 ^ 64) :=
        safeStrtoull_eq_some_iff.2 ⟨v, denotes, low, by omega, rfl, by omega⟩
      have same := ((exact_ _).1 accepted).1.unique denotes
      omega
    · have accepted := (exact_ v).2 ⟨denotes, by omega, high⟩
      obtain ⟨v', denotes', -, -, -, refused⟩ := safeStrtoull_eq_some_iff.1 accepted
      exact refused ⟨low, minus⟩
  · intro fits u
    rw [safeStrtoull_eq_some_iff]
    constructor
    · rintro ⟨v, denotes, low, high, rfl, refused⟩
      obtain ⟨noWrap, -⟩ := fits v denotes
      have nonneg := nonneg_of_accepted denotes noWrap low refused
      rw [Int.emod_eq_of_lt nonneg high]
      exact ⟨denotes, nonneg, high⟩
    · rintro ⟨denotes, low, high⟩
      obtain ⟨-, noMinus⟩ := fits u denotes
      exact ⟨u, denotes, by omega, high, (Int.emod_eq_of_lt low high).symm,
        fun ⟨big, minus⟩ => noMinus ⟨big, high, minus⟩⟩

theorem exact_safeStrtoul :
    Exact ((safeStrtoul str).map Nat.cast) str 0 (2 ^ 32) ↔
      ∀ v, Denotes str v →
        ¬Wraps v ∧ ¬(2 ^ 32 ≤ v ∧ v < 2 ^ 64 ∧ ¬(2 ^ 63 ≤ v ∧ HasMinus str)) := by
  constructor
  · intro exact_ v denotes
    refine ⟨fun ⟨low, high⟩ => ?_, fun ⟨low, high, kept⟩ => ?_⟩
    · have accepted : (safeStrtoul str).map Nat.cast = some (v % 2 ^ 64 % 2 ^ 32) :=
        safeStrtoul_eq_some_iff.2 ⟨_, safeStrtoull_eq_some_iff.2
          ⟨v, denotes, low, by omega, rfl, by omega⟩, rfl⟩
      have same := ((exact_ _).1 accepted).1.unique denotes
      omega
    · have whole := Int.emod_eq_of_lt (by omega) high
      have accepted : (safeStrtoul str).map Nat.cast = some (v % 2 ^ 32) :=
        safeStrtoul_eq_some_iff.2 ⟨v, safeStrtoull_eq_some_iff.2
          ⟨v, denotes, by omega, high, whole.symm, kept⟩, rfl⟩
      have same := ((exact_ _).1 accepted).1.unique denotes
      omega
  · intro fits u
    rw [safeStrtoul_eq_some_iff]
    constructor
    · rintro ⟨w, accepted, rfl⟩
      obtain ⟨v, denotes, low, high, rfl, refused⟩ := safeStrtoull_eq_some_iff.1 accepted
      obtain ⟨noWrap, noLarge⟩ := fits v denotes
      have nonneg := nonneg_of_accepted denotes noWrap low refused
      rw [Int.emod_eq_of_lt nonneg high] at refused ⊢
      have small : v < 2 ^ 32 := by
        by_contra large
        exact noLarge ⟨by omega, high, refused⟩
      rw [Int.emod_eq_of_lt nonneg small]
      exact ⟨denotes, nonneg, small⟩
    · rintro ⟨denotes, low, high⟩
      refine ⟨u, safeStrtoull_eq_some_iff.2 ⟨u, denotes, by omega, by omega, ?_, by omega⟩, ?_⟩
      · exact (Int.emod_eq_of_lt low (by omega)).symm
      · exact (Int.emod_eq_of_lt low high).symm

theorem exact_safeStrtol :
    Exact (safeStrtol str) str (-2 ^ 31) (2 ^ 31) ↔
      ∀ v, Denotes str v → -2 ^ 63 ≤ v → v < 2 ^ 63 → -2 ^ 31 ≤ v ∧ v < 2 ^ 31 := by
  constructor
  · intro exact_ v denotes low high
    have accepted : safeStrtol str = some (Int.bmod v (2 ^ 32)) := by
      rw [safeStrtol_eq, acceptedLong_eq_some_iff.2 ⟨denotes, low, high⟩, Option.map_some]
    obtain ⟨same, bounds⟩ := (exact_ _).1 accepted
    rwa [same.unique denotes] at bounds
  · intro fits u
    rw [safeStrtol_eq, Option.map_eq_some_iff]
    have same (v : ℤ) (low : -2 ^ 31 ≤ v) (high : v < 2 ^ 31) : Int.bmod v (2 ^ 32) = v := by
      obtain ⟨k, eq, low', high'⟩ := bmod_spec v
      omega
    constructor
    · rintro ⟨v, accepted, rfl⟩
      obtain ⟨denotes, low, high⟩ := acceptedLong_eq_some_iff.1 accepted
      obtain ⟨low, high⟩ := fits v denotes low high
      rw [same v low high]
      exact ⟨denotes, low, high⟩
    · rintro ⟨denotes, low, high⟩
      exact ⟨u, acceptedLong_eq_some_iff.2 ⟨denotes, by omega, by omega⟩, same u low high⟩

/-- The four functions on every string.  `safe_strtoll` is exact; the others are except where a
64-bit result is narrowed, a negative number wraps around, or a minus sign elsewhere in the string
is held against a large one. -/
theorem safe_numbers_exact (str : List UInt8) :
    (Exact ((safeStrtoull str).map Nat.cast) str 0 (2 ^ 64) ↔
      ∀ v, Denotes str v → ¬Wraps v ∧ ¬(2 ^ 63 ≤ v ∧ v < 2 ^ 64 ∧ HasMinus str)) ∧
    (Exact ((safeStrtoul str).map Nat.cast) str 0 (2 ^ 32) ↔
      ∀ v, Denotes str v →
        ¬Wraps v ∧ ¬(2 ^ 32 ≤ v ∧ v < 2 ^ 64 ∧ ¬(2 ^ 63 ≤ v ∧ HasMinus str))) ∧
    Exact (safeStrtoll str) str (-2 ^ 63) (2 ^ 63) ∧
    (Exact (safeStrtol str) str (-2 ^ 31) (2 ^ 31) ↔
      ∀ v, Denotes str v → -2 ^ 63 ≤ v → v < 2 ^ 63 → -2 ^ 31 ≤ v ∧ v < 2 ^ 31) :=
  ⟨exact_safeStrtoull, exact_safeStrtoul, fun _ => acceptedLong_eq_some_iff, exact_safeStrtol⟩

/-- `-18446744073709551615` is read as 1, `4294967297` as 1 in 32 bits, and `9223372036854775808` is
refused when `-` follows it. -/
theorem numbers_misread :
    safeStrtoull "-18446744073709551615".toUTF8.toList = some 1 ∧
    safeStrtoul "4294967297".toUTF8.toList = some 1 ∧
    safeStrtol "4294967297".toUTF8.toList = some 1 ∧
    safeStrtoull "9223372036854775808 -".toUTF8.toList = none := by
  decide +kernel

end LogMemcached

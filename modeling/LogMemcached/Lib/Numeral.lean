import LogMemcached.Lib.CText

/-!
# The grammar of decimal numbers

The strings from which the `strto*` functions read a number, without the scanner: white space, a
sign, digits and a rest that begins with no digit.
-/

namespace CText

/-- The number that some digits denote. -/
def digitsValue (digits : List UInt8) : ℕ :=
  digits.foldl (fun acc b => acc * 10 + (b.toNat - 48)) 0

/-- The signs of a number. -/
inductive Sign : List UInt8 → Bool → Prop
  | none : Sign [] false
  | plus : Sign [43] false
  | minus : Sign [45] true

/-- White space, an optional sign and at least one digit, as many as there are, before the rest. -/
def Numeral (text : List UInt8) (n : Number) : Prop :=
  ∃ ws sign digits, text = ws ++ (sign ++ (digits ++ n.rest)) ∧ (∀ b ∈ ws, isSpace b = true) ∧
    Sign sign n.negative ∧ digits ≠ [] ∧ (∀ b ∈ digits, isDigit b = true) ∧
    (∀ b ∈ n.rest.head?, isDigit b = false) ∧ n.magnitude = digitsValue digits

theorem scanDigits_append {digits rest : List UInt8} (all : ∀ b ∈ digits, isDigit b = true)
    (stop : ∀ b ∈ rest.head?, isDigit b = false) (acc : ℕ) :
    scanDigits acc (digits ++ rest) =
      (digits.foldl (fun acc b => acc * 10 + (b.toNat - 48)) acc, rest) := by
  induction digits generalizing acc with
  | nil =>
    cases rest with
    | nil => rfl
    | cons b rest => simp [scanDigits, stop b rfl]
  | cons b digits ih =>
    obtain ⟨first, all⟩ := List.forall_mem_cons.1 all
    rw [List.cons_append, scanDigits, if_pos first, ih all, List.foldl_cons]

theorem scanDigits_split (acc : ℕ) (text : List UInt8) :
    ∃ digits, text = digits ++ (scanDigits acc text).2 ∧ (∀ b ∈ digits, isDigit b = true) ∧
      (∀ b ∈ (scanDigits acc text).2.head?, isDigit b = false) := by
  induction text generalizing acc with
  | nil => exact ⟨[], rfl, by simp, by simp [scanDigits]⟩
  | cons b text ih =>
    rw [scanDigits]
    split_ifs with digit
    · obtain ⟨digits, split, all, stop⟩ := ih (acc * 10 + (b.toNat - 48))
      exact ⟨b :: digits, by rw [List.cons_append, ← split],
        List.forall_mem_cons.2 ⟨digit, all⟩, stop⟩
    · exact ⟨[], rfl, by simp, by simpa using digit⟩

theorem scanSign_split (text : List UInt8) :
    ∃ sign, text = sign ++ (scanSign text).2 ∧ Sign sign (scanSign text).1 := by
  cases text with
  | nil => exact ⟨[], rfl, .none⟩
  | cons b text =>
    rw [scanSign]
    split_ifs with minus plus
    · obtain rfl := beq_iff_eq.1 minus
      exact ⟨[45], rfl, .minus⟩
    · obtain rfl := beq_iff_eq.1 plus
      exact ⟨[43], rfl, .plus⟩
    · exact ⟨[], rfl, .none⟩

/-- A digit is no sign and no white space. -/
theorem isDigit_spec {b : UInt8} (digit : isDigit b = true) :
    b ≠ 45 ∧ b ≠ 43 ∧ isSpace b = false := by
  simp only [isDigit, Bool.and_eq_true, decide_eq_true_eq, UInt8.le_iff_toNat_le] at digit
  simp only [isSpace, Bool.or_eq_false_iff, Bool.and_eq_false_iff, beq_eq_false_iff_ne,
    decide_eq_false_iff_not, UInt8.le_iff_toNat_le, ne_eq, ← UInt8.toNat_inj]
  obtain ⟨low, high⟩ := digit
  have low : 48 ≤ b.toNat := low
  refine ⟨?_, ?_, ?_, .inr ?_⟩
  · change b.toNat ≠ 45
    omega
  · change b.toNat ≠ 43
    omega
  · change b.toNat ≠ 32
    omega
  · change ¬b.toNat ≤ 13
    omega

theorem scanSign_append {sign text : List UInt8} {negative : Bool} (h : Sign sign negative)
    (digit : ∃ b rest, text = b :: rest ∧ isDigit b = true) :
    scanSign (sign ++ text) = (negative, text) := by
  obtain ⟨b, rest, rfl, digit⟩ := digit
  obtain ⟨noMinus, noPlus, -⟩ := isDigit_spec digit
  cases h with
  | none => simp [scanSign, noMinus, noPlus]
  | plus => rfl
  | minus => rfl

theorem dropWhile_isSpace {sign text : List UInt8} {negative : Bool} (h : Sign sign negative)
    (digit : ∃ b rest, text = b :: rest ∧ isDigit b = true) :
    (sign ++ text).dropWhile isSpace = sign ++ text := by
  obtain ⟨b, rest, rfl, digit⟩ := digit
  obtain ⟨-, -, noSpace⟩ := isDigit_spec digit
  cases h with
  | none => rw [List.nil_append, List.dropWhile_cons, if_neg (by simp [noSpace])]
  | plus => rfl
  | minus => rfl

/-- The scanner reads exactly the numerals. -/
theorem scanNumber_eq_some_iff {text : List UInt8} {n : Number} :
    scanNumber text = some n ↔ Numeral text n := by
  constructor
  · intro read
    rw [scanNumber] at read
    obtain ⟨sign, split, signed⟩ := scanSign_split (text.dropWhile isSpace)
    generalize scanSign (text.dropWhile isSpace) = scanned at split signed read
    obtain ⟨negative, text'⟩ := scanned
    cases text' with
    | nil => cases read
    | cons b rest =>
      dsimp only at read split signed
      split_ifs at read with digit
      obtain rfl := Option.some.inj read
      obtain ⟨digits, cut, all, stop⟩ := scanDigits_split 0 (b :: rest)
      refine ⟨text.takeWhile isSpace, sign, digits, ?_, fun b mem => List.mem_takeWhile_imp mem, signed, ?_, all, stop, ?_⟩
      · dsimp only
        rw [← cut, ← split, List.takeWhile_append_dropWhile]
      · rintro rfl
        rw [List.nil_append] at cut
        have := stop b (by rw [← cut]; rfl)
        rw [digit] at this
        cases this
      · have scan := scanDigits_append all stop 0
        rw [← cut] at scan
        exact congrArg Prod.fst scan
  · rintro ⟨ws, sign, digits, rfl, spaces, signed, nonempty, all, stop, value⟩
    obtain ⟨b, digits, rfl⟩ := List.exists_cons_of_ne_nil nonempty
    have digit : ∃ c rest, (b :: digits) ++ n.rest = c :: rest ∧ isDigit c = true :=
      ⟨b, _, rfl, all b (List.mem_cons_self ..)⟩
    rw [scanNumber, List.dropWhile_append_of_pos spaces, dropWhile_isSpace signed digit,
      scanSign_append signed digit]
    have scan := scanDigits_append all stop 0
    rw [List.cons_append] at scan ⊢
    dsimp only
    rw [if_pos (all b (List.mem_cons_self ..)), scan]
    simp only [Option.some.injEq]
    obtain ⟨negative, magnitude, rest⟩ := n
    simp only [Number.mk.injEq, true_and, and_true]
    exact value.symm

end CText

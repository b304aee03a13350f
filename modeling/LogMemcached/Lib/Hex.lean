import LogMemcached.Lib.CText

/-!
# Hexadecimal text in C

The `%x` conversion of `printf`, with zeros in front up to a width, and the `%x` and `%s`
conversions of `sscanf` over byte strings.  `scanHex_hex` is the round trip between the two.
-/

namespace CText

/-- The character of a hexadecimal digit. -/
def hexChar (d : ℕ) : UInt8 := if d < 10 then digitChar d else UInt8.ofNat (87 + d)

/-- The value of a hexadecimal digit, in either case. -/
def hexValue (b : UInt8) : Option ℕ :=
  if isDigit b then some (b.toNat - 48)
  else if 97 ≤ b && b ≤ 102 then some (b.toNat - 87)
  else if 65 ≤ b && b ≤ 70 then some (b.toNat - 55)
  else none

/-- The digits of a number, the highest first. -/
def hexDigits (n : ℕ) : List ℕ := if n = 0 then [0] else (Nat.digits 16 n).reverse

/-- The text `%0*x` prints for a width. -/
def hex (width n : ℕ) : List UInt8 :=
  (List.replicate (width - (hexDigits n).length) 0 ++ hexDigits n).map hexChar

/-- Accumulate the leading digits and return the bytes after them. -/
def scanHexDigits : ℕ → List UInt8 → ℕ × List UInt8
  | acc, [] => (acc, [])
  | acc, b :: bs =>
      match hexValue b with
      | some d => scanHexDigits (acc * 16 + d) bs
      | none => (acc, b :: bs)

/-- The digits of a number after an optional `0x`, whose zero counts as a digit. -/
def scanHexNumber : List UInt8 → Option (ℕ × List UInt8)
  | [] => none
  | b :: bs =>
      if b == 48 && (bs.head? == some 120 || bs.head? == some 88) then
        some (scanHexDigits 0 bs.tail)
      else if (hexValue b).isSome then some (scanHexDigits 0 (b :: bs))
      else none

/-- The `%x` conversion of `sscanf` into a variable of `w` bits: the value is that of `strtoul`, cut
down to the variable.  `none` when nothing converts. -/
def scanHex (w : ℕ) (bs : List UInt8) : Option (BitVec w × List UInt8) := do
  let (negative, text) := scanSign (bs.dropWhile isSpace)
  let (magnitude, rest) ← scanHexNumber text
  let value :=
    if 2 ^ 64 ≤ magnitude then 2 ^ 64 - 1
    else if negative then (2 ^ 64 - magnitude) % 2 ^ 64
    else magnitude
  some (BitVec.ofNat w value, rest)

/-- The characters of a format between its conversions: white space stands for any amount of it. -/
def scanText : List UInt8 → List UInt8 → Option (List UInt8)
  | [], bs => some bs
  | c :: format, bs =>
      if isSpace c then scanText format (bs.dropWhile isSpace)
      else
        match bs with
        | [] => none
        | b :: bs => if b = c then scanText format bs else none

/-- The `%s` conversion of `sscanf`. -/
def scanWord (bs : List UInt8) : Option (List UInt8 × List UInt8) :=
  let text := bs.dropWhile isSpace
  let word := text.takeWhile fun b => !isSpace b
  if word = [] then none else some (word, text.drop word.length)

/-! ## Digits -/

theorem hexValue_hexChar {d : ℕ} (small : d < 16) : hexValue (hexChar d) = some d := by
  interval_cases d <;> decide

/-- A digit is no white space, no sign, no `x` and no terminator. -/
theorem hexChar_plain {d : ℕ} (small : d < 16) :
    isSpace (hexChar d) = false ∧ hexChar d ≠ 45 ∧ hexChar d ≠ 43 ∧ hexChar d ≠ 120 ∧
      hexChar d ≠ 88 ∧ hexChar d ≠ 0 := by
  interval_cases d <;> decide

theorem hexDigits_ne_nil (n : ℕ) : hexDigits n ≠ [] := by
  unfold hexDigits
  split_ifs with zero
  · exact List.cons_ne_nil _ _
  · simpa [Nat.digits_ne_nil_iff_ne_zero] using zero

theorem lt_of_mem_hexDigits {n d : ℕ} (mem : d ∈ hexDigits n) : d < 16 := by
  unfold hexDigits at mem
  split_ifs at mem with zero
  · rw [List.mem_singleton.1 mem]
    decide
  · exact Nat.digits_lt_base (by norm_num) (List.mem_reverse.1 mem)

theorem foldl_hexDigits (n : ℕ) : (hexDigits n).foldl (fun a d => a * 16 + d) 0 = n := by
  unfold hexDigits
  split_ifs with zero
  · rw [zero]
    rfl
  · rw [List.foldl_reverse]
    conv_rhs => rw [← Nat.ofDigits_digits 16 n, Nat.ofDigits_eq_foldr]
    congr 1
    funext d a
    simp only [Nat.cast_id]
    ring

theorem foldl_replicate_zero (k : ℕ) : (List.replicate k 0).foldl (fun a d => a * 16 + d) 0 = 0 := by
  induction k with
  | zero => rfl
  | succ k ih => rw [List.replicate_succ, List.foldl_cons, Nat.zero_mul, Nat.zero_add, ih]

/-- The digits that are printed. -/
theorem hex_eq_map (width n : ℕ) :
    ∃ ds : List ℕ, hex width n = ds.map hexChar ∧ ds ≠ [] ∧ (∀ d ∈ ds, d < 16) ∧
      ds.foldl (fun a d => a * 16 + d) 0 = n := by
  refine ⟨_, rfl, ?_, ?_, ?_⟩
  · exact List.append_ne_nil_of_right_ne_nil _ (hexDigits_ne_nil n)
  · intro d mem
    rcases List.mem_append.1 mem with zero | mem
    · rw [List.eq_of_mem_replicate zero]
      decide
    · exact lt_of_mem_hexDigits mem
  · rw [List.foldl_append, foldl_replicate_zero, foldl_hexDigits]

theorem length_hexDigits_le {n k : ℕ} (positive : 0 < k) (small : n < 16 ^ k) :
    (hexDigits n).length ≤ k := by
  unfold hexDigits
  split_ifs
  · exact positive
  · rw [List.length_reverse]
    exact (Nat.digits_length_le_iff (by norm_num) n).2 small

theorem length_hex_le {width n k : ℕ} (positive : 0 < k) (small : n < 16 ^ k) (le : width ≤ k) :
    (hex width n).length ≤ k := by
  have digits := length_hexDigits_le positive small
  simp only [hex, List.length_map, List.length_append, List.length_replicate]
  omega

theorem length_hex_eq {n k : ℕ} (positive : 0 < k) (small : n < 16 ^ k) : (hex k n).length = k := by
  have digits := length_hexDigits_le positive small
  simp only [hex, List.length_map, List.length_append, List.length_replicate]
  omega

theorem plain_of_mem_hex {width n : ℕ} {b : UInt8} (mem : b ∈ hex width n) :
    isSpace b = false ∧ b ≠ 0 := by
  obtain ⟨ds, text, -, small, -⟩ := hex_eq_map width n
  rw [text] at mem
  obtain ⟨d, digit, rfl⟩ := List.mem_map.1 mem
  obtain ⟨space, -, -, -, -, zero⟩ := hexChar_plain (small d digit)
  exact ⟨space, zero⟩

/-! ## Reading back -/

theorem scanHexDigits_map (ds : List ℕ) (small : ∀ d ∈ ds, d < 16) (acc : ℕ) (rest : List UInt8) :
    scanHexDigits acc (ds.map hexChar ++ rest) =
      scanHexDigits (ds.foldl (fun a d => a * 16 + d) acc) rest := by
  induction ds generalizing acc with
  | nil => rfl
  | cons d ds ih =>
    obtain ⟨first, small⟩ := List.forall_mem_cons.1 small
    rw [List.map_cons, List.cons_append, scanHexDigits, hexValue_hexChar first, List.foldl_cons]
    exact ih small _

/-- Reading back a printed number stops exactly at the first byte after it. -/
theorem scanHex_hex {w width n : ℕ} (small : n < 2 ^ 64) {rest : List UInt8}
    (stop : ∀ b ∈ rest.head?, hexValue b = none ∧ b ≠ 120 ∧ b ≠ 88) :
    scanHex w (hex width n ++ rest) = some (BitVec.ofNat w n, rest) := by
  obtain ⟨ds, text, nonempty, digits, value⟩ := hex_eq_map width n
  have scan : scanHexDigits 0 (ds.map hexChar ++ rest) = (n, rest) := by
    rw [scanHexDigits_map ds digits, value]
    cases rest with
    | nil => rfl
    | cons b rest => rw [scanHexDigits, (stop b rfl).1]
  obtain ⟨d, ds, rfl⟩ := List.exists_cons_of_ne_nil nonempty
  obtain ⟨first, others⟩ := List.forall_mem_cons.1 digits
  obtain ⟨space, minus, plus, -⟩ := hexChar_plain first
  have noX : ∀ b ∈ (ds.map hexChar ++ rest).head?, b ≠ 120 ∧ b ≠ 88 := by
    cases ds with
    | nil => exact fun b mem => (stop b mem).2
    | cons e ds =>
      intro b mem
      obtain rfl : hexChar e = b := Option.some.inj mem
      obtain ⟨-, -, -, lower, upper, -⟩ := hexChar_plain (others e (List.mem_cons_self ..))
      exact ⟨lower, upper⟩
  have number : scanHexNumber (hexChar d :: (ds.map hexChar ++ rest)) = some (n, rest) := by
    have noPrefix : ¬(hexChar d == 48 && ((ds.map hexChar ++ rest).head? == some 120 ||
        (ds.map hexChar ++ rest).head? == some 88)) = true := by
      simp only [Bool.and_eq_true, Bool.or_eq_true, beq_iff_eq, not_and, not_or]
      exact fun _ => ⟨fun head => (noX _ head).1 rfl, fun head => (noX _ head).2 rfl⟩
    rw [scanHexNumber, if_neg noPrefix, hexValue_hexChar first, Option.isSome_some, if_pos rfl,
      ← List.cons_append, ← List.map_cons, scan]
  rw [text, List.map_cons, List.cons_append, scanHex, List.dropWhile_cons, if_neg (by simp [space]),
    scanSign, if_neg (by simpa using minus), if_neg (by simpa using plus)]
  dsimp only
  rw [number]
  simp only [Option.bind_eq_bind, Option.bind_some, Bool.false_eq_true, if_false]
  rw [if_neg (by omega)]

theorem dropWhile_of_head {bs : List UInt8} (plain : ∀ b ∈ bs.head?, isSpace b = false) :
    bs.dropWhile isSpace = bs := by
  cases bs with
  | nil => rfl
  | cons b bs => rw [List.dropWhile_cons, if_neg (by simp [plain b rfl])]

/-- A text reads back as itself when no white space follows white space. -/
theorem scanText_self {text rest : List UInt8}
    (single : text.IsChain fun a b => isSpace a = false ∨ isSpace b = false)
    (stop : ∀ a ∈ text.getLast?, ∀ b ∈ rest.head?, isSpace a = false ∨ isSpace b = false) :
    scanText text (text ++ rest) = some rest := by
  induction text with
  | nil => rfl
  | cons c text ih =>
    have next : ∀ b ∈ (text ++ rest).head?, isSpace c = false ∨ isSpace b = false := by
      cases text with
      | nil => exact stop c rfl
      | cons b text =>
        intro _ mem
        obtain rfl := Option.some.inj mem
        exact (List.isChain_cons_cons.1 single).1
    have ih : scanText text (text ++ rest) = some rest := by
      refine ih single.tail fun a last => stop a ?_
      cases text with
      | nil => cases last
      | cons b text => rwa [List.getLast?_cons_cons]
    rw [List.cons_append, scanText]
    cases space : isSpace c with
    | false => rw [if_neg Bool.false_ne_true, if_pos rfl, ih]
    | true =>
      have plain := dropWhile_of_head fun b head => (next b head).resolve_left (by simp [space])
      rw [if_pos rfl, List.dropWhile_cons, if_pos space, plain, ih]

/-- A word up to the end of the string. -/
theorem scanWord_self {word : List UInt8} (nonempty : word ≠ [])
    (plain : ∀ b ∈ word, isSpace b = false) : scanWord word = some (word, []) := by
  have skip := dropWhile_of_head fun b head => plain b (List.mem_of_mem_head? head)
  have whole : (word.takeWhile fun b => !isSpace b) = word :=
    List.takeWhile_eq_self_iff.2 fun b mem => by rw [plain b mem]; rfl
  rw [scanWord, skip, whole, if_neg nonempty, List.drop_length]

end CText

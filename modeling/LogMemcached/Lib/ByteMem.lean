import Mathlib

/-!
# Byte memories

A memory is a total map from addresses to bytes.  This file gives the two bulk stores of a C
program (`write` for `memcpy`, `fill` for `memset`), the reads (`slice`, and the little-endian
words `u32` and `u64`), and the frame rules: a read depends only on the addresses it covers
(`Agree`), and a store changes only the addresses it covers.
-/

namespace ByteMem

/-- A byte-addressed memory. -/
abbrev Mem := ℕ → UInt8

/-- The bytes at `a, …, a + n - 1`. -/
def slice (m : Mem) : ℕ → ℕ → List UInt8
  | _, 0 => []
  | a, n + 1 => m a :: slice m (a + 1) n

/-- Store the bytes `bs` from address `a` on. -/
def write (m : Mem) (a : ℕ) (bs : List UInt8) : Mem := fun x =>
  if a ≤ x ∧ x < a + bs.length then bs.getD (x - a) 0 else m x

/-- Set the `n` bytes from address `a` on to `v`. -/
def fill (m : Mem) (a n : ℕ) (v : UInt8) : Mem := fun x => if a ≤ x ∧ x < a + n then v else m x

/-- Two memories hold the same bytes at every address of `[lo, hi)`. -/
def Agree (m m' : Mem) (lo hi : ℕ) : Prop := ∀ x, lo ≤ x → x < hi → m x = m' x

/-! ## Pointwise rules -/

theorem write_outside {m : Mem} {a x : ℕ} {bs : List UInt8} (h : x < a ∨ a + bs.length ≤ x) :
    write m a bs x = m x := by
  unfold write
  rw [if_neg]
  omega

theorem write_inside {m : Mem} {a i : ℕ} {l : List UInt8} (h : i < l.length) :
    write m a l (a + i) = l.get ⟨i, h⟩ := by
  unfold write
  rw [if_pos ⟨by omega, by omega⟩, Nat.add_sub_cancel_left]
  simp [List.getD_eq_getElem?_getD, List.getElem?_eq_getElem h]

/-- A one-byte store, read back at any address. -/
theorem write_byte (m : Mem) (a x : ℕ) (v : UInt8) :
    write m a [v] x = if x = a then v else m x := by
  split_ifs with h
  · subst h
    exact write_inside (i := 0) (by simp)
  · exact write_outside (by simp only [List.length_singleton]; omega)

/-- Stores to disjoint ranges commute. -/
theorem write_comm (m : Mem) {a b : ℕ} {as bs : List UInt8}
    (apart : a + as.length ≤ b ∨ b + bs.length ≤ a) :
    write (write m a as) b bs = write (write m b bs) a as := by
  funext x
  simp only [write]
  split_ifs <;> first | rfl | omega

theorem write_append (m : Mem) (a : ℕ) (xs ys : List UInt8) :
    write m a (xs ++ ys) = write (write m a xs) (a + xs.length) ys := by
  funext x
  by_cases before : x < a
  · rw [write_outside (.inl before), write_outside (.inl (by omega)), write_outside (.inl before)]
  · obtain ⟨i, rfl⟩ := Nat.exists_eq_add_of_le (not_lt.1 before)
    by_cases first : i < xs.length
    · rw [write_inside (by rw [List.length_append]; omega), write_outside (.inl (by omega)),
        write_inside first]
      simp [first]
    · by_cases second : i < xs.length + ys.length
      · obtain ⟨j, rfl⟩ := Nat.exists_eq_add_of_le (not_lt.1 first)
        rw [write_inside (by rw [List.length_append]; omega), ← Nat.add_assoc,
          write_inside (by omega : j < ys.length)]
        simp
      · rw [write_outside (.inr (by rw [List.length_append]; omega)), write_outside (.inr (by omega)),
          write_outside (.inr (by omega))]

theorem fill_inside {m : Mem} {a n x : ℕ} {v : UInt8} (h : a ≤ x ∧ x < a + n) :
    fill m a n v x = v := if_pos h

theorem fill_outside {m : Mem} {a n x : ℕ} {v : UInt8} (h : x < a ∨ a + n ≤ x) :
    fill m a n v x = m x := if_neg (by omega)

/-! ## Agreement on a range -/

theorem Agree.refl (m : Mem) (lo hi : ℕ) : Agree m m lo hi := fun _ _ _ => rfl

theorem Agree.trans {m₁ m₂ m₃ : Mem} {lo hi : ℕ} (h : Agree m₁ m₂ lo hi)
    (h' : Agree m₂ m₃ lo hi) : Agree m₁ m₃ lo hi :=
  fun x hl hh => (h x hl hh).trans (h' x hl hh)

theorem Agree.mono {m m' : Mem} {lo hi lo' hi' : ℕ} (h : Agree m m' lo hi) (hl : lo ≤ lo')
    (hh : hi' ≤ hi) : Agree m m' lo' hi' :=
  fun x hx hx' => h x (by omega) (by omega)

theorem agree_write {m : Mem} {a lo hi : ℕ} {bs : List UInt8}
    (h : hi ≤ a ∨ a + bs.length ≤ lo) : Agree (write m a bs) m lo hi :=
  fun x hl hh => write_outside (by omega)

theorem agree_fill {m : Mem} {a n lo hi : ℕ} {v : UInt8} (h : hi ≤ a ∨ a + n ≤ lo) :
    Agree (fill m a n v) m lo hi :=
  fun x hl hh => fill_outside (by omega)

/-! ## Slices -/

@[simp] theorem length_slice (m : Mem) (a n : ℕ) : (slice m a n).length = n := by
  induction n generalizing a with
  | zero => rfl
  | succ n ih => simp [slice, ih]

theorem slice_congr {m m' : Mem} {a n : ℕ} (h : Agree m m' a (a + n)) :
    slice m a n = slice m' a n := by
  induction n generalizing a with
  | zero => rfl
  | succ n ih =>
    simp only [slice]
    rw [h a (by omega) (by omega), ih (h.mono (by omega) (by omega))]

theorem getElem_slice {m : Mem} {a n i : ℕ} (h : i < (slice m a n).length) :
    (slice m a n)[i] = m (a + i) := by
  induction n generalizing a i with
  | zero => simp at h
  | succ n ih =>
    cases i with
    | zero => rfl
    | succ i =>
      simp only [slice, List.getElem_cons_succ]
      rw [ih, Nat.add_right_comm, Nat.add_assoc]

/-- Writing a list and reading as many bytes back returns the list. -/
theorem slice_write_self (m : Mem) (a : ℕ) (bs : List UInt8) :
    slice (write m a bs) a bs.length = bs := by
  apply List.ext_getElem (by simp)
  intro i hi hb
  rw [getElem_slice, write_inside hb, List.get_eq_getElem]

theorem slice_add (m : Mem) (a n k : ℕ) :
    slice m a (n + k) = slice m a n ++ slice m (a + n) k := by
  induction n generalizing a with
  | zero => simp [slice]
  | succ n ih =>
    rw [Nat.add_right_comm]
    simp only [slice, List.cons_append]
    rw [ih, Nat.add_right_comm, Nat.add_assoc]

/-- A slice within a slice. -/
theorem slice_sub (m : Mem) {a i k n : ℕ} (h : i + k ≤ n) :
    slice m (a + i) k = ((slice m a n).drop i).take k := by
  obtain ⟨j, rfl⟩ := Nat.exists_eq_add_of_le h
  rw [slice_add, slice_add, List.append_assoc, List.drop_left' (length_slice ..),
    List.take_left' (length_slice ..)]

/-- A store into the middle of a slice. -/
theorem slice_write_mid (m : Mem) {a i n : ℕ} {bs : List UInt8} (h : i + bs.length ≤ n) :
    slice (write m (a + i) bs) a n =
      (slice m a n).take i ++ bs ++ (slice m a n).drop (i + bs.length) := by
  obtain ⟨j, rfl⟩ := Nat.exists_eq_add_of_le h
  have before : slice (write m (a + i) bs) a i = slice m a i :=
    slice_congr (agree_write (by omega))
  have after : slice (write m (a + i) bs) (a + (i + bs.length)) j = slice m (a + (i + bs.length)) j :=
    slice_congr (agree_write (by omega))
  rw [slice_add, slice_add, before, slice_write_self, after, slice_add m a (i + bs.length),
    List.drop_left' (length_slice ..), slice_add m a i,
    List.append_assoc (slice m a i) (slice m (a + i) bs.length), List.take_left' (length_slice ..)]

/-! ## Little-endian words -/

/-- The 32-bit word stored at `a`. -/
def u32 (m : Mem) (a : ℕ) : ℕ :=
  (m a).toNat + 256 * ((m (a + 1)).toNat + 256 * ((m (a + 2)).toNat + 256 * (m (a + 3)).toNat))

/-- The four bytes of the low 32 bits of `v`. -/
def le32 (v : ℕ) : List UInt8 :=
  [UInt8.ofNat v, UInt8.ofNat (v / 256), UInt8.ofNat (v / 65536), UInt8.ofNat (v / 16777216)]

/-- The 64-bit word stored at `a`. -/
def u64 (m : Mem) (a : ℕ) : ℕ := u32 m a + 4294967296 * u32 m (a + 4)

/-- The eight bytes of the low 64 bits of `v`. -/
def le64 (v : ℕ) : List UInt8 := le32 v ++ le32 (v / 4294967296)

@[simp] theorem length_le32 (v : ℕ) : (le32 v).length = 4 := rfl

@[simp] theorem length_le64 (v : ℕ) : (le64 v).length = 8 := rfl

theorem u32_congr {m m' : Mem} {a : ℕ} (h : Agree m m' a (a + 4)) : u32 m a = u32 m' a := by
  unfold u32
  rw [h a (by omega) (by omega), h (a + 1) (by omega) (by omega), h (a + 2) (by omega) (by omega),
    h (a + 3) (by omega) (by omega)]

theorem u64_congr {m m' : Mem} {a : ℕ} (h : Agree m m' a (a + 8)) : u64 m a = u64 m' a := by
  unfold u64
  rw [u32_congr (h.mono (by omega) (by omega)), u32_congr (h.mono (by omega) (by omega))]

theorem u32_lt (m : Mem) (a : ℕ) : u32 m a < 2 ^ 32 := by
  unfold u32
  have h0 := (m a).toNat_lt
  have h1 := (m (a + 1)).toNat_lt
  have h2 := (m (a + 2)).toNat_lt
  have h3 := (m (a + 3)).toNat_lt
  omega

theorem u32_write (m : Mem) (a v : ℕ) : u32 (write m a (le32 v)) a = v % 2 ^ 32 := by
  have h0 := write_inside (m := m) (a := a) (l := le32 v) (i := 0) (by simp)
  have h1 := write_inside (m := m) (a := a) (l := le32 v) (i := 1) (by simp)
  have h2 := write_inside (m := m) (a := a) (l := le32 v) (i := 2) (by simp)
  have h3 := write_inside (m := m) (a := a) (l := le32 v) (i := 3) (by simp)
  rw [Nat.add_zero] at h0
  unfold u32
  rw [h0, h1, h2, h3]
  simp only [le32, List.get_eq_getElem, List.getElem_cons_zero, List.getElem_cons_succ,
    UInt8.toNat_ofNat']
  omega

/-- The bytes of a stored word are those it was read from. -/
theorem le32_u32 (m : Mem) (a : ℕ) : le32 (u32 m a) = slice m a 4 := by
  have h0 := (m a).toNat_lt
  have h1 := (m (a + 1)).toNat_lt
  have h2 := (m (a + 2)).toNat_lt
  have h3 := (m (a + 3)).toNat_lt
  simp only [le32, slice, List.cons.injEq, and_true, ← UInt8.toNat_inj, UInt8.toNat_ofNat', u32,
    Nat.add_assoc, Nat.reduceAdd]
  refine ⟨?_, ?_, ?_, ?_⟩ <;> omega

/-- A list as a memory. -/
theorem slice_getD {l : List UInt8} {a n : ℕ} (inside : a + n ≤ l.length) :
    slice (fun x => l.getD x 0) a n = (l.drop a).take n := by
  induction n generalizing a with
  | zero => rfl
  | succ n ih =>
    have here : a < l.length := by omega
    rw [slice, ih (by omega), List.drop_eq_getElem_cons here, List.take_succ_cons,
      List.getD_eq_getElem _ _ here]

theorem u64_write (m : Mem) (a v : ℕ) : u64 (write m a (le64 v)) a = v % 2 ^ 64 := by
  have low : u32 (write m a (le64 v)) a = v % 2 ^ 32 := by
    rw [le64, write_append, ← u32_write m a v]
    exact u32_congr (agree_write (.inl (by simp)))
  have high : u32 (write m a (le64 v)) (a + 4) = v / 4294967296 % 2 ^ 32 := by
    rw [le64, write_append]
    exact u32_write ..
  rw [u64, low, high]
  omega
theorem u32_of_zero {m : Mem} {a : ℕ} (h : ∀ x, a ≤ x → x < a + 4 → m x = 0) : u32 m a = 0 := by
  unfold u32
  rw [h a (by omega) (by omega), h (a + 1) (by omega) (by omega), h (a + 2) (by omega) (by omega),
    h (a + 3) (by omega) (by omega)]
  rfl

end ByteMem

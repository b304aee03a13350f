import Mathlib

/-!
# Blocks that tile an interval

`Tiles lo bs hi` says that the blocks `bs`, in order, cover `[lo, hi)` without gap or overlap.  A
bump allocator extends a tiling at its end, and a cleaner that steps from block to block removes
from its front.
-/

namespace Tiling

/-- A half-open range of addresses. -/
structure Block where
  off : ℕ
  size : ℕ
deriving DecidableEq, Repr

/-- The first address after a block. -/
def Block.stop (b : Block) : ℕ := b.off + b.size

/-- Two blocks share no address. -/
def Block.Disjoint (a b : Block) : Prop := a.stop ≤ b.off ∨ b.stop ≤ a.off

instance (a b : Block) : Decidable (a.Disjoint b) := inferInstanceAs (Decidable (_ ∨ _))

instance : Std.Symm Block.Disjoint := ⟨fun _ _ => Or.symm⟩

/-- The blocks cover `[lo, hi)` one after another. -/
def Tiles : ℕ → List Block → ℕ → Prop
  | lo, [], hi => lo = hi
  | lo, b :: bs, hi => b.off = lo ∧ 0 < b.size ∧ Tiles b.stop bs hi

variable {lo mid hi : ℕ} {b c : Block} {bs cs : List Block}

theorem Tiles.le (h : Tiles lo bs hi) : lo ≤ hi := by
  induction bs generalizing lo with
  | nil => exact le_of_eq h
  | cons b bs ih =>
    obtain ⟨hb, -, hr⟩ := h
    have := ih hr
    simp only [Block.stop] at this
    omega

theorem Tiles.append (h : Tiles lo bs mid) (h' : Tiles mid cs hi) : Tiles lo (bs ++ cs) hi := by
  induction bs generalizing lo with
  | nil =>
    obtain rfl : lo = mid := h
    exact h'
  | cons b bs ih => exact ⟨h.1, h.2.1, ih h.2.2⟩

/-- Extend a tiling by one block at its end. -/
theorem Tiles.snoc (h : Tiles lo bs hi) {n : ℕ} (positive : 0 < n) :
    Tiles lo (bs ++ [⟨hi, n⟩]) (hi + n) :=
  h.append ⟨rfl, positive, rfl⟩

/-- Every block of a tiling is nonempty and lies in the interval. -/
theorem Tiles.mem (h : Tiles lo bs hi) (hb : b ∈ bs) : lo ≤ b.off ∧ b.stop ≤ hi ∧ 0 < b.size := by
  induction bs generalizing lo with
  | nil => simp at hb
  | cons c bs ih =>
    obtain ⟨hc, pos, hr⟩ := h
    rcases List.mem_cons.1 hb with rfl | hb
    · exact ⟨hc.ge, hr.le, pos⟩
    · obtain ⟨h1, h2⟩ := ih hr hb
      simp only [Block.stop] at h1
      exact ⟨by omega, h2⟩

/-- The sizes of the blocks add up to the length of the interval. -/
theorem Tiles.sum (h : Tiles lo bs hi) : lo + (bs.map Block.size).sum = hi := by
  induction bs generalizing lo with
  | nil => exact h
  | cons b bs ih =>
    obtain ⟨hb, -, hr⟩ := h
    have := ih hr
    rw [Block.stop, hb] at this
    rw [List.map_cons, List.sum_cons]
    omega

/-- Earlier blocks end where later ones begin, or before. -/
theorem Tiles.pairwise (h : Tiles lo bs hi) : bs.Pairwise fun a b => a.stop ≤ b.off := by
  induction bs generalizing lo with
  | nil => exact .nil
  | cons b bs ih =>
    obtain ⟨-, -, hr⟩ := h
    exact .cons (fun c hc => (hr.mem hc).1) (ih hr)

theorem Tiles.split (h : Tiles lo (bs ++ cs) hi) :
    ∃ mid, Tiles lo bs mid ∧ Tiles mid cs hi := by
  induction bs generalizing lo with
  | nil => exact ⟨lo, rfl, h⟩
  | cons b bs ih =>
    obtain ⟨hb, pos, hr⟩ := h
    obtain ⟨mid, left, right⟩ := ih hr
    exact ⟨mid, ⟨hb, pos, left⟩, right⟩

/-- Two blocks of a tiling are the same or share no address. -/
theorem Tiles.eq_or_disjoint (h : Tiles lo bs hi) (hb : b ∈ bs) (hc : c ∈ bs) :
    b = c ∨ b.Disjoint c := by
  have pairwise : bs.Pairwise Block.Disjoint := h.pairwise.imp Or.inl
  by_cases same : b = c
  · exact .inl same
  · exact .inr (pairwise.forall hb hc same)

/-- Every address of the interval is in a block. -/
theorem Tiles.cover (h : Tiles lo bs hi) {x : ℕ} (low : lo ≤ x) (high : x < hi) :
    ∃ b ∈ bs, b.off ≤ x ∧ x < b.stop := by
  induction bs generalizing lo with
  | nil =>
    obtain rfl : lo = hi := h
    omega
  | cons b bs ih =>
    obtain ⟨start, -, rest⟩ := h
    by_cases here : x < b.stop
    · exact ⟨b, by simp, by omega, here⟩
    · obtain ⟨c, hc, inside⟩ := ih rest (by omega)
      exact ⟨c, List.mem_cons_of_mem _ hc, inside⟩

/-- Blocks of at least `k` bytes that share no address fit below `hi` at most `hi / k` times. -/
theorem card_mul_le {ι : Type} {t : Finset ι} {f : ι → Block} {k : ℕ}
    (large : ∀ i ∈ t, k ≤ (f i).size) (inside : ∀ i ∈ t, (f i).stop ≤ hi)
    (apart : ∀ i ∈ t, ∀ j ∈ t, i ≠ j → (f i).Disjoint (f j)) : t.card * k ≤ hi := by
  classical
  have disjoint : (t : Set ι).PairwiseDisjoint fun i => Finset.Ico (f i).off ((f i).off + k) := by
    intro i hi j hj different
    have first := large i hi
    have second := large j hj
    have apart := apart i hi j hj different
    simp only [Block.Disjoint, Block.stop] at apart
    refine Finset.disjoint_left.2 fun x inside inside' => ?_
    rw [Finset.mem_Ico] at inside inside'
    omega
  have covered : t.biUnion (fun i => Finset.Ico (f i).off ((f i).off + k)) ⊆ Finset.range hi := by
    intro x mem
    obtain ⟨i, hi, mem⟩ := Finset.mem_biUnion.1 mem
    have size := large i hi
    have stop := inside i hi
    rw [Block.stop] at stop
    rw [Finset.mem_Ico] at mem
    rw [Finset.mem_range]
    omega
  have count := Finset.card_le_card covered
  rw [Finset.card_biUnion disjoint, Finset.card_range] at count
  simpa using count

/-! ## Taking blocks from the front -/

/-- The bytes of a list of blocks. -/
def total (bs : List Block) : ℕ := (bs.map Block.size).sum

@[simp]
theorem total_nil : total [] = 0 := rfl

@[simp]
theorem total_cons (b : Block) (bs : List Block) : total (b :: bs) = b.size + total bs := by
  simp [total]

@[simp]
theorem total_append (bs cs : List Block) : total (bs ++ cs) = total bs + total cs := by
  simp [total]

/-- The shortest prefix that has at least `need` bytes, or all of the list if it has fewer. -/
def chunk (need : ℕ) : List Block → List Block
  | [] => []
  | b :: bs => if need = 0 then [] else b :: chunk (need - b.size) bs

theorem chunk_zero (bs : List Block) : chunk 0 bs = [] := by
  cases bs <;> simp [chunk]

theorem chunk_cons {need : ℕ} (more : 0 < need) (b : Block) (bs : List Block) :
    chunk need (b :: bs) = b :: chunk (need - b.size) bs :=
  if_neg more.ne'

/-- A chunk is a prefix, with the bytes asked for unless nothing is left. -/
theorem chunk_spec (need : ℕ) (bs : List Block) :
    ∃ rest, bs = chunk need bs ++ rest ∧ (need ≤ total (chunk need bs) ∨ rest = []) := by
  induction bs generalizing need with
  | nil => exact ⟨[], rfl, .inr rfl⟩
  | cons b bs ih =>
    rcases Nat.eq_zero_or_pos need with rfl | more
    · exact ⟨b :: bs, by rw [chunk_zero]; rfl, .inl (Nat.zero_le _)⟩
    · obtain ⟨rest, eq, enough⟩ := ih (need - b.size)
      refine ⟨rest, by rw [chunk_cons more, List.cons_append, ← eq], ?_⟩
      rw [chunk_cons more, total_cons]
      rcases enough with enough | none
      · exact .inl (by omega)
      · exact .inr none

/-- Only the last block of a chunk goes beyond the bytes asked for. -/
theorem total_chunk_lt {need size : ℕ} (more : 0 < need) (small : ∀ b ∈ bs, b.size ≤ size) :
    total (chunk need bs) < need + size := by
  induction bs generalizing need with
  | nil => simp only [chunk, total_nil]; omega
  | cons b bs ih =>
    rw [chunk_cons more, total_cons]
    have head := small b (by simp)
    rcases Nat.eq_zero_or_pos (need - b.size) with done | rest
    · rw [done, chunk_zero, total_nil]
      omega
    · have := ih rest fun c hc => small c (List.mem_cons_of_mem _ hc)
      omega

end Tiling

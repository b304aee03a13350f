import LogMemcached.Memlog

/-!
# The invariant of the log

A log is flat while its records lie in one run from `mem_current_freeing` to `mem_current`, and
wrapped while they continue from a cycle record near the end to the beginning.  `LogInv l lay p`
says that the cursors, the counters and the record headers of `l` fit the layout `lay` when `p`
bytes have been swept but not yet settled by `do_memlog_clean`.
-/

namespace LogMemcached

open ByteMem Tiling

/-! ## Records and cycle records in memory -/

/-- A record of the size of its block, other than a cycle record. -/
structure Sized (m : Mem) (b : Block) : Prop where
  header : 16 ≤ b.size
  total : itemNtotal m b.off = b.size
  plain : has (flagsOf m b.off) itemCycle = false

/-- A cycle record at `tail` that reaches the end of the log. -/
structure CycleAt (m : Mem) (tail limit : ℕ) : Prop where
  flags : flagsOf m tail = itemCycle ||| itemStored
  nbytes : nbytesOf m tail = limit - tail

theorem Sized.congr {m m' : Mem} {b : Block} (h : Sized m b) (same : Agree m' m b.off b.stop) :
    Sized m' b := by
  have header := h.header
  have same : Agree m' m b.off (b.off + 16) :=
    same.mono le_rfl (by simp only [Block.stop]; omega)
  exact ⟨h.header, (itemNtotal_congr same).trans h.total, by rw [flagsOf_congr same, h.plain]⟩

theorem CycleAt.congr {m m' : Mem} {tail limit : ℕ} (h : CycleAt m tail limit)
    (same : Agree m' m tail (tail + 16)) : CycleAt m' tail limit := by
  exact ⟨by rw [flagsOf_congr same, h.flags], by rw [nbytesOf_congr same, h.nbytes]⟩

theorem Sized.freeSize_eq {m : Mem} {b : Block} (h : Sized m b) (small : b.size < 2 ^ 32) :
    freeSize m b.off = b.size := by
  simp only [freeSize, h.total, h.plain, Nat.mod_eq_of_lt small, Bool.false_eq_true, if_false,
    ite_self]

theorem CycleAt.freeSize_eq {m : Mem} {tail limit : ℕ} (h : CycleAt m tail limit) :
    freeSize m tail = limit - tail := by
  rw [freeSize, h.flags, if_neg (by decide), if_pos (by decide), h.nbytes]

/-! ## Layouts -/

/-- How the records lie in the ring, oldest first.  `ended` is the state of a sweep that has just
passed the cycle record and not yet returned to the beginning. -/
inductive Layout
  | flat (live : List Block)
  | wrapped (tail : ℕ) (old new : List Block)
  | ended (new : List Block)

def Layout.live : Layout → List Block
  | .flat live => live
  | .wrapped _ old new => old ++ new
  | .ended new => new

/-- The records lie in one run that ends at `mem_current`. -/
structure FlatInv (l : Memlog) (live : List Block) (p : ℕ) : Prop where
  tiles : Tiles l.memCurrentFreeing live l.memCurrent
  room : l.memCurrent + 35 ≤ l.memLimit
  avail : l.memAvail + l.memCurrent = l.memLimit
  beginning : l.memFreeFromBeginning + p = l.memCurrentFreeing
  ahead : 0 < p → l.memCurrentFreeing < l.memCurrent
  sized : ∀ b ∈ live, Sized l.mem b
  zeroBelow : ∀ x < l.memCurrentFreeing, l.mem x = 0
  zeroAbove : ∀ x, l.memCurrent ≤ x → x < l.memLimit → l.mem x = 0

/-- Old records run up to a cycle record at `tail`, new ones from the beginning. -/
structure WrappedInv (l : Memlog) (tail : ℕ) (old new : List Block) (p : ℕ) : Prop where
  oldTiles : Tiles l.memCurrentFreeing old tail
  newTiles : Tiles 0 new l.memCurrent
  room : tail + 35 ≤ l.memLimit
  avail : l.memAvail + p + l.memCurrent = l.memCurrentFreeing
  beginning : l.memFreeFromBeginning = 0
  sized : ∀ b ∈ old ++ new, Sized l.mem b
  cycle : CycleAt l.mem tail l.memLimit
  zero : ∀ x, l.memCurrent ≤ x → x < l.memCurrentFreeing → l.mem x = 0

structure EndedInv (l : Memlog) (new : List Block) (p : ℕ) : Prop where
  tiles : Tiles 0 new l.memCurrent
  room : l.memCurrent + 35 ≤ l.memLimit
  stands : l.memCurrentFreeing = l.memLimit
  avail : l.memAvail + p + l.memCurrent = l.memLimit
  swept : 0 < p
  beginning : l.memFreeFromBeginning = 0
  sized : ∀ b ∈ new, Sized l.mem b
  zero : ∀ x, l.memCurrent ≤ x → x < l.memLimit → l.mem x = 0

/-- The log fits a layout, with `p` bytes swept and not yet settled. -/
def LogInv (l : Memlog) : Layout → ℕ → Prop
  | .flat live, p => FlatInv l live p
  | .wrapped tail old new, p => WrappedInv l tail old new p
  | .ended new, p => EndedInv l new p

theorem memlogInit_inv {limit : ℕ} (large : 35 ≤ limit) :
    LogInv (memlogInit limit) (.flat []) 0 where
  tiles := rfl
  room := by simpa [memlogInit] using large
  avail := rfl
  beginning := rfl
  ahead := by simp
  sized := by simp
  zeroBelow := by simp [memlogInit]
  zeroAbove := by simp [memlogInit]

section Facts

variable {l : Memlog} {lay : Layout} {p : ℕ}

theorem LogInv.sized (h : LogInv l lay p) {b : Block} (hb : b ∈ lay.live) : Sized l.mem b := by
  cases lay with
  | flat live => exact FlatInv.sized h b hb
  | wrapped tail old new => exact WrappedInv.sized h b hb
  | ended new => exact EndedInv.sized h b hb

theorem LogInv.stop_le (h : LogInv l lay p) {b : Block} (hb : b ∈ lay.live) :
    b.stop + 35 ≤ l.memLimit := by
  cases lay with
  | flat live =>
    have h : FlatInv l live p := h
    have := (h.tiles.mem hb).2.1
    have := h.room
    omega
  | wrapped tail old new =>
    have h : WrappedInv l tail old new p := h
    have room := h.room
    have := h.oldTiles.le
    have := h.avail
    rcases List.mem_append.1 hb with hb | hb
    · have := (h.oldTiles.mem hb).2.1
      omega
    · have := (h.newTiles.mem hb).2.1
      omega
  | ended new =>
    have h : EndedInv l new p := h
    have := (h.tiles.mem hb).2.1
    have := h.room
    omega

theorem LogInv.total_le (h : LogInv l lay p) : (lay.live.map Block.size).sum ≤ l.memLimit := by
  cases lay with
  | flat live =>
    have h : FlatInv l live p := h
    have := h.tiles.sum
    have := h.room
    simp only [Layout.live]
    omega
  | wrapped tail old new =>
    have h : WrappedInv l tail old new p := h
    have := h.oldTiles.sum
    have := h.newTiles.sum
    have := h.avail
    have := h.room
    simp only [Layout.live, List.map_append, List.sum_append]
    omega
  | ended new =>
    have h : EndedInv l new p := h
    have := h.tiles.sum
    have := h.room
    simp only [Layout.live]
    omega

theorem disjoint_of_stop_le {a b : Block} (h : a.stop ≤ b.off) : a.Disjoint b := Or.inl h

theorem LogInv.pairwise (h : LogInv l lay p) : lay.live.Pairwise Block.Disjoint := by
  cases lay with
  | flat live => exact (FlatInv.tiles h).pairwise.imp disjoint_of_stop_le
  | ended new => exact (EndedInv.tiles h).pairwise.imp disjoint_of_stop_le
  | wrapped tail old new =>
    have h : WrappedInv l tail old new p := h
    refine List.pairwise_append.2 ⟨h.oldTiles.pairwise.imp disjoint_of_stop_le,
      h.newTiles.pairwise.imp disjoint_of_stop_le, fun a ha b hb => Or.inr ?_⟩
    have := (h.oldTiles.mem ha).1
    have := (h.newTiles.mem hb).2.1
    have := h.avail
    omega

theorem LogInv.disjoint (h : LogInv l lay p) {a b : Block} (ha : a ∈ lay.live) (hb : b ∈ lay.live)
    (different : a ≠ b) : a.Disjoint b :=
  h.pairwise.forall ha hb different

/-- The available bytes lie in the log, below the oldest record once wrapped, and hold no record. -/
theorem LogInv.avail_free (h : LogInv l lay 0) {b : Block} (hb : b ∈ lay.live) {x : ℕ}
    (hl : l.memCurrent ≤ x) (hh : x < l.memCurrent + l.memAvail) : x < b.off ∨ b.stop ≤ x := by
  cases lay with
  | flat live =>
    have h : FlatInv l live 0 := h
    have := (h.tiles.mem hb).2.1
    omega
  | ended new =>
    have h : EndedInv l new 0 := h
    have := (h.tiles.mem hb).2.1
    omega
  | wrapped tail old new =>
    have h : WrappedInv l tail old new 0 := h
    have := h.avail
    rcases List.mem_append.1 hb with hb | hb
    · have := (h.oldTiles.mem hb).1
      omega
    · have := (h.newTiles.mem hb).2.1
      omega

end Facts

end LogMemcached

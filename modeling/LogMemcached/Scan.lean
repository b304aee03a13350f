import LogMemcached.LogSteps

/-!
# Reading the log

The records between `mem_current_freeing` and `mem_current`, as a reader finds them that steps from
header to header and goes back to the beginning at a cycle record.  In a log with a layout these are
the records of the layout.
-/

namespace LogMemcached

open ByteMem Tiling

/-- The records from `o` on.  While `wrapped`, the next cycle record leads back to the beginning;
otherwise the walk ends at `stop`. -/
def scan (m : Mem) : ℕ → ℕ → ℕ → Bool → List Block
  | 0, _, _, _ => []
  | fuel + 1, o, stop, wrapped =>
      if wrapped then
        if has (flagsOf m o) itemCycle then scan m fuel 0 stop false
        else ⟨o, itemNtotal m o⟩ :: scan m fuel (o + itemNtotal m o) stop true
      else if o < stop then ⟨o, itemNtotal m o⟩ :: scan m fuel (o + itemNtotal m o) stop false
      else []

def Memlog.records (l : Memlog) : List Block :=
  scan l.mem l.memLimit l.memCurrentFreeing l.memCurrent (!decide l.Unwrapped)

variable {m : Mem} {lo hi fuel : ℕ} {bs : List Block} {l : Memlog} {lay : Layout}

theorem length_le_of_sized (h : Tiles lo bs hi) (sized : ∀ b ∈ bs, Sized m b) :
    16 * bs.length + lo ≤ hi := by
  induction bs generalizing lo with
  | nil => exact (Nat.zero_add lo).le.trans h.le
  | cons b bs ih =>
    obtain ⟨here, later⟩ := List.forall_mem_cons.1 sized
    have := ih h.2.2 later
    have := here.header
    have := h.1
    simp only [Block.stop, List.length_cons] at *
    omega

theorem scan_flat (h : Tiles lo bs hi) (sized : ∀ b ∈ bs, Sized m b) (enough : bs.length < fuel) :
    scan m fuel lo hi false = bs := by
  induction bs generalizing lo fuel with
  | nil =>
    obtain rfl : lo = hi := h
    obtain ⟨n, rfl⟩ := Nat.exists_eq_succ_of_ne_zero (by omega : fuel ≠ 0)
    simp [scan]
  | cons b bs ih =>
    obtain ⟨here, later⟩ := List.forall_mem_cons.1 sized
    obtain ⟨rfl, positive, rest⟩ := h
    obtain ⟨n, rfl⟩ := Nat.exists_eq_succ_of_ne_zero (by omega : fuel ≠ 0)
    have before : b.off < hi := by
      have := rest.le
      simp only [Block.stop] at this
      omega
    rw [List.length_cons] at enough
    rw [scan, if_neg (by decide), if_pos before, here.total]
    exact congrArg (b :: ·) (ih rest later (by omega))

theorem scan_wrapped {tail limit : ℕ} {old new : List Block} (h : Tiles lo old tail)
    (h' : Tiles 0 new hi) (sized : ∀ b ∈ old ++ new, Sized m b) (cycle : CycleAt m tail limit)
    (enough : old.length + new.length + 1 < fuel) : scan m fuel lo hi true = old ++ new := by
  induction old generalizing lo fuel with
  | nil =>
    obtain rfl : lo = tail := h
    obtain ⟨n, rfl⟩ := Nat.exists_eq_succ_of_ne_zero (by omega : fuel ≠ 0)
    rw [scan, if_pos rfl, cycle.flags, if_pos (by decide)]
    exact scan_flat h' sized (by simp only [List.length_nil, List.nil_append] at enough ⊢; omega)
  | cons b old ih =>
    obtain ⟨here, later⟩ := List.forall_mem_cons.1 sized
    obtain ⟨rfl, positive, rest⟩ := h
    obtain ⟨n, rfl⟩ := Nat.exists_eq_succ_of_ne_zero (by omega : fuel ≠ 0)
    rw [List.length_cons] at enough
    rw [scan, if_pos rfl, if_neg (by rw [here.plain]; decide), here.total]
    exact congrArg (b :: ·) (ih rest later (by omega))

/-- A walk of a log with a layout has enough fuel, and starts out wrapped exactly if the layout is. -/
theorem LogInv.walk (h : LogInv l lay 0) :
    (∃ live, lay = .flat live ∧ FlatInv l live 0 ∧ decide l.Unwrapped = true ∧
      live.length < l.memLimit) ∨
    ∃ tail old new, lay = .wrapped tail old new ∧ WrappedInv l tail old new 0 ∧
      decide l.Unwrapped = false ∧ old.length + new.length + 1 < l.memLimit := by
  cases lay with
  | flat live =>
    have h : FlatInv l live 0 := h
    have unwrapped : l.Unwrapped := (Nat.add_comm _ _).trans h.avail
    have := length_le_of_sized h.tiles h.sized
    have := h.room
    exact .inl ⟨live, rfl, h, decide_eq_true unwrapped, by omega⟩
  | wrapped tail old new =>
    have h : WrappedInv l tail old new 0 := h
    have around := h.avail
    have room := h.room
    have oldTiles := length_le_of_sized h.oldTiles fun b hb => h.sized b (List.mem_append_left _ hb)
    have newTiles := length_le_of_sized h.newTiles fun b hb => h.sized b (List.mem_append_right _ hb)
    have wrapped : ¬l.Unwrapped := fun unwrapped => by
      have : l.memCurrent + l.memAvail = l.memLimit := unwrapped
      omega
    exact .inr ⟨tail, old, new, rfl, h, decide_eq_false wrapped, by omega⟩
  | ended new => exact absurd (EndedInv.swept h) (lt_irrefl 0)

theorem LogInv.records_eq (h : LogInv l lay 0) : l.records = lay.live := by
  unfold Memlog.records
  obtain ⟨live, rfl, h, unwrapped, enough⟩ | ⟨tail, old, new, rfl, h, wrapped, enough⟩ := h.walk
  · rw [unwrapped]
    exact scan_flat h.tiles h.sized enough
  · rw [wrapped]
    exact scan_wrapped h.oldTiles h.newTiles h.sized h.cycle enough

end LogMemcached

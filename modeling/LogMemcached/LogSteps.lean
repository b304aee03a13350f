import LogMemcached.LogInv

/-!
# The log operations keep the invariant

One lemma for each thing the server does to the log: a store inside a record (`LogInv.write_block`),
an allocation (`memoryAllocate_some`, `memoryAllocate_none`), and a sweep of the cleaner, record by
record (`LogInv.freeItem`) and then as a whole (`LogInv.clean`).  An allocation keeps the invariant
only under `WrapOk`: the code wraps without looking whether the log has already wrapped.
-/

namespace LogMemcached

open ByteMem Tiling

/-! ## Stores inside a record -/

section Write

variable {l : Memlog} {lay : Layout} {p : ℕ} {b : Block} {m' : Mem}

theorem agree_of_disjoint {m : Mem} {c : Block}
    (outside : ∀ x, x < b.off ∨ b.stop ≤ x → m' x = m x) (apart : c.Disjoint b) :
    Agree m' m c.off c.stop := by
  intro x hl hh
  apply outside
  rcases apart with h | h <;> omega

theorem LogInv.write_block (h : LogInv l lay p) (hb : b ∈ lay.live)
    (outside : ∀ x, x < b.off ∨ b.stop ≤ x → m' x = l.mem x) (sized : Sized m' b) :
    LogInv { l with mem := m' } lay p := by
  have sizes : ∀ c ∈ lay.live, Sized m' c := by
    intro c hc
    by_cases same : c = b
    · exact same ▸ sized
    · exact (h.sized hc).congr (agree_of_disjoint outside (h.disjoint hc hb same))
  cases lay with
  | flat live =>
    have h : FlatInv l live p := h
    have bounds := h.tiles.mem hb
    exact { h with
      sized := sizes
      zeroBelow := fun x (hx : x < l.memCurrentFreeing) =>
        (outside x (by omega)).trans (h.zeroBelow x hx)
      zeroAbove := fun x (hx : l.memCurrent ≤ x) hx' =>
        (outside x (by omega)).trans (h.zeroAbove x hx hx') }
  | wrapped tail old new =>
    have h : WrappedInv l tail old new p := h
    have avail := h.avail
    have tailLe := h.oldTiles.le
    have range : b.stop ≤ l.memCurrent ∨ l.memCurrentFreeing ≤ b.off ∧ b.stop ≤ tail := by
      rcases List.mem_append.1 hb with hb | hb
      · exact Or.inr ⟨(h.oldTiles.mem hb).1, (h.oldTiles.mem hb).2.1⟩
      · exact Or.inl (h.newTiles.mem hb).2.1
    exact { h with
      sized := sizes
      cycle := h.cycle.congr fun x hx hx' => outside x (by omega)
      zero := fun x (hx : l.memCurrent ≤ x) (hx' : x < l.memCurrentFreeing) =>
        (outside x (by omega)).trans (h.zero x hx hx') }
  | ended new =>
    have h : EndedInv l new p := h
    have bounds := h.tiles.mem hb
    exact { h with
      sized := sizes
      zero := fun x (hx : l.memCurrent ≤ x) hx' =>
        (outside x (by omega)).trans (h.zero x hx hx') }

end Write

/-! ## Allocation -/

/-- The available bytes reach the end of the log, so that it has not wrapped. -/
def Memlog.Unwrapped (l : Memlog) : Prop := l.memCurrent + l.memAvail = l.memLimit

instance (l : Memlog) : Decidable l.Unwrapped := inferInstanceAs (Decidable (_ = _))

/-- A request for `size` bytes does not wrap a log that has already wrapped. -/
def WrapOk (l : Memlog) (size : ℕ) : Prop := l.nearEnd size = true → l.Unwrapped

instance (l : Memlog) (size : ℕ) : Decidable (WrapOk l size) :=
  inferInstanceAs (Decidable (_ → _))

/-- The records of `lay` hold the same bytes in both memories. -/
def SameRecords (m m' : Mem) (lay : Layout) : Prop := ∀ b ∈ lay.live, Agree m m' b.off b.stop

/-- The block `[o, o + size)` has been cut from the log: whatever record of that size is written
into it, the log fits `lay'`. -/
structure Reserved (l : Memlog) (lay lay' : Layout) (o size : ℕ) : Prop where
  live : lay'.live = lay.live ++ [⟨o, size⟩]
  inside : o + size ≤ l.memLimit
  apart : ∀ b ∈ lay.live, b.Disjoint ⟨o, size⟩
  zero : ∀ x, o ≤ x → x < o + size → l.mem x = 0
  filled : ∀ m', (∀ x, x < o ∨ o + size ≤ x → m' x = l.mem x) → Sized m' ⟨o, size⟩ →
    LogInv { l with mem := m' } lay' 0

section Allocate

variable {l l' : Memlog} {lay : Layout} {live : List Block} {size o : ℕ}

theorem LogInv.flat_of_unwrapped (h : LogInv l lay 0) (flat : l.Unwrapped) :
    ∃ live, lay = .flat live := by
  cases lay with
  | flat live => exact ⟨live, rfl⟩
  | wrapped tail old new =>
    have h : WrappedInv l tail old new 0 := h
    have h1 := h.avail
    have h2 := h.oldTiles.le
    have h3 := h.room
    have h4 : l.memCurrent + l.memAvail = l.memLimit := flat
    omega
  | ended new => exact absurd (EndedInv.swept h) (by omega)

theorem FlatInv.unwrapped (h : FlatInv l live 0) : l.Unwrapped := by
  have := h.avail
  unfold Memlog.Unwrapped
  omega

theorem FlatInv.wrap (h : FlatInv l live 0) (small : l.memLimit < 2 ^ 32) :
    WrappedInv l.wrap l.memCurrent live [] 0 := by
  have room := h.room
  have avail := h.avail
  have beginning := h.beginning
  have header := writeCycle_flags l.memAvail (h.zeroAbove (l.memCurrent + 9)
    (by omega) (by omega))
  refine ⟨h.tiles, rfl, room, by simpa [Memlog.wrap] using beginning, rfl, ?_, ?_, ?_⟩
  · intro b hb
    rw [List.append_nil] at hb
    have := (h.tiles.mem hb).2.1
    exact (h.sized b hb).congr fun x hl hh => writeCycle_outside (by omega)
  · refine ⟨header, ?_⟩
    · simp only [Memlog.wrap]
      rw [writeCycle_nbytes _ _ (by omega)]
      omega
  · intro x _ hx
    have := h.tiles.le
    exact (writeCycle_outside (Or.inl (by simp only [Memlog.wrap] at hx; omega))).trans
      (h.zeroBelow x hx)

theorem FlatInv.wrap_same (h : FlatInv l live 0) : SameRecords l.wrap.mem l.mem (.flat live) := by
  intro b hb x hl hh
  have := (h.tiles.mem hb).2.1
  exact writeCycle_outside (Or.inl (by omega))

theorem LogInv.bump (h : LogInv l lay 0) (positive : 0 < size) (fits : size ≤ l.memAvail)
    (room : l.Unwrapped → l.memCurrent + size + 35 ≤ l.memLimit) :
    ∃ lay', Reserved { l with
      memCurrent := l.memCurrent + size, memAvail := l.memAvail - size }
      lay lay' l.memCurrent size := by
  cases lay with
  | flat live =>
    have h : FlatInv l live 0 := h
    have room := room h.unwrapped
    have avail := h.avail
    refine ⟨.flat (live ++ [⟨l.memCurrent, size⟩]), rfl, by dsimp only; omega, ?_, ?_, ?_⟩
    · exact fun b hb => Or.inl (h.tiles.mem hb).2.1
    · exact fun x hl hh => h.zeroAbove x hl (by omega)
    · intro m' outside sized
      refine ⟨h.tiles.snoc positive, room, by dsimp only; omega, h.beginning, by simp, ?_, ?_, ?_⟩
      · intro b hb
        rcases List.mem_append.1 hb with hb | hb
        · have := (h.tiles.mem hb).2.1
          exact (h.sized b hb).congr fun x hl hh => outside x (by omega)
        · rw [List.mem_singleton.1 hb]
          exact sized
      · intro x hx
        have := h.tiles.le
        dsimp only at hx ⊢
        rw [outside x (by omega), h.zeroBelow x hx]
      · intro x hl hh
        dsimp only at hl hh ⊢
        rw [outside x (by omega), h.zeroAbove x (by omega) hh]
  | wrapped tail old new =>
    have h : WrappedInv l tail old new 0 := h
    have avail := h.avail
    have roomTail := h.room
    have tailLe := h.oldTiles.le
    refine ⟨.wrapped tail old (new ++ [⟨l.memCurrent, size⟩]), ?_, by dsimp only; omega, ?_, ?_, ?_⟩
    · simp only [Layout.live, List.append_assoc]
    · intro b hb
      rcases List.mem_append.1 hb with hb | hb
      · have := (h.oldTiles.mem hb).1
        exact Or.inr (by simp only [Block.stop]; omega)
      · exact Or.inl (h.newTiles.mem hb).2.1
    · exact fun x hl hh => h.zero x hl (by omega)
    · intro m' outside sized
      refine ⟨h.oldTiles, h.newTiles.snoc positive, roomTail, by dsimp only; omega, h.beginning,
        ?_, h.cycle.congr fun x hl hh => outside x (by omega), ?_⟩
      · intro b hb
        rw [← List.append_assoc] at hb
        rcases List.mem_append.1 hb with hb | hb
        · refine (h.sized b hb).congr fun x hl hh => outside x ?_
          rcases List.mem_append.1 hb with hb | hb
          · have := (h.oldTiles.mem hb).1
            omega
          · have := (h.newTiles.mem hb).2.1
            omega
        · rw [List.mem_singleton.1 hb]
          exact sized
      · intro x hl hh
        dsimp only at hl hh ⊢
        rw [outside x (by omega), h.zero x (by omega) hh]
  | ended new => exact absurd (EndedInv.swept h) (by omega)

theorem LogInv.turn (h : LogInv l lay 0) (wrapOk : WrapOk l size) (small : l.memLimit < 2 ^ 32) :
    ∃ lay', LogInv (l.turn size) lay' 0 ∧ lay'.live = lay.live ∧
      SameRecords (l.turn size).mem l.mem lay ∧ (l.turn size).memLimit = l.memLimit ∧
      ((l.turn size).Unwrapped → l.nearEnd size = false ∧ l.turn size = l) := by
  unfold Memlog.turn
  split_ifs with near
  · obtain ⟨live, rfl⟩ := h.flat_of_unwrapped (wrapOk near)
    have wrapped := FlatInv.wrap h small
    refine ⟨.wrapped l.memCurrent live [], wrapped, List.append_nil live, FlatInv.wrap_same h, rfl,
      fun flat => ?_⟩
    have inv : LogInv l.wrap (.wrapped l.memCurrent live []) 0 := wrapped
    obtain ⟨_, contra⟩ := inv.flat_of_unwrapped flat
    cases contra
  · exact ⟨lay, h, rfl, fun _ _ => Agree.refl _ _ _, rfl, fun _ => ⟨by simpa using near, rfl⟩⟩

theorem memoryAllocate_eq_some : memoryAllocate l size = (l', some o) ↔
    size ≤ (l.turn size).memAvail ∧ o = (l.turn size).memCurrent ∧
      l' = { l.turn size with
        memCurrent := (l.turn size).memCurrent + size
        memAvail := (l.turn size).memAvail - size } := by
  simp only [memoryAllocate]
  split_ifs with short
  · simp [short]
  · simp only [Prod.mk.injEq, Option.some.injEq]
    exact ⟨fun ⟨hl, ho⟩ => ⟨by omega, ho.symm, hl.symm⟩, fun ⟨_, ho, hl⟩ => ⟨hl.symm, ho.symm⟩⟩

theorem memoryAllocate_eq_none : memoryAllocate l size = (l', none) ↔
    (l.turn size).memAvail < size ∧ l' = l.turn size := by
  simp only [memoryAllocate]
  split_ifs with short
  · simp [short, eq_comm]
  · simp [short]

theorem memoryAllocate_some (h : LogInv l lay 0) (wrapOk : WrapOk l size)
    (small : l.memLimit < 2 ^ 32) (positive : 0 < size)
    (alloc : memoryAllocate l size = (l', some o)) :
    ∃ lay', Reserved l' lay lay' o size ∧ SameRecords l'.mem l.mem lay ∧
      l'.memLimit = l.memLimit := by
  obtain ⟨turned, inv, live, same, limit, flat⟩ := h.turn wrapOk small
  obtain ⟨fits, rfl, rfl⟩ := memoryAllocate_eq_some.1 alloc
  have room : (l.turn size).Unwrapped →
      (l.turn size).memCurrent + size + 35 ≤ (l.turn size).memLimit := by
    intro unwrapped
    obtain ⟨near, same⟩ := flat unwrapped
    rw [same] at unwrapped fits ⊢
    unfold Memlog.Unwrapped at unwrapped
    simp only [Memlog.nearEnd, gt_iff_lt, decide_eq_false_iff_not, not_lt] at near
    rw [Nat.mod_eq_of_lt (by omega)] at near
    omega
  obtain ⟨lay', cut⟩ := inv.bump positive fits room
  exact ⟨lay', ⟨live ▸ cut.live, cut.inside, live ▸ cut.apart, cut.zero, cut.filled⟩, same, limit⟩

theorem memoryAllocate_none (h : LogInv l lay 0) (wrapOk : WrapOk l size)
    (small : l.memLimit < 2 ^ 32) (alloc : memoryAllocate l size = (l', none)) :
    ∃ lay', LogInv l' lay' 0 ∧ lay'.live = lay.live ∧ SameRecords l'.mem l.mem lay ∧
      l'.memLimit = l.memLimit := by
  obtain ⟨lay', inv, live, same, limit, -⟩ := h.turn wrapOk small
  obtain ⟨-, rfl⟩ := memoryAllocate_eq_none.1 alloc
  exact ⟨lay', inv, live, same, limit⟩

theorem wrapOk_of_some (h : LogInv l lay 0) (positive : 0 < size)
    (alloc : memoryAllocate l size = (l', some o)) : WrapOk l size := by
  intro near
  obtain ⟨fits, -⟩ := memoryAllocate_eq_some.1 alloc
  cases lay with
  | flat live => exact FlatInv.unwrapped h
  | ended new => exact absurd (EndedInv.swept h) (by omega)
  | wrapped tail old new =>
    have h : WrappedInv l tail old new 0 := h
    simp only [Memlog.turn, near, if_true, Memlog.wrap, h.beginning] at fits
    omega

theorem wrapOk_retry (wrapOk : WrapOk l size) (fits : size + 35 ≤ l.memLimit)
    (small : l.memLimit < 2 ^ 32) : WrapOk (l.turn size) size := by
  unfold Memlog.turn
  split_ifs with near
  · intro again
    simp only [Memlog.nearEnd, Memlog.wrap, Nat.zero_add, gt_iff_lt, decide_eq_true_eq] at again
    rw [Nat.mod_eq_of_lt (by omega)] at again
    omega
  · exact wrapOk

section Retry

variable {n : ℕ}

theorem memlogAllocRetry_eq (h : LogInv l lay 0) (wrapOk : WrapOk l size)
    (small : l.memLimit < 2 ^ 32) (fits : size + 35 ≤ l.memLimit) (positive : 0 < size)
    {got : Option ℕ} (alloc : memlogAllocRetry n l size = (l', got)) :
    ∃ lay', got.elim (LogInv l' lay' 0 ∧ lay'.live = lay.live) (Reserved l' lay lay' · size) ∧
      SameRecords l'.mem l.mem lay ∧ l'.memLimit = l.memLimit := by
  induction n generalizing l lay with
  | zero =>
    obtain ⟨rfl, rfl⟩ := Prod.mk.inj alloc
    exact ⟨lay, ⟨h, rfl⟩, fun _ _ => Agree.refl _ _ _, rfl⟩
  | succ n ih =>
    rcases first : memoryAllocate l size with ⟨l₁, _ | o⟩
    · obtain ⟨lay₁, inv, live, same, limit⟩ := memoryAllocate_none h wrapOk small first
      have again := wrapOk_retry wrapOk fits small
      rw [← (memoryAllocate_eq_none.1 first).2] at again
      simp only [memlogAllocRetry, first] at alloc
      obtain ⟨lay', cut, same', limit'⟩ := ih inv again (by omega) (by omega) alloc
      refine ⟨lay', ?_, fun b hb => (same' b (live ▸ hb)).trans (same b hb), limit'.trans limit⟩
      cases got with
      | none => exact ⟨cut.1, cut.2.trans live⟩
      | some o =>
        have cut : Reserved l' lay₁ lay' o size := cut
        exact ⟨live ▸ cut.live, cut.inside, live ▸ cut.apart, cut.zero, cut.filled⟩
    · simp only [memlogAllocRetry, first, Prod.mk.injEq] at alloc
      obtain ⟨rfl, rfl⟩ := alloc
      exact memoryAllocate_some h wrapOk small positive first

end Retry

end Allocate

/-! ## Cleaning -/

/-- The counters under which `lru_maintainer_free` cleans. -/
structure Short (l : Memlog) : Prop where
  avail : l.memAvail ≤ l.memLimit / 4
  beginning : l.memFreeFromBeginning ≤ l.memLimit / 4

/-- Everything but the memory and the cleaner's cursor is the same. -/
structure SameCursors (l l' : Memlog) : Prop where
  limit : l'.memLimit = l.memLimit
  current : l'.memCurrent = l.memCurrent
  avail : l'.memAvail = l.memAvail
  beginning : l'.memFreeFromBeginning = l.memFreeFromBeginning

/-- The log after a step of the cleaner that freed `n` bytes and the records `gone`. -/
structure Swept (l l' : Memlog) (lay lay' : Layout) (gone : List Block) (n : ℕ) : Prop where
  live : lay.live = gone ++ lay'.live
  same : SameRecords l'.mem l.mem lay'
  cursors : SameCursors l l'
  freeing : l'.memCurrentFreeing = l.memCurrentFreeing + n
  passed : ∀ b ∈ gone, l.memCurrentFreeing ≤ b.off ∧ b.stop ≤ l'.memCurrentFreeing

section Clean

variable {l l' l'' : Memlog} {lay lay' lay'' : Layout} {p n k : ℕ} {gone gone' : List Block}

theorem Swept.refl (l : Memlog) (lay : Layout) : Swept l l lay lay [] 0 where
  live := rfl
  same := fun _ _ => Agree.refl _ _ _
  cursors := ⟨rfl, rfl, rfl, rfl⟩
  freeing := rfl
  passed := by simp

theorem Swept.trans (h : Swept l l' lay lay' gone n) (h' : Swept l' l'' lay' lay'' gone' k) :
    Swept l l'' lay lay'' (gone ++ gone') (n + k) where
  live := by rw [h.live, h'.live, List.append_assoc]
  same := fun b hb =>
    (h'.same b hb).trans (h.same b (by rw [h'.live]; exact List.mem_append_right _ hb))
  cursors := ⟨h'.cursors.limit.trans h.cursors.limit, h'.cursors.current.trans h.cursors.current,
    h'.cursors.avail.trans h.cursors.avail, h'.cursors.beginning.trans h.cursors.beginning⟩
  freeing := by rw [h'.freeing, h.freeing, Nat.add_assoc]
  passed := by
    have first := h.freeing
    have second := h'.freeing
    intro b hb
    rcases List.mem_append.1 hb with hb | hb
    · have := h.passed b hb
      omega
    · have := h'.passed b hb
      omega

theorem Short.congr (h : Short l) (same : SameCursors l l') : Short l' :=
  ⟨by rw [same.avail, same.limit]; exact h.avail,
    by rw [same.beginning, same.limit]; exact h.beginning⟩

theorem LogInv.short (h : LogInv l lay 0) (small : l.memLimit < 2 ^ 32)
    (guard : lruMaintainerGuard l = true) : Short l := by
  have bounds : l.memAvail ≤ l.memLimit ∧ l.memFreeFromBeginning ≤ l.memLimit := by
    cases lay with
    | flat live =>
      have h : FlatInv l live 0 := h
      have h1 := h.avail
      have h2 := h.beginning
      have h3 := h.tiles.le
      omega
    | wrapped tail old new =>
      have h : WrappedInv l tail old new 0 := h
      have h1 := h.avail
      have h2 := h.beginning
      have h3 := h.oldTiles.le
      have h4 := h.room
      omega
    | ended new => exact absurd (EndedInv.swept h) (by omega)
  simp only [lruMaintainerGuard, Bool.and_eq_true, decide_eq_true_eq] at guard
  rw [Nat.mod_eq_of_lt small, Nat.mod_eq_of_lt (by omega), Nat.mod_eq_of_lt (by omega)] at guard
  exact ⟨guard.1, guard.2⟩

theorem FlatInv.pop {b : Block} {live : List Block} (h : FlatInv l (b :: live) p)
    (ahead : b.stop < l.memCurrent) (small : l.memLimit < 2 ^ 32) :
    FlatInv l.freeItem.1 live (p + l.freeItem.2) ∧
      Swept l l.freeItem.1 (.flat (b :: live)) (.flat live) [b] l.freeItem.2 := by
  obtain ⟨start, -, rest⟩ := h.tiles
  have size : freeSize l.mem l.memCurrentFreeing = b.size := by
    have := h.room
    simp only [Block.stop] at ahead
    exact start ▸ (h.sized b (by simp)).freeSize_eq (by omega)
  have outside : ∀ c ∈ live, Agree (fill l.mem l.memCurrentFreeing b.size 0) l.mem c.off c.stop := by
    intro c hc
    have := (rest.mem hc).1
    exact agree_fill (Or.inr (by simp only [Block.stop] at this; omega))
  have step : l.memCurrentFreeing + b.size = b.stop := by rw [← start, Block.stop]
  have beginning := h.beginning
  simp only [Memlog.freeItem, size]
  refine ⟨⟨by rw [step]; exact rest, h.room, h.avail, by dsimp only; omega,
    by dsimp only; omega, ?_, ?_, ?_⟩, ?_⟩
  · exact fun c hc => (h.sized c (by simp [hc])).congr (outside c hc)
  · intro x hx
    dsimp only at hx ⊢
    by_cases inside : l.memCurrentFreeing ≤ x
    · exact fill_inside ⟨inside, hx⟩
    · rw [fill_outside (by omega)]
      exact h.zeroBelow x (by omega)
  · intro x hx hx'
    dsimp only at hx hx' ⊢
    rw [fill_outside (by omega)]
    exact h.zeroAbove x hx hx'
  · exact ⟨rfl, outside, ⟨rfl, rfl, rfl, rfl⟩, rfl, by simp [start, Block.stop]⟩

theorem WrappedInv.pop {b : Block} {tail : ℕ} {old new : List Block}
    (h : WrappedInv l tail (b :: old) new p) (small : l.memLimit < 2 ^ 32) :
    WrappedInv l.freeItem.1 tail old new (p + l.freeItem.2) ∧
      Swept l l.freeItem.1 (.wrapped tail (b :: old) new) (.wrapped tail old new) [b]
        l.freeItem.2 := by
  obtain ⟨start, -, rest⟩ := h.oldTiles
  have avail := h.avail
  have room := h.room
  have le := rest.le
  have step : l.memCurrentFreeing + b.size = b.stop := by rw [← start, Block.stop]
  have size : freeSize l.mem l.memCurrentFreeing = b.size :=
    start ▸ (h.sized b (by simp)).freeSize_eq (by omega)
  have outside : ∀ c ∈ old ++ new,
      Agree (fill l.mem l.memCurrentFreeing b.size 0) l.mem c.off c.stop := by
    intro c hc
    rcases List.mem_append.1 hc with hc | hc
    · have := (rest.mem hc).1
      exact agree_fill (Or.inr (by omega))
    · have := (h.newTiles.mem hc).2.1
      exact agree_fill (Or.inl (by omega))
  simp only [Memlog.freeItem, size]
  refine ⟨⟨by rw [step]; exact rest, h.newTiles, room, by dsimp only; omega, h.beginning, ?_, ?_, ?_⟩,
    ?_⟩
  · refine fun c hc => (h.sized c ?_).congr (outside c hc)
    rw [List.cons_append]
    exact List.mem_cons_of_mem _ hc
  · exact h.cycle.congr (agree_fill (Or.inr (by omega)))
  · intro x hx hx'
    dsimp only at hx hx' ⊢
    by_cases inside : l.memCurrentFreeing ≤ x
    · exact fill_inside ⟨inside, hx'⟩
    · rw [fill_outside (by omega)]
      exact h.zero x hx (by omega)
  · exact ⟨rfl, outside, ⟨rfl, rfl, rfl, rfl⟩, rfl, by simp [start, Block.stop]⟩

theorem WrappedInv.popCycle {tail : ℕ} {new : List Block} (h : WrappedInv l tail [] new p) :
    EndedInv l.freeItem.1 new (p + l.freeItem.2) ∧
      Swept l l.freeItem.1 (.wrapped tail [] new) (.ended new) [] l.freeItem.2 := by
  obtain start : l.memCurrentFreeing = tail := h.oldTiles
  have avail := h.avail
  have room := h.room
  have size : freeSize l.mem l.memCurrentFreeing = l.memLimit - tail := start ▸ h.cycle.freeSize_eq
  have outside : ∀ c ∈ new,
      Agree (fill l.mem l.memCurrentFreeing (l.memLimit - tail) 0) l.mem c.off c.stop := by
    intro c hc
    have := (h.newTiles.mem hc).2.1
    exact agree_fill (Or.inl (by omega))
  simp only [Memlog.freeItem, size]
  refine ⟨⟨h.newTiles, by dsimp only; omega, by dsimp only; omega, by dsimp only; omega, by omega,
    h.beginning, fun c hc => (h.sized c (by simpa using hc)).congr (outside c hc), ?_⟩, ?_⟩
  · intro x hx hx'
    dsimp only at hx hx' ⊢
    by_cases inside : l.memCurrentFreeing ≤ x
    · exact fill_inside ⟨inside, by omega⟩
    · rw [fill_outside (by omega)]
      exact h.zero x hx (by omega)
  · exact ⟨rfl, outside, ⟨rfl, rfl, rfl, rfl⟩, rfl, by simp⟩

theorem LogInv.freeItem (h : LogInv l lay p) (short : Short l) (more : p < l.memLimit / 8)
    (before : l.memCurrentFreeing < l.memLimit) (small : l.memLimit < 2 ^ 32)
    (bounded : ∀ b ∈ lay.live, 16 * b.size ≤ l.memLimit) :
    ∃ lay' gone, LogInv l.freeItem.1 lay' (p + l.freeItem.2) ∧
      Swept l l.freeItem.1 lay lay' gone l.freeItem.2 ∧ 0 < l.freeItem.2 ∧
      (gone = [⟨l.memCurrentFreeing, l.freeItem.2⟩] ∨
        gone = [] ∧ CycleAt l.mem l.memCurrentFreeing l.memLimit) := by
  have one {b : Block} {rest : List Block} {hi : ℕ}
      (tiles : Tiles l.memCurrentFreeing (b :: rest) hi) (fits : hi ≤ l.memLimit)
      (sized : Sized l.mem b) :
      0 < l.freeItem.2 ∧ [b] = [⟨l.memCurrentFreeing, l.freeItem.2⟩] := by
    obtain ⟨start, pos, rest⟩ := tiles
    have := rest.le
    simp only [Block.stop] at this
    have size : l.freeItem.2 = b.size := by
      simp only [Memlog.freeItem, ← start, sized.freeSize_eq (by omega : b.size < 2 ^ 32)]
    exact ⟨by omega, by rw [size, ← start]⟩
  cases lay with
  | flat live =>
    have h : FlatInv l live p := h
    have h1 := h.avail
    have h2 := h.beginning
    have h3 := h.ahead
    have h4 := short.avail
    have h5 := short.beginning
    have h6 := h.room
    cases live with
    | nil =>
      have h7 : l.memCurrentFreeing = l.memCurrent := h.tiles
      omega
    | cons b live =>
      have start := h.tiles.1
      have size := bounded b (by simp [Layout.live])
      obtain ⟨inv, swept⟩ := h.pop (by simp only [Block.stop]; omega) small
      obtain ⟨pos, eq⟩ := one h.tiles (by omega) (h.sized b (by simp))
      exact ⟨.flat live, [b], inv, swept, pos, Or.inl eq⟩
  | wrapped tail old new =>
    have h : WrappedInv l tail old new p := h
    have room := h.room
    cases old with
    | nil =>
      have start : l.memCurrentFreeing = tail := h.oldTiles
      obtain ⟨inv, swept⟩ := h.popCycle
      refine ⟨.ended new, [], inv, swept, ?_, Or.inr ⟨rfl, start ▸ h.cycle⟩⟩
      simp only [Memlog.freeItem, start, h.cycle.freeSize_eq]
      omega
    | cons b old =>
      obtain ⟨inv, swept⟩ := h.pop small
      obtain ⟨pos, eq⟩ := one h.oldTiles (by omega) (h.sized b (by simp))
      exact ⟨.wrapped tail old new, [b], inv, swept, pos, Or.inl eq⟩
  | ended new => exact absurd (EndedInv.stands h) (by omega)

/-- `do_memlog_clean` settles the swept bytes without moving a record. -/
theorem LogInv.settle (h : LogInv l lay p) :
    ∃ lay', LogInv (l.settle p) lay' 0 ∧ lay'.live = lay.live ∧ (l.settle p).mem = l.mem ∧
      (l.settle p).memLimit = l.memLimit := by
  rcases Nat.eq_zero_or_pos p with rfl | pos
  · exact ⟨lay, by simpa [Memlog.settle] using h, rfl, rfl, rfl⟩
  cases lay with
  | flat live =>
    have h : FlatInv l live p := h
    have ahead := h.ahead pos
    have room := h.room
    have beginning := h.beginning
    simp only [Memlog.settle, if_neg pos.ne', if_neg (not_le.2 ahead),
      if_neg (show ¬ l.memLimit ≤ l.memCurrentFreeing by omega), ge_iff_le]
    exact ⟨.flat live, ⟨h.tiles, h.room, h.avail, beginning, by simp, h.sized, h.zeroBelow,
      h.zeroAbove⟩, by simp⟩
  | wrapped tail old new =>
    have h : WrappedInv l tail old new p := h
    have avail := h.avail
    have room := h.room
    have le := h.oldTiles.le
    simp only [Memlog.settle, if_neg pos.ne',
      if_pos (show l.memCurrent ≤ l.memCurrentFreeing by omega),
      if_neg (show ¬ l.memLimit ≤ l.memCurrentFreeing by omega), ge_iff_le]
    exact ⟨.wrapped tail old new, ⟨h.oldTiles, h.newTiles, h.room, avail, h.beginning, h.sized,
      h.cycle, h.zero⟩, by simp⟩
  | ended new =>
    have h : EndedInv l new p := h
    have stands := h.stands
    have room := h.room
    simp only [Memlog.settle, if_neg pos.ne',
      if_pos (show l.memCurrent ≤ l.memCurrentFreeing by omega),
      if_pos (show l.memLimit ≤ l.memCurrentFreeing by omega), ge_iff_le]
    exact ⟨.flat new, ⟨h.tiles, room, h.avail, h.beginning, by simp, h.sized, by simp, h.zero⟩,
      by simp [Layout.live]⟩

theorem LogInv.swept_le (h : LogInv l lay p) :
    p ≤ l.memLimit ∧ l.memCurrentFreeing ≤ l.memLimit := by
  cases lay with
  | flat live =>
    have h : FlatInv l live p := h
    have h1 := h.beginning
    have h2 := h.tiles.le
    have h3 := h.room
    omega
  | wrapped tail old new =>
    have h : WrappedInv l tail old new p := h
    have h1 := h.avail
    have h2 := h.oldTiles.le
    have h3 := h.room
    omega
  | ended new =>
    have h : EndedInv l new p := h
    have h1 := h.avail
    have h2 := h.stands
    omega

/-- What is left after a sweep from `start` lies before `start` or at the cursor and beyond. -/
theorem LogInv.not_passed (h : LogInv l lay p) {start : ℕ} (freeing : l.memCurrentFreeing = start + p)
    {b : Block} (hb : b ∈ lay.live) : b.stop ≤ start ∨ l.memCurrentFreeing ≤ b.off := by
  cases lay with
  | flat live => exact Or.inr ((FlatInv.tiles h).mem hb).1
  | wrapped tail old new =>
    have h : WrappedInv l tail old new p := h
    have avail := h.avail
    rcases List.mem_append.1 hb with hb | hb
    · exact Or.inr (h.oldTiles.mem hb).1
    · have := (h.newTiles.mem hb).2.1
      exact Or.inl (by omega)
  | ended new =>
    have h : EndedInv l new p := h
    have avail := h.avail
    have stands := h.stands
    have := (h.tiles.mem hb).2.1
    exact Or.inl (by omega)

/-- The loop of `memlog_free_chunk` ends and keeps the invariant; `k` turns suffice when fewer
than `k` bytes are still to be freed. -/
theorem LogInv.freeChunk (h : LogInv l lay p) (short : Short l) (small : l.memLimit < 2 ^ 32)
    (bounded : ∀ b ∈ lay.live, 16 * b.size ≤ l.memLimit) (turns : l.memLimit / 8 - p < k) :
    ∃ l' lay' gone n, l.freeChunk k p = some (l', p + n) ∧ LogInv l' lay' (p + n) ∧
      Swept l l' lay lay' gone n := by
  induction k generalizing l lay p with
  | zero => omega
  | succ k ih =>
    have toFree : l.toFree = l.memLimit / 8 := Nat.mod_eq_of_lt (by omega)
    have here := h.swept_le.2
    rw [Memlog.freeChunk, toFree, Nat.mod_eq_of_lt (by omega)]
    split_ifs with more stop
    · exact ⟨l, lay, [], 0, rfl, h, .refl l lay⟩
    · obtain ⟨lay₁, gone, inv, swept, pos, -⟩ := h.freeItem short more (by omega) small bounded
      have limit := swept.cursors.limit
      have total := inv.swept_le.1
      have rest : ∀ b ∈ lay₁.live, 16 * b.size ≤ l.freeItem.1.memLimit := by
        intro b hb
        rw [limit]
        exact bounded b (by rw [swept.live]; exact List.mem_append_right _ hb)
      obtain ⟨l', lay', gone', n, eq, inv', swept'⟩ :=
        ih inv (short.congr swept.cursors) (by omega) rest (by omega)
      refine ⟨l', lay', gone ++ gone', l.freeItem.2 + n, ?_, ?_, swept.trans swept'⟩
      · change Memlog.freeChunk k l.freeItem.1 ((p + l.freeItem.2) % 2 ^ 32) = _
        rw [Nat.mod_eq_of_lt (by omega), eq, Nat.add_assoc]
      · rwa [← Nat.add_assoc]
    · exact ⟨l, lay, [], 0, rfl, h, .refl l lay⟩

theorem settle_memLimit : (l.settle n).memLimit = l.memLimit := by
  simp only [Memlog.settle, apply_ite Memlog.memLimit, ite_self]

theorem settle_memCurrent : (l.settle n).memCurrent = l.memCurrent := by
  simp only [Memlog.settle, apply_ite Memlog.memCurrent, ite_self]

theorem settle_memAvail : (l.settle n).memAvail =
    l.memAvail + if l.memCurrent ≤ l.memCurrentFreeing then n else 0 := by
  simp only [Memlog.settle, apply_ite Memlog.memAvail, ite_self]
  split_ifs <;> omega

theorem LogInv.settle_unwrapped (h : LogInv l lay 0) (h' : LogInv l' lay' n)
    (cursors : SameCursors l l') (freeing : l'.memCurrentFreeing = l.memCurrentFreeing + n) :
    (l'.settle n).Unwrapped ↔
      l.Unwrapped ∨ l.memLimit ≤ l.memCurrentFreeing + n := by
  obtain ⟨limit, current, avail, beginning⟩ := cursors
  simp only [Memlog.Unwrapped, settle_memLimit, settle_memCurrent, settle_memAvail, limit, current,
    avail, freeing]
  cases lay with
  | ended new => exact absurd (EndedInv.swept h) (by omega)
  | flat live =>
    have h : FlatInv l live 0 := h
    have h1 := h.avail
    cases lay' with
    | flat live' =>
      have h' : FlatInv l' live' n := h'
      have h2 := h'.ahead
      split_ifs <;> omega
    | wrapped tail old new =>
      have h' : WrappedInv l' tail old new n := h'
      have h2 := h'.avail
      have h3 := h'.room
      have h4 := h'.oldTiles.le
      omega
    | ended new =>
      have h' : EndedInv l' new n := h'
      have h2 := h'.avail
      have h3 := h'.swept
      omega
  | wrapped tail old new =>
    have h : WrappedInv l tail old new 0 := h
    have h1 := h.avail
    have h2 := h.room
    have h3 := h.oldTiles.le
    cases lay' with
    | flat live' =>
      have h' : FlatInv l' live' n := h'
      have h4 := h'.avail
      omega
    | wrapped tail' old' new' =>
      have h' : WrappedInv l' tail' old' new' n := h'
      have h4 := h'.avail
      have h5 := h'.room
      have h6 := h'.oldTiles.le
      split_ifs <;> omega
    | ended new' =>
      have h' : EndedInv l' new' n := h'
      have h4 := h'.avail
      have h5 := h'.stands
      split_ifs <;> omega

/-- One call of the cleaner.  It ends, the records it leaves are unchanged, and those it drops are
the ones `mem_current_freeing` has passed. -/
theorem LogInv.clean (h : LogInv l lay 0) (guard : lruMaintainerGuard l = true)
    (small : l.memLimit < 2 ^ 32) (bounded : ∀ b ∈ lay.live, 16 * b.size ≤ l.memLimit) :
    ∃ l' lay' gone n, l.clean = some (l', n) ∧ LogInv l' lay' 0 ∧ lay.live = gone ++ lay'.live ∧
      SameRecords l'.mem l.mem lay' ∧ l'.memLimit = l.memLimit ∧
      (∀ b ∈ gone, l.memCurrentFreeing ≤ b.off ∧ b.stop ≤ l.memCurrentFreeing + n) ∧
      (∀ b ∈ lay'.live, b.stop ≤ l.memCurrentFreeing ∨ l.memCurrentFreeing + n ≤ b.off) ∧
      (l'.Unwrapped ↔ l.Unwrapped ∨ l.memLimit ≤ l.memCurrentFreeing + n) := by
  obtain ⟨l₁, lay₁, gone, n, eq, inv, swept⟩ := h.freeChunk (k := l.toFree + 1)
    (h.short small guard) small bounded (by
      have : l.toFree = l.memLimit / 8 := Nat.mod_eq_of_lt (by omega)
      omega)
  rw [Nat.zero_add] at eq inv
  obtain ⟨lay', inv', live, same, limit'⟩ := inv.settle
  refine ⟨l₁.settle n, lay', gone, n, by simp [Memlog.clean, eq], inv', by rw [live, swept.live],
    ?_, limit'.trans swept.cursors.limit, by rw [← swept.freeing]; exact swept.passed, ?_,
    h.settle_unwrapped inv swept.cursors swept.freeing⟩
  · intro b hb
    rw [same]
    exact swept.same b (live ▸ hb)
  · intro b hb
    rw [← swept.freeing]
    exact inv.not_passed swept.freeing (live ▸ hb)

end Clean

end LogMemcached

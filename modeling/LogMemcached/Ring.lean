import LogMemcached.LogSteps
import LogMemcached.Lib.Run

/-!
# Runs of the ring allocator

The allocator as a transition system: the server allocates records, writes inside the blocks it
holds, and cleans under the guard of `lru_maintainer_free`.  The state carries two ghost fields, the
blocks returned and not yet passed by `mem_current_freeing`, and whether `mem_current` is one lap
ahead of it.  Runs are safe as long as no request wraps a log that has already wrapped
(`ring_safe`); one such request suffices to hand out a block twice (`ring_overlap`).
-/

namespace LogMemcached

open ByteMem Tiling Transition

/-! ## The system -/

structure RingState where
  log : Memlog
  live : List Block
  wrapped : Bool

/-- What the server does to the log; a record is the bytes the caller writes into a new block. -/
inductive RingAction
  | alloc (size : ℕ) (record : List UInt8)
  | write (b : Block) (bytes : List UInt8)
  | clean

def RingState.init (limit : ℕ) : RingState := ⟨memlogInit limit, [], false⟩

/-- A sweep of `n` bytes from `start` has passed the block. -/
def Passed (start n : ℕ) (b : Block) : Prop := start ≤ b.off ∧ b.stop ≤ start + n

instance (start n : ℕ) (b : Block) : Decidable (Passed start n b) :=
  inferInstanceAs (Decidable (_ ∧ _))

/-- `memlog_alloc`, and the record written into the block it returns. -/
def RingState.alloc (s : RingState) (size : ℕ) (record : List UInt8) : RingState :=
  let wrapped := s.wrapped || s.log.nearEnd size
  match memoryAllocate s.log size with
  | (l, none) => ⟨l, s.live, wrapped⟩
  | (l, some o) => ⟨{ l with mem := write l.mem o record }, s.live ++ [⟨o, size⟩], wrapped⟩

def RingState.write (s : RingState) (b : Block) (bytes : List UInt8) : RingState :=
  { s with log := { s.log with mem := ByteMem.write s.log.mem b.off bytes } }

/-- `memlog_clean`; `none` when it does not return. -/
def RingState.clean (s : RingState) : Option RingState :=
  s.log.clean.map fun r =>
    { log := r.1
      live := s.live.filter fun b => ¬ Passed s.log.memCurrentFreeing r.2 b
      wrapped := s.wrapped && decide (s.log.memCurrentFreeing + r.2 < s.log.memLimit) }

/-- One action; `none` when the server does not take it. -/
def ringStep (maxRequest : ℕ) (s : RingState) : RingAction → Option RingState
  | .alloc size record =>
      if 34 ≤ size ∧ size ≤ maxRequest ∧ record.length ≤ size then some (s.alloc size record)
      else none
  | .write b bytes =>
      if b ∈ s.live ∧ bytes.length ≤ b.size then some (s.write b bytes) else none
  | .clean => if lruMaintainerGuard s.log then s.clean else none

/-! ## Safety -/

structure RingState.Safe (s : RingState) : Prop where
  inside : ∀ b ∈ s.live, b.stop ≤ s.log.memLimit
  apart : s.live.Pairwise Block.Disjoint
  bound : s.log.memCurrent + s.log.memAvail ≤
    if s.wrapped then s.log.memCurrentFreeing else s.log.memLimit
  free : ∀ b ∈ s.live, ∀ x, s.log.memCurrent ≤ x → x < s.log.memCurrent + s.log.memAvail →
    x < b.off ∨ b.stop ≤ x

/-- The header that a wrap for `size` bytes writes lies in the log and meets no block. -/
def RingState.CycleSafe (s : RingState) (size : ℕ) : Prop :=
  s.log.nearEnd size = true → s.log.memCurrent + sizeofItemData ≤ s.log.memLimit ∧
    ∀ b ∈ s.live, b.Disjoint ⟨s.log.memCurrent, sizeofItemData⟩

/-- The bytes begin with the header of a record of `size` bytes that is not a cycle record. -/
def RecordOf (size : ℕ) (record : List UInt8) : Prop :=
  16 ≤ record.length ∧ Sized (write (fun _ => 0) 0 record) ⟨0, size⟩

def RingOk (s : RingState) : RingAction → Prop
  | .alloc size record => WrapOk s.log size ∧ RecordOf size record
  | .write b bytes => Sized (write s.log.mem b.off bytes) b
  | .clean => True

theorem Sized.shift {m m' : Mem} {o o' size : ℕ} (same : ∀ i < 16, m' (o' + i) = m (o + i))
    (h : Sized m ⟨o, size⟩) : Sized m' ⟨o', size⟩ := by
  obtain ⟨flags, -, total⟩ := header_shift same
  exact ⟨h.header, total.trans h.total, by rw [flags]; exact h.plain⟩

theorem RecordOf.sized {size o : ℕ} {record : List UInt8} (h : RecordOf size record) (m : Mem) :
    Sized (write m o record) ⟨o, size⟩ := by
  refine h.2.shift fun i hi => ?_
  have := h.1
  rw [write_inside (by omega), write_inside (by omega)]

/-! ## The invariant -/

structure RingInv (limit maxRequest : ℕ) (s : RingState) (lay : Layout) : Prop where
  log : LogInv s.log lay 0
  live : lay.live = s.live
  lap : s.wrapped = false ↔ s.log.Unwrapped
  limit : s.log.memLimit = limit
  size : ∀ b ∈ s.live, b.size ≤ maxRequest

section Steps

variable {limit maxRequest size : ℕ} {s t : RingState} {lay : Layout} {a : RingAction}
  {record bytes : List UInt8} {b : Block}

theorem RingInv.init (large : 35 ≤ limit) :
    RingInv limit maxRequest (.init limit) (.flat []) where
  log := memlogInit_inv large
  live := rfl
  lap := by simp [RingState.init, Memlog.Unwrapped, memlogInit]
  limit := rfl
  size := by simp [RingState.init]

theorem RingInv.safe (h : RingInv limit maxRequest s lay) : s.Safe where
  inside := fun b hb => by
    have := h.log.stop_le (h.live ▸ hb)
    omega
  apart := h.live ▸ h.log.pairwise
  bound := by
    have lap := h.lap
    cases lay with
    | flat live =>
      have unwrapped := FlatInv.unwrapped h.log
      rw [lap.2 unwrapped]
      exact le_of_eq unwrapped
    | wrapped tail old new =>
      have inv : WrappedInv s.log tail old new 0 := h.log
      have avail := inv.avail
      have room := inv.room
      have le := inv.oldTiles.le
      unfold Memlog.Unwrapped at lap
      cases wrapped : s.wrapped with
      | false =>
        have := lap.1 wrapped
        omega
      | true =>
        rw [if_pos rfl]
        omega
    | ended new => exact absurd (EndedInv.swept h.log) (by omega)
  free := fun b hb x hl hh => h.log.avail_free (h.live ▸ hb) hl hh

theorem RingInv.cycleSafe (h : RingInv limit maxRequest s lay) (wrapOk : WrapOk s.log size) :
    s.CycleSafe size := by
  intro near
  obtain ⟨live, rfl⟩ := h.log.flat_of_unwrapped (wrapOk near)
  have inv : FlatInv s.log live 0 := h.log
  have room := inv.room
  refine ⟨by simp only [sizeofItemData]; omega, fun b hb => Or.inl ?_⟩
  rw [← h.live] at hb
  exact (inv.tiles.mem hb).2.1

/-- An allocation leaves the log unwrapped exactly when it found it so and did not wrap it. -/
theorem memoryAllocate_unwrapped {l : Memlog} (h : LogInv l lay 0) (wrapOk : WrapOk l size)
    (small : l.memLimit < 2 ^ 32) :
    (memoryAllocate l size).1.Unwrapped ↔ l.Unwrapped ∧ l.nearEnd size = false := by
  obtain ⟨-, -, -, -, -, flat⟩ := h.turn wrapOk small
  have turned : (memoryAllocate l size).1.Unwrapped ↔ (l.turn size).Unwrapped := by
    unfold memoryAllocate Memlog.Unwrapped
    dsimp only
    split_ifs with short
    · rfl
    · dsimp only
      omega
  rw [turned]
  constructor
  · intro unwrapped
    obtain ⟨near, same⟩ := flat unwrapped
    exact ⟨same ▸ unwrapped, near⟩
  · rintro ⟨unwrapped, near⟩
    simpa [Memlog.turn, near] using unwrapped

theorem RingInv.alloc (h : RingInv limit maxRequest s lay) (small : limit < 2 ^ 32)
    (positive : 0 < size) (bounded : size ≤ maxRequest) (fits : record.length ≤ size)
    (wrapOk : WrapOk s.log size) (header : RecordOf size record) :
    ∃ lay', RingInv limit maxRequest (s.alloc size record) lay' := by
  have small : s.log.memLimit < 2 ^ 32 := h.limit ▸ small
  have unwrapped := memoryAllocate_unwrapped h.log wrapOk small
  have lap := h.lap
  have ghost : (s.wrapped || s.log.nearEnd size) = false ↔
      (memoryAllocate s.log size).1.Unwrapped := by
    rw [unwrapped, ← lap, Bool.or_eq_false_iff]
  rcases alloc : memoryAllocate s.log size with ⟨l, _ | o⟩
  · obtain ⟨lay', inv, live, -, limit'⟩ := memoryAllocate_none h.log wrapOk small alloc
    simp only [RingState.alloc, alloc] at ghost ⊢
    exact ⟨lay', inv, live.trans h.live, ghost, limit'.trans h.limit, h.size⟩
  · obtain ⟨lay', cut, -, limit'⟩ := memoryAllocate_some h.log wrapOk small positive alloc
    simp only [RingState.alloc, alloc] at ghost ⊢
    refine ⟨lay', cut.filled _ (fun x hx => write_outside (by omega)) (header.sized _),
      by rw [cut.live, h.live], ghost, limit'.trans h.limit, fun b hb => ?_⟩
    rcases List.mem_append.1 hb with hb | hb
    · exact h.size b hb
    · rw [List.mem_singleton.1 hb]
      exact bounded

theorem RingInv.write (h : RingInv limit maxRequest s lay) (hb : b ∈ s.live)
    (fits : bytes.length ≤ b.size) (sized : Sized (ByteMem.write s.log.mem b.off bytes) b) :
    RingInv limit maxRequest (s.write b bytes) lay := by
  refine { h with log := h.log.write_block (h.live ▸ hb) (fun x hx => write_outside ?_) sized }
  simp only [Block.stop] at hx
  omega

theorem RingInv.clean (h : RingInv limit maxRequest s lay) (small : limit < 2 ^ 32)
    (large : 16 * maxRequest ≤ limit) (guard : lruMaintainerGuard s.log = true) :
    ∃ t lay', s.clean = some t ∧ RingInv limit maxRequest t lay' := by
  obtain ⟨l, lay', gone, n, eq, inv, live, -, limit', passed, kept, unwrapped⟩ :=
    h.log.clean guard (h.limit ▸ small) fun b hb => by
      have := h.size b (h.live ▸ hb)
      have := h.limit
      omega
  have filtered : s.live.filter (fun b => ¬ Passed s.log.memCurrentFreeing n b) = lay'.live := by
    rw [← h.live, live, List.filter_append]
    rw [List.filter_eq_nil_iff.2 fun b hb => by simpa using show Passed _ _ _ from passed b hb, List.nil_append]
    refine List.filter_eq_self.2 fun b hb => decide_eq_true fun through => ?_
    have := (inv.sized hb).header
    have := through.1
    have := through.2
    rcases kept b hb with before | after
    · simp only [Block.stop] at *
      omega
    · simp only [Block.stop] at *
      omega
  refine ⟨_, lay', by rw [RingState.clean, eq]; rfl, inv, filtered.symm, ?_,
    limit'.trans h.limit, fun b hb => h.size b (List.mem_of_mem_filter hb)⟩
  rw [unwrapped, ← h.lap, Bool.and_eq_false_iff, decide_eq_false_iff_not, not_lt]

theorem RingInv.step (h : RingInv limit maxRequest s lay) (small : limit < 2 ^ 32)
    (large : 16 * maxRequest ≤ limit) (ok : RingOk s a)
    (step : ringStep maxRequest s a = some t) : ∃ lay', RingInv limit maxRequest t lay' := by
  cases a with
  | alloc size record =>
    simp only [ringStep, Option.ite_none_right_eq_some, Option.some.injEq] at step
    obtain ⟨⟨least, most, fits⟩, rfl⟩ := step
    exact h.alloc small (by omega) most fits ok.1 ok.2
  | write b bytes =>
    simp only [ringStep, Option.ite_none_right_eq_some, Option.some.injEq] at step
    obtain ⟨⟨hb, fits⟩, rfl⟩ := step
    exact ⟨lay, h.write hb fits ok⟩
  | clean =>
    simp only [ringStep, Option.ite_none_right_eq_some] at step
    obtain ⟨u, lay', eq, inv⟩ := h.clean small large step.1
    obtain rfl : u = t := Option.some.inj (eq.symm.trans step.2)
    exact ⟨lay', inv⟩

end Steps

/-! ## Runs -/

def RingGood (maxRequest : ℕ) (s : RingState) (a : RingAction) (t : RingState) : Prop :=
  RingOk s a ∧ ringStep maxRequest s a = some t

/-- Along every run in which no request wraps a wrapped log and every caller fills its block with
a record of its size, the blocks in use are disjoint and inside the log, `mem_avail` counts free
bytes only, the header of a wrap meets no block, and the cleaner returns. -/
theorem ring_safe {limit maxRequest : ℕ} {as : List RingAction} {s : RingState}
    (least : 34 ≤ maxRequest) (large : 16 * maxRequest ≤ limit) (small : limit < 2 ^ 32)
    (run : Run (RingGood maxRequest) (.init limit) as s) :
    s.Safe ∧ (∀ size record, RingOk s (.alloc size record) → s.CycleSafe size) ∧
      (lruMaintainerGuard s.log = true → ∃ t, ringStep maxRequest s .clean = some t) := by
  obtain ⟨lay, inv⟩ := run.invariant (fun s => ∃ lay, RingInv limit maxRequest s lay)
    (fun _ _ _ ⟨_, h⟩ ⟨ok, step⟩ => h.step small large ok step) ⟨_, .init (by omega)⟩
  refine ⟨inv.safe, fun size record ok => inv.cycleSafe ok.1, fun guard => ?_⟩
  obtain ⟨t, _, eq, _⟩ := inv.clean small large guard
  exact ⟨t, by rw [ringStep, if_pos guard, eq]⟩

def storedHeader (nsuffix : UInt8) (nbytes : ℕ) : List UInt8 :=
  le32 0 ++ le32 nbytes ++ [nsuffix, itemCas ||| itemStored, 1] ++ List.replicate 5 0

theorem ring_safe_one_alloc :
    ∃ s, Run (RingGood 1048576) (.init 16777216) [.alloc 316 (storedHeader 8 282)] s ∧ s.Safe := by
  have ok : RingOk (.init 16777216) (.alloc 316 (storedHeader 8 282)) :=
    ⟨by decide +kernel, by decide, by decide, by decide +kernel, by decide +kernel⟩
  have run : Run (RingGood 1048576) (.init 16777216) [.alloc 316 (storedHeader 8 282)]
      (RingState.alloc (.init 16777216) 316 (storedHeader 8 282)) := .one ⟨ok, rfl⟩
  exact ⟨_, run, (ring_safe (by decide) (by decide) (by decide) run).1⟩

/-- Twenty-one records fill the log, and the writer goes around once with the cleaner just ahead of
it.  Then a request of one megabyte wraps the wrapped log, and the next sweep, which frees the end
of the log, counts its bytes as available at `mem_base`. -/
def overlapTrace : List RingAction :=
  let set := RingAction.alloc 798900 (storedHeader 11 798863)
  List.replicate 21 set ++ [.clean, .clean] ++ List.replicate 6 set ++
    (List.replicate 4 (.clean :: List.replicate 3 set)).flatten ++ [.clean, set, set] ++
    [.alloc 1048576 (storedHeader 12 1048538), .clean, .alloc 316 (storedHeader 8 282)]

theorem ring_overlap :
    ∃ s, Run (fun s a t => ringStep 1048576 s a = some t) (.init 16777216) overlapTrace s ∧
      (∀ size record, .alloc size record ∈ overlapTrace → RecordOf size record) ∧ ¬ s.Safe := by
  have eval : (overlapTrace.foldlM (ringStep 1048576) (.init 16777216)).map
      (fun s => decide (s.live.Pairwise Block.Disjoint)) = some false := by
    decide +kernel
  obtain ⟨s, run, overlap⟩ := Option.map_eq_some_iff.1 eval
  refine ⟨s, .of_foldlM run, ?_, fun safe => of_decide_eq_false overlap safe.apart⟩
  intro size record member
  simp [overlapTrace] at member
  rcases member with ⟨rfl, rfl⟩ | ⟨rfl, rfl⟩ | ⟨rfl, rfl⟩ <;>
    exact ⟨by decide, by decide, by decide +kernel, by decide +kernel⟩

end LogMemcached

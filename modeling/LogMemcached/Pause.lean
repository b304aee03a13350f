import LogMemcached.Lib.Run

/-!
# Pausing the workers

`assoc_maintenance_thread` has the workers paused while `assoc_expand` replaces the hash table.
`pause_threads` takes `worker_hang_lock` and writes a byte to the pipe of each worker, who counts
itself in `init_count` and then has to wait for the lock.  When the call returns, no worker is left
at work.  A pause that overtakes a worker on its way out of the one before never returns.
-/

namespace LogMemcached

open Transition

/-- Where a worker is: in its event loop, told to register, counted but before `worker_hang_lock`,
or with that lock. -/
inductive RegisterPc
  | running
  | told
  | registered
  | hanging
deriving DecidableEq, Repr

/-- Where the pausing thread is: in `memcached_thread_init`, between two pauses, behind
`worker_hang_lock`, at the `i`-th `write`, in `wait_for_thread_registration`, or back from
`pause_threads`. -/
inductive PauserPc
  | starting
  | idle
  | locked
  | writing (i : ℕ)
  | waiting
  | paused
deriving DecidableEq, Repr

/-- The threads; `pipe` counts the bytes `p` that a worker has not read yet. -/
structure Threads (n : ℕ) where
  pauser : PauserPc
  initCount : ℕ
  pipe : Fin n → ℕ
  worker : Fin n → RegisterPc

/-- A step of the pausing thread, whose `write` to a pipe may fail, or of a worker. -/
inductive ThreadStep (n : ℕ)
  | pauser (sent : Bool)
  | worker (w : Fin n)

namespace Threads

variable {n : ℕ}

def init (n : ℕ) : Threads n := ⟨.starting, 0, fun _ => 0, fun _ => .told⟩

/-- Whether the pausing thread has `worker_hang_lock`. -/
def hangs (t : Threads n) : Bool :=
  match t.pauser with
  | .starting => false
  | .idle => false
  | _ => true

/-- Whether the pausing thread has `init_lock`, which a wait releases. -/
def initLocked (t : Threads n) : Bool :=
  match t.pauser with
  | .writing _ => true
  | _ => false

/-- The wait of `memcached_thread_init`, then `pause_threads` with `PAUSE_WORKER_THREADS` and with
`RESUME_WORKER_THREADS` again and again.  A lock that is taken and a count that is too small block. -/
def pause (t : Threads n) (sent : Bool) : Option (Threads n) :=
  match t.pauser with
  | .starting => if t.initCount < n then none else some { t with pauser := .idle }
  | .idle => if ∃ w, t.worker w = .hanging then none else some { t with pauser := .locked }
  | .locked => some { t with pauser := .writing 0, initCount := 0 }
  | .writing i =>
      if h : i < n then some { t with
        pauser := .writing (i + 1)
        pipe := Function.update t.pipe ⟨i, h⟩ (t.pipe ⟨i, h⟩ + sent.toNat) }
      else some { t with pauser := .waiting }
  | .waiting => if t.initCount < n then none else some { t with pauser := .paused }
  | .paused => some { t with pauser := .idle }

/-- A worker goes on to `pc` and leaves `k` bytes in its pipe. -/
def move (t : Threads n) (w : Fin n) (pc : RegisterPc) (k count : ℕ) : Threads n :=
  { t with
    initCount := count
    pipe := Function.update t.pipe w k
    worker := Function.update t.worker w pc }

/-- The read of a `p` and `register_thread_initialized`. -/
def register (t : Threads n) (w : Fin n) : Option (Threads n) :=
  match t.worker w with
  | .running => if t.pipe w = 0 then none else some (t.move w .told (t.pipe w - 1) t.initCount)
  | .told =>
      if t.initLocked then none
      else some (t.move w .registered (t.pipe w) (t.initCount + 1))
  | .registered =>
      if t.hangs ∨ ∃ v, t.worker v = .hanging then none
      else some (t.move w .hanging (t.pipe w) t.initCount)
  | .hanging => some (t.move w .running (t.pipe w) t.initCount)

def next (t : Threads n) : ThreadStep n → Option (Threads n)
  | .pauser sent => t.pause sent
  | .worker w => t.register w

def Step (t : Threads n) (a : ThreadStep n) (t' : Threads n) : Prop := t.next a = some t'

/-! ## The count -/

/-- Where a worker can be.  The workers of `late` were on their way out of a pause when the next one
began. -/
def Ok (t : Threads n) (late : Set (Fin n)) (w : Fin n) : Prop :=
  match t.pauser with
  | .starting => w ∉ late ∧ t.pipe w = 0
  | .idle => w ∉ late ∧ t.pipe w = 0 ∧ t.worker w ≠ .told
  | .locked => (w ∈ late → t.worker w = .registered) ∧ t.pipe w = 0 ∧
      t.worker w ≠ .told ∧ t.worker w ≠ .hanging
  | .writing i => (w ∈ late → t.worker w = .registered) ∧ t.worker w ≠ .hanging ∧
      (t.pipe w = 0 ∧ (t.worker w = .told → w < i) ∨ t.pipe w = 1 ∧ t.worker w ≠ .told ∧ w < i)
  | .waiting => (w ∈ late → t.worker w = .registered) ∧ t.worker w ≠ .hanging ∧
      (t.pipe w = 0 ∨ t.pipe w = 1 ∧ t.worker w ≠ .told)
  | .paused => w ∉ late ∧ t.pipe w = 0 ∧ t.worker w = .registered

/-- The workers that can have been counted since `init_count` was zero. -/
def Arrived (t : Threads n) (late : Set (Fin n)) (w : Fin n) : Prop :=
  match t.pauser with
  | .starting => t.worker w ≠ .told
  | .writing i => w ∉ late ∧ w < i ∧ t.worker w = .registered ∧ t.pipe w = 0
  | .waiting => w ∉ late ∧ t.worker w = .registered ∧ t.pipe w = 0
  | _ => True

structure Inv (t : Threads n) (late : Set (Fin n)) : Prop where
  ok : ∀ w, t.Ok late w
  counted : ∃ arrived : Finset (Fin n), t.initCount ≤ arrived.card ∧ ∀ w ∈ arrived, t.Arrived late w

variable {t t' : Threads n} {late : Set (Fin n)} {w : Fin n}

theorem Inv.init : (init n).Inv ∅ := ⟨fun w => ⟨id, rfl⟩, ∅, le_rfl, by simp⟩

/-- With a full count every worker has arrived. -/
theorem Inv.full (h : t.Inv late) (full : ¬t.initCount < n) (w : Fin n) : t.Arrived late w := by
  obtain ⟨arrived, count, all⟩ := h.counted
  have univ : arrived = Finset.univ := by
    rw [← Finset.card_eq_iff_eq_univ, Fintype.card_fin]
    exact (arrived.card_le_univ.trans_eq (Fintype.card_fin n)).antisymm ((not_lt.1 full).trans count)
  exact all w (univ ▸ Finset.mem_univ w)

/-- A step that counts nobody new and keeps those who have arrived. -/
theorem Inv.keeps (h : t.Inv late) (same : t'.initCount ≤ t.initCount) (ok : ∀ w, t'.Ok late w)
    (mono : ∀ w, t.Arrived late w → t'.Arrived late w) : t'.Inv late := by
  obtain ⟨arrived, count, all⟩ := h.counted
  exact ⟨ok, arrived, same.trans count, fun w mem => mono w (all w mem)⟩

/-! ## Steps -/

theorem Inv.pause {sent : Bool} (h : t.Inv late) (step : t.pause sent = some t') : t'.Inv late := by
  have ok := h.ok
  have all := h.full
  unfold Threads.pause at step
  cases pc : t.pauser <;> simp only [pc] at step <;> simp only [Ok, Arrived, pc] at ok all
  case starting =>
    split_ifs at step with few
    obtain rfl := Option.some.inj step
    exact h.keeps le_rfl (fun w => ⟨(ok w).1, (ok w).2, all few w⟩) fun _ _ => trivial
  case idle =>
    split_ifs at step with taken
    obtain rfl := Option.some.inj step
    refine h.keeps le_rfl (fun w => ?_) fun _ _ => trivial
    exact ⟨fun mem => absurd mem (ok w).1, (ok w).2.1, (ok w).2.2, fun hangs => taken ⟨w, hangs⟩⟩
  case locked =>
    obtain rfl := Option.some.inj step
    refine ⟨fun w => ?_, ∅, le_rfl, by simp⟩
    obtain ⟨behind, zero, told, hangs⟩ := ok w
    exact ⟨behind, hangs, .inl ⟨zero, fun at' => absurd at' told⟩⟩
  case writing i =>
    split_ifs at step with more <;> obtain rfl := Option.some.inj step
    · refine h.keeps le_rfl (fun w => ?_) fun w arrived => ?_
      · -- the pipe of the next worker is still empty
        by_cases next : w = ⟨i, more⟩
        · have := ok w
          subst next
          cases sent <;> simp_all [Ok]
        · obtain ⟨behind, hangs, bytes⟩ := ok w
          have (before : w.val < i) : w.val < i + 1 := Nat.lt_succ_of_lt before
          simp only [Ok, Function.update_of_ne next]
          tauto
      · simp only [Arrived, pc] at arrived ⊢
        have other : w ≠ ⟨i, more⟩ := Fin.ne_of_val_ne (ne_of_lt arrived.2.1)
        rw [Function.update_of_ne other]
        exact ⟨arrived.1, Nat.lt_succ_of_lt arrived.2.1, arrived.2.2⟩
    · refine h.keeps le_rfl (fun w => ?_) fun w arrived => ?_
      · obtain ⟨behind, hangs, bytes⟩ := ok w
        exact ⟨behind, hangs, bytes.imp And.left fun one => ⟨one.1, one.2.1⟩⟩
      · simp only [Arrived, pc] at arrived
        exact ⟨arrived.1, arrived.2.2⟩
  case waiting =>
    split_ifs at step with few
    obtain rfl := Option.some.inj step
    refine h.keeps le_rfl (fun w => ?_) fun _ _ => trivial
    exact ⟨(all few w).1, (all few w).2.2, (all few w).2.1⟩
  case paused =>
    obtain rfl := Option.some.inj step
    refine h.keeps le_rfl (fun w => ⟨(ok w).1, (ok w).2.1, ?_⟩) fun _ _ => trivial
    rw [(ok w).2.2]
    decide

section Move

variable {pc : RegisterPc} {k count : ℕ} {v : Fin n}

@[simp] theorem move_pauser : (t.move w pc k count).pauser = t.pauser := rfl

@[simp] theorem move_worker : (t.move w pc k count).worker w = pc := Function.update_self ..

@[simp] theorem move_pipe : (t.move w pc k count).pipe w = k := Function.update_self ..

theorem ok_other (other : v ≠ w) : (t.move w pc k count).Ok late v ↔ t.Ok late v := by
  simp only [Ok, Threads.move, Function.update_of_ne other]

theorem arrived_other (other : v ≠ w) :
    (t.move w pc k count).Arrived late v ↔ t.Arrived late v := by
  simp only [Arrived, Threads.move, Function.update_of_ne other]

theorem Inv.move_ok (h : t.Inv late) (ok : (t.move w pc k count).Ok late w) (v : Fin n) :
    (t.move w pc k count).Ok late v := by
  by_cases same : v = w
  · exact same ▸ ok
  · exact (ok_other same).2 (h.ok v)

/-- A move that counts nobody. -/
theorem Inv.move (h : t.Inv late) (ok : (t.move w pc k t.initCount).Ok late w)
    (arrives : t.Arrived late w → (t.move w pc k t.initCount).Arrived late w) :
    (t.move w pc k t.initCount).Inv late := by
  refine h.keeps le_rfl (h.move_ok ok) fun v arrived => ?_
  by_cases same : v = w
  · exact same ▸ arrives (same ▸ arrived)
  · exact (arrived_other same).2 arrived

end Move

theorem Inv.register (h : t.Inv late) (step : t.register w = some t') : t'.Inv late := by
  have ok := h.ok w
  unfold Threads.register at step
  cases pc : t.worker w with
  | running =>
    simp only [pc] at step
    split_ifs at step with nothing
    obtain rfl := Option.some.inj step
    apply h.move <;> cases at' : t.pauser <;> simp_all [Ok, Arrived]
  | told =>
    simp only [pc] at step
    split_ifs at step with writes
    obtain rfl := Option.some.inj step
    obtain ⟨arrived, count, all⟩ := h.counted
    have new : w ∉ arrived := fun mem => by
      have := all w mem
      cases at' : t.pauser <;> simp_all [Ok, Arrived, Threads.initLocked]
    refine ⟨h.move_ok ?_, insert w arrived, ?_, fun v mem => ?_⟩
    · cases at' : t.pauser <;> simp_all [Ok, Threads.initLocked]
    · rw [Finset.card_insert_of_notMem new]
      exact Nat.succ_le_succ count
    · obtain rfl | mem := Finset.mem_insert.1 mem
      · cases at' : t.pauser <;> simp_all [Ok, Arrived, Threads.initLocked]
      · have other : v ≠ w := fun eq => new (eq ▸ mem)
        exact (arrived_other other).2 (all v mem)
  | registered =>
    simp only [pc] at step
    split_ifs at step with taken
    obtain rfl := Option.some.inj step
    apply h.move <;> cases at' : t.pauser <;> simp_all [Ok, Arrived, Threads.hangs]
  | hanging =>
    simp only [pc] at step
    obtain rfl := Option.some.inj step
    apply h.move <;> cases at' : t.pauser <;> simp_all [Ok, Arrived]

theorem Inv.step {a : ThreadStep n} (h : t.Inv late) (step : t.Step a t') : t'.Inv late := by
  cases a with
  | pauser sent => exact h.pause step
  | worker w => exact h.register step

/-- While the hash table is replaced no worker is at work. -/
theorem paused_alone {as : List (ThreadStep n)} (run : Run Step (init n) as t)
    (paused : t.pauser = .paused) (w : Fin n) : t.worker w = .registered ∧ t.register w = none := by
  have h := run.invariant (Inv · ∅) (fun _ _ _ h step => h.step step) .init
  have ok := h.ok w
  simp only [Ok, paused] at ok
  refine ⟨ok.2.2, ?_⟩
  simp only [Threads.register, ok.2.2, Threads.hangs, paused]
  simp

/-- A pause that has `worker_hang_lock` before a worker has come out of the last one never returns. -/
theorem overtaking_pause_never_returns {as bs : List (ThreadStep n)} {t₁ : Threads n}
    (run : Run Step (init n) as t) (locked : t.pauser = .locked) (behind : t.worker w = .registered)
    (rest : Run Step t bs t₁) : t₁.pauser ≠ .paused := by
  have h := run.invariant (Inv · ∅) (fun _ _ _ h step => h.step step) .init
  have first : t.Inv {w} := by
    obtain ⟨arrived, count, -⟩ := h.counted
    refine ⟨fun v => ?_, arrived, count, fun v _ => by simp only [Arrived, locked]⟩
    have ok := h.ok v
    simp only [Ok, locked] at ok ⊢
    exact ⟨fun same => same ▸ behind, ok.2⟩
  have last := (rest.invariant (Inv · {w}) (fun _ _ _ h step => h.step step) first).ok w
  intro paused
  simp [Ok, paused] at last

/-- One worker: it registers and goes to work, then it is paused. -/
def pausing : List (ThreadStep 1) :=
  [.worker 0, .pauser true, .worker 0, .worker 0, .pauser true, .pauser true, .pauser true,
    .pauser true, .worker 0, .worker 0, .pauser true]

theorem paused_alone_one : ∃ t, Run Step (init 1) pausing t ∧ t.pauser = .paused ∧
    t.worker 0 = .registered ∧ t.register 0 = none := by
  have eval : (pausing.foldlM next (init 1)).map Threads.pauser = some .paused := by decide
  obtain ⟨t, run, paused⟩ := Option.map_eq_some_iff.1 eval
  have run : Run Step (init 1) pausing t := Run.of_foldlM run
  exact ⟨t, run, paused, paused_alone run paused 0⟩

/-- The worker has not come out of the pause when the next one begins. -/
def overtaking : List (ThreadStep 1) := pausing ++ List.replicate 2 (.pauser true)

theorem overtaking_pause_one : ∃ t t', Run Step (init 1) overtaking t ∧ t.pauser = .locked ∧
    t.worker 0 = .registered ∧ Run Step t (List.replicate 3 (.pauser true)) t' ∧
    t'.pauser ≠ .paused := by
  have eval : (overtaking.foldlM next (init 1)).bind (fun t =>
      ((List.replicate 3 (ThreadStep.pauser true)).foldlM next t).map fun _ =>
        (t.pauser, t.worker 0)) = some (.locked, .registered) := by
    decide
  obtain ⟨t, run, eval⟩ := Option.bind_eq_some_iff.1 eval
  obtain ⟨t', rest, eq⟩ := Option.map_eq_some_iff.1 eval
  obtain ⟨locked, behind⟩ := Prod.mk.inj eq
  have run : Run Step (init 1) overtaking t := Run.of_foldlM run
  have rest : Run Step t (List.replicate 3 (.pauser true)) t' := Run.of_foldlM rest
  exact ⟨t, t', run, locked, behind, rest,
    overtaking_pause_never_returns run locked behind rest⟩

end Threads

end LogMemcached

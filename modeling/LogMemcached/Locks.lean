import LogMemcached.Lib.Run

/-!
# Locks of workers and cleaner

`memlog_lock` and the item locks of `thread.c`, with every acquisition and every release as a step
of its own.  A worker that updates an item takes the lock of its bucket and then, in `do_item_alloc`,
the lock of the log; the cleaner takes the lock of the log and then, for every record of an item, the
lock of its bucket.
-/

namespace LogMemcached

open Transition

/-- `memlog_lock` and the elements of `item_locks`. -/
inductive Lock
  | memlog
  | item (bucket : ℕ)
deriving DecidableEq, Repr

/-- Where a thread is between two steps on a lock.  `attempts` counts the calls of `memlog_alloc` that
`do_item_alloc` still makes, and `buckets` the records that the cleaner still visits. -/
inductive Pc
  /-- Outside of the operations below. -/
  | idle
  /-- In front of `item_lock`. -/
  | itemLock (bucket attempts : ℕ)
  /-- Under the item lock, in front of the next `memlog_alloc` or of `item_unlock`. -/
  | locked (bucket attempts : ℕ)
  /-- In `memlog_alloc` under an item lock. -/
  | inMemlog (bucket attempts : ℕ)
  /-- In `item_alloc`, which holds no item lock, in front of the next `memlog_alloc`. -/
  | alloc (attempts : ℕ)
  /-- In `memlog_alloc` without an item lock. -/
  | inAlloc (attempts : ℕ)
  /-- In front of the lock of `do_memlog_clean`. -/
  | clean (buckets : List ℕ)
  /-- In `memlog_free_chunk`, in front of the next `item_lock` or of the unlock. -/
  | cleaning (buckets : List ℕ)
  /-- In `memlog_free_item` between `item_lock` and `item_unlock`. -/
  | freeing (bucket : ℕ) (buckets : List ℕ)
deriving DecidableEq, Repr

/-- A call of `pthread_mutex_lock` or `pthread_mutex_unlock`. -/
inductive LockStep
  | acquire (lock : Lock)
  | release (lock : Lock)
deriving DecidableEq, Repr

namespace Pc

def step : Pc → Option (LockStep × Pc)
  | idle => none
  | itemLock b n => some (.acquire (.item b), locked b n)
  | locked b 0 => some (.release (.item b), idle)
  | locked b (n + 1) => some (.acquire .memlog, inMemlog b n)
  | inMemlog b n => some (.release .memlog, locked b n)
  | alloc 0 => none
  | alloc (n + 1) => some (.acquire .memlog, inAlloc n)
  | inAlloc n => some (.release .memlog, alloc n)
  | clean bs => some (.acquire .memlog, cleaning bs)
  | cleaning [] => some (.release .memlog, idle)
  | cleaning (b :: bs) => some (.acquire (.item b), freeing b bs)
  | freeing b bs => some (.release (.item b), cleaning bs)

def done : Pc → Bool
  | idle => true
  | alloc 0 => true
  | _ => false

def wants (pc : Pc) : Option Lock :=
  match pc.step with
  | some (.acquire lock, _) => some lock
  | _ => none

def held : Pc → List Lock
  | locked b _ => [.item b]
  | inMemlog b _ => [.item b, .memlog]
  | inAlloc _ => [.memlog]
  | cleaning _ => [.memlog]
  | freeing b _ => [.memlog, .item b]
  | _ => []

/-- The buckets that a cleaner under `memlog_lock` will still lock. -/
def ahead : Pc → List ℕ
  | cleaning bs => bs
  | freeing _ bs => bs
  | _ => []

def isCleaner : Pc → Bool
  | clean _ => true
  | cleaning _ => true
  | freeing _ _ => true
  | _ => false

end Pc

inductive Thread (T : Type)
  | worker (t : T)
  | maintainer
deriving DecidableEq

/-- The operations, with the bucket of their key and the number of attempts of `do_item_alloc`, or
the buckets of the records that are freed. -/
inductive LockOp
  | itemTouch (bucket attempts : ℕ)
  | storeItem (bucket attempts : ℕ)
  | addDelta (bucket attempts : ℕ)
  | itemGet (bucket : ℕ)
  | itemRemove (bucket : ℕ)
  | itemAlloc (attempts : ℕ)
  | memlogClean (buckets : List ℕ)
deriving DecidableEq, Repr

def LockOp.start : LockOp → Pc
  | itemTouch b n => .itemLock b n
  | storeItem b n => .itemLock b n
  | addDelta b n => .itemLock b n
  | itemGet b => .itemLock b 0
  | itemRemove b => .itemLock b 0
  | itemAlloc n => .alloc n
  | memlogClean bs => .clean bs

/-- Workers run all operations but the cleaning, and `do_item_alloc` tries three times at most. -/
def LockOp.runsOn {T : Type} : LockOp → Thread T → Bool
  | itemTouch _ n, .worker _ => n ≤ 3
  | storeItem _ n, .worker _ => n ≤ 3
  | addDelta _ n, .worker _ => n ≤ 3
  | itemGet _, .worker _ => true
  | itemRemove _, .worker _ => true
  | itemAlloc n, .worker _ => n ≤ 3
  | memlogClean _, .maintainer => true
  | _, _ => false

structure LockState (T : Type) where
  pc : Thread T → Pc
  owner : Lock → Option (Thread T)

/-- An idle thread starts an operation, or a thread takes its next step on a lock. -/
inductive LockAction (T : Type)
  | start (th : Thread T) (op : LockOp)
  | advance (th : Thread T)

namespace LockState

variable {T : Type} [DecidableEq T]

def init : LockState T := ⟨fun _ => .idle, fun _ => none⟩

def next (s : LockState T) : LockAction T → Option (LockState T)
  | .start th op =>
      if (s.pc th).done && op.runsOn th then some { s with pc := Function.update s.pc th op.start }
      else none
  | .advance th =>
      match (s.pc th).step with
      | none => none
      | some (.acquire lock, pc) =>
          if s.owner lock = none then
            some ⟨Function.update s.pc th pc, Function.update s.owner lock (some th)⟩
          else none
      | some (.release lock, pc) =>
          some ⟨Function.update s.pc th pc, Function.update s.owner lock none⟩

omit [DecidableEq T] in
/-- A set of threads each of which holds a lock that another of them is waiting for. -/
def Deadlocked (s : LockState T) : Prop :=
  ∃ threads : Finset (Thread T), threads.Nonempty ∧ ∀ th ∈ threads, ∃ th' ∈ threads, th' ≠ th ∧
    ∃ lock, s.owner lock = some th ∧ (s.pc th').wants = some lock

/-- The condition under which no lock cycle arises: a worker that will allocate does not lock a
bucket that a running cleaner has ahead of it, and the cleaner does not start while a worker that
will allocate holds the lock of a bucket on its way. -/
def Clear (s : LockState T) : LockAction T → Prop
  | .start _ _ => True
  | .advance (.worker t) => ∀ b n, s.pc (.worker t) = .itemLock b (n + 1) →
      b ∉ (s.pc .maintainer).ahead
  | .advance .maintainer => ∀ bs, s.pc .maintainer = .clean bs →
      ∀ t b n, s.pc (.worker t) = .locked b (n + 1) → b ∉ bs

end LockState

/-! ## What a step on a lock does -/

namespace Pc

variable {pc pc' : Pc} {lock : Lock}

theorem held_acquire (step : pc.step = some (.acquire lock, pc')) (other : Lock) :
    other ∈ pc'.held ↔ other = lock ∨ other ∈ pc.held := by
  cases pc with
  | idle => cases step
  | itemLock b n => cases step; simp [held]
  | locked b n => cases n <;> cases step; simp [held, or_comm]
  | inMemlog b n => cases step
  | alloc n => cases n <;> cases step; simp [held]
  | inAlloc n => cases step
  | clean bs => cases step; simp [held]
  | cleaning bs => cases bs <;> cases step; simp [held, or_comm]
  | freeing b bs => cases step

theorem held_release (step : pc.step = some (.release lock, pc')) (other : Lock) :
    other ∈ pc'.held ↔ other ∈ pc.held ∧ other ≠ lock := by
  cases pc with
  | idle => cases step
  | itemLock b n => cases step
  | locked b n => cases n <;> cases step; simp [held]
  | inMemlog b n => cases step; simp only [held]; aesop
  | alloc n => cases n <;> cases step
  | inAlloc n => cases step; simp [held]
  | clean bs => cases step
  | cleaning bs => cases bs <;> cases step; simp [held]
  | freeing b bs => cases step; simp only [held]; aesop

theorem mem_held_of_release (step : pc.step = some (.release lock, pc')) : lock ∈ pc.held := by
  cases pc with
  | locked b n => cases n <;> cases step; simp [held]
  | alloc n => cases n <;> cases step
  | cleaning bs => cases bs <;> cases step; simp [held]
  | _ => cases step <;> simp [held]

theorem isCleaner_step {what : LockStep} (step : pc.step = some (what, pc')) :
    pc' = idle ∨ pc'.isCleaner = pc.isCleaner := by
  cases pc with
  | idle => cases step
  | itemLock b n => cases step; exact Or.inr rfl
  | locked b n => cases n <;> cases step <;> first | exact Or.inl rfl | exact Or.inr rfl
  | inMemlog b n => cases step; exact Or.inr rfl
  | alloc n => cases n <;> cases step; exact Or.inr rfl
  | inAlloc n => cases step; exact Or.inr rfl
  | clean bs => cases step; exact Or.inr rfl
  | cleaning bs => cases bs <;> cases step <;> first | exact Or.inl rfl | exact Or.inr rfl
  | freeing b bs => cases step; exact Or.inr rfl

theorem held_of_done (finished : pc.done = true) : pc.held = [] := by
  cases pc with
  | idle => rfl
  | alloc n => rfl
  | _ => cases finished

theorem held_start (op : LockOp) : op.start.held = [] := by
  cases op <;> rfl

/-- A cleaner with buckets ahead holds `memlog_lock`. -/
theorem memlog_of_ahead {b : ℕ} (mem : b ∈ pc.ahead) : Lock.memlog ∈ pc.held := by
  cases pc with
  | cleaning bs => exact List.mem_cons_self
  | freeing b bs => exact List.mem_cons_self
  | _ => cases mem

/-- How a worker comes to hold an item lock in front of `memlog_alloc`. -/
theorem step_locked {what : LockStep} {b n : ℕ} (step : pc.step = some (what, locked b (n + 1))) :
    pc = itemLock b (n + 1) ∨ pc = inMemlog b (n + 1) := by
  cases pc with
  | idle => cases step
  | itemLock b n => cases step; exact Or.inl rfl
  | locked b n => cases n <;> cases step
  | inMemlog b n => cases step; exact Or.inr rfl
  | alloc n => cases n <;> cases step
  | inAlloc n => cases step
  | clean bs => cases step
  | cleaning bs => cases bs <;> cases step
  | freeing b bs => cases step

theorem ahead_step {what : LockStep} (step : pc.step = some (what, pc')) {b : ℕ}
    (mem : b ∈ pc'.ahead) : pc = clean pc'.ahead ∨ b ∈ pc.ahead := by
  cases pc with
  | idle => cases step
  | itemLock b n => cases step; cases mem
  | locked b n => cases n <;> cases step <;> cases mem
  | inMemlog b n => cases step; cases mem
  | alloc n => cases n <;> cases step; cases mem
  | inAlloc n => cases step; cases mem
  | clean bs => cases step; exact Or.inl rfl
  | cleaning bs =>
    cases bs with
    | nil => cases step; cases mem
    | cons b' bs => cases step; exact Or.inr (List.mem_cons_of_mem _ mem)
  | freeing b bs => cases step; exact Or.inr mem

theorem wants_item {b : ℕ} (wants : pc.wants = some (.item b)) (holds : pc.held ≠ []) :
    ∃ bs, pc = cleaning (b :: bs) := by
  cases pc with
  | itemLock b n => exact absurd rfl holds
  | locked b n => cases n <;> simp [Pc.wants, step] at wants
  | alloc n => cases n <;> simp [Pc.wants, step] at wants
  | cleaning bs =>
    cases bs with
    | nil => simp [Pc.wants, step] at wants
    | cons b' bs =>
      simp only [Pc.wants, step, Option.some.injEq, Lock.item.injEq] at wants
      exact ⟨bs, by rw [wants]⟩
  | _ => simp [Pc.wants, step] at wants

/-- A thread that waits for `memlog_lock` and holds a lock is a worker under an item lock. -/
theorem wants_memlog (wants : pc.wants = some .memlog) (holds : pc.held ≠ []) :
    ∃ b n, pc = locked b (n + 1) := by
  cases pc with
  | locked b n =>
    cases n with
    | zero => simp [Pc.wants, step] at wants
    | succ n => exact ⟨b, n, rfl⟩
  | alloc n => exact absurd rfl holds
  | clean bs => exact absurd rfl holds
  | cleaning bs => cases bs <;> simp [Pc.wants, step] at wants
  | _ => simp [Pc.wants, step] at wants

end Pc

/-! ## Runs -/

namespace LockState

variable {T : Type} [DecidableEq T] {s s' : LockState T} {a : LockAction T}

omit [DecidableEq T] in
/-- The locks belong to the threads that hold them, the cleaning runs on the maintainer only, and no
worker waits for `memlog_lock` under the lock of a bucket that the cleaner has ahead of it. -/
structure Orderly (s : LockState T) : Prop where
  owners : ∀ lock th, s.owner lock = some th ↔ lock ∈ (s.pc th).held
  worker : ∀ t, (s.pc (.worker t)).isCleaner = false
  maintainer : s.pc .maintainer = .idle ∨ (s.pc .maintainer).isCleaner = true
  apart : ∀ t b n, s.pc (.worker t) = .locked b (n + 1) → b ∉ (s.pc .maintainer).ahead

omit [DecidableEq T] in
theorem Orderly.init : Orderly (init : LockState T) where
  owners _ _ := by simp [LockState.init, Pc.held]
  worker _ := rfl
  maintainer := Or.inl rfl
  apart _ _ _ contra := by cases contra

theorem Orderly.moved {th : Thread T} {pc : Pc} {owner : Lock → Option (Thread T)}
    (h : Orderly s)
    (owners : ∀ lock other, owner lock = some other ↔
      lock ∈ (Function.update s.pc th pc other).held)
    (part : ∀ t, th = .worker t → pc.isCleaner = false)
    (role : th = .maintainer → pc = .idle ∨ pc.isCleaner = true)
    (locked : ∀ t b n, th = .worker t → pc = .locked b (n + 1) → b ∉ (s.pc .maintainer).ahead)
    (way : th = .maintainer → ∀ t b n, s.pc (.worker t) = .locked b (n + 1) → b ∉ pc.ahead) :
    Orderly ⟨Function.update s.pc th pc, owner⟩ where
  owners := owners
  worker t := by
    dsimp only
    by_cases here : Thread.worker t = th
    · rw [← here, Function.update_self]
      exact part t here.symm
    · rw [Function.update_of_ne here]
      exact h.worker t
  maintainer := by
    dsimp only
    by_cases here : Thread.maintainer = th
    · rw [← here, Function.update_self]
      exact role here.symm
    · rw [Function.update_of_ne here]
      exact h.maintainer
  apart t b n := by
    dsimp only
    by_cases mine : Thread.worker t = th
    · have other : Thread.maintainer ≠ th := by rw [← mine]; rintro ⟨⟩
      rw [← mine, Function.update_self, mine, Function.update_of_ne other]
      exact fun at_locked => locked t b n mine.symm at_locked
    · rw [Function.update_of_ne mine]
      by_cases cleaner : Thread.maintainer = th
      · rw [← cleaner, Function.update_self]
        exact way cleaner.symm t b n
      · rw [Function.update_of_ne cleaner]
        exact h.apart t b n

theorem Orderly.started (h : Orderly s) {th : Thread T} {op : LockOp}
    (run : s.next (.start th op) = some s') : Orderly s' := by
  simp only [next] at run
  split_ifs at run with enabled
  obtain rfl := Option.some.inj run
  rw [Bool.and_eq_true] at enabled
  obtain ⟨finished, allowed⟩ := enabled
  apply h.moved
  · intro lock other
    rw [h.owners]
    by_cases here : other = th
    · rw [here, Function.update_self, Pc.held_start, Pc.held_of_done finished]
    · rw [Function.update_of_ne here]
  · rintro t rfl
    cases op <;> first | rfl | cases allowed
  · rintro rfl
    cases op <;> first | exact Or.inr rfl | cases allowed
  · rintro t b n - at_locked
    cases op <;> cases at_locked
  · rintro rfl t b n - mem
    cases op <;> cases mem

theorem Orderly.stepped {th : Thread T} {what : LockStep} {pc : Pc}
    {owner : Lock → Option (Thread T)} (h : Orderly s) (clear : s.Clear (.advance th))
    (step : (s.pc th).step = some (what, pc))
    (owners : ∀ lock other, owner lock = some other ↔
      lock ∈ (Function.update s.pc th pc other).held) :
    Orderly ⟨Function.update s.pc th pc, owner⟩ := by
  apply h.moved owners
  · rintro t rfl
    rcases Pc.isCleaner_step step with rfl | same
    · rfl
    · rw [same, h.worker t]
  · rintro rfl
    rcases Pc.isCleaner_step step with idle | same
    · exact Or.inl idle
    · refine Or.inr (same.trans (h.maintainer.resolve_left fun idle => ?_))
      rw [idle] at step
      cases step
  · rintro t b n rfl rfl mem
    rcases Pc.step_locked step with waiting | allocating
    · exact clear b n waiting mem
    · -- the worker and the cleaner would both own the lock of the log
      have worker := (h.owners .memlog (.worker t)).2 (by rw [allocating]; simp [Pc.held])
      have cleaner := (h.owners .memlog .maintainer).2 (Pc.memlog_of_ahead mem)
      rw [worker] at cleaner
      cases cleaner
  · rintro rfl t b n at_locked mem
    rcases Pc.ahead_step step mem with starting | mem
    · exact clear _ starting t b n at_locked mem
    · exact h.apart t b n at_locked mem

theorem Orderly.advanced (h : Orderly s) {th : Thread T} (clear : s.Clear (.advance th))
    (run : s.next (.advance th) = some s') : Orderly s' := by
  simp only [next] at run
  rcases step : (s.pc th).step with _ | ⟨lock | lock, pc⟩
  · simp [step] at run
  · simp only [step] at run
    split_ifs at run with free
    obtain rfl := Option.some.inj run
    refine h.stepped clear step fun lock' other => ?_
    by_cases here : lock' = lock
    · rw [here, Function.update_self]
      by_cases mine : other = th
      · rw [mine, Function.update_self, Pc.held_acquire step]
        simp
      · rw [Function.update_of_ne mine, ← h.owners, free]
        simp [Ne.symm mine]
    · rw [Function.update_of_ne here, h.owners]
      by_cases mine : other = th
      · rw [mine, Function.update_self, Pc.held_acquire step, or_iff_right here]
      · rw [Function.update_of_ne mine]
  · simp only [step] at run
    obtain rfl := Option.some.inj run
    refine h.stepped clear step fun lock' other => ?_
    by_cases here : lock' = lock
    · rw [here, Function.update_self]
      refine ⟨(fun contra => by cases contra), fun mem => ?_⟩
      by_cases mine : other = th
      · rw [mine, Function.update_self, Pc.held_release step] at mem
        exact absurd rfl mem.2
      · rw [Function.update_of_ne mine, ← h.owners] at mem
        have owned := (h.owners lock th).2 (Pc.mem_held_of_release step)
        rw [mem] at owned
        exact absurd (Option.some.inj owned) mine
    · rw [Function.update_of_ne here, h.owners]
      by_cases mine : other = th
      · rw [mine, Function.update_self, Pc.held_release step, and_iff_left here]
      · rw [Function.update_of_ne mine]

omit [DecidableEq T] in
/-- In an orderly state every thread that waits while it holds a lock is either the cleaner or a
worker in front of `memlog_alloc`, and the two do not block each other. -/
theorem Orderly.not_deadlocked (h : Orderly s) : ¬s.Deadlocked := by
  rintro ⟨threads, ⟨th, mem⟩, blocked⟩
  have holds : ∀ th ∈ threads, (s.pc th).held ≠ [] := fun th mem => by
    obtain ⟨-, -, -, lock, owned, -⟩ := blocked th mem
    exact List.ne_nil_of_mem ((h.owners lock th).1 owned)
  -- a member that waits for an item lock is the maintainer
  have waits_item : ∀ th ∈ threads, ∀ b, (s.pc th).wants = some (.item b) →
      th = .maintainer ∧ b ∈ (s.pc .maintainer).ahead := by
    intro th mem b wants
    obtain ⟨bs, at_cleaning⟩ := Pc.wants_item wants (holds th mem)
    cases th with
    | worker t =>
      have := h.worker t
      rw [at_cleaning] at this
      cases this
    | maintainer => exact ⟨rfl, by rw [at_cleaning]; exact List.mem_cons_self⟩
  -- no member waits for the lock of the log
  have waits_memlog : ∀ th ∈ threads, (s.pc th).wants ≠ some .memlog := by
    intro th mem wants
    obtain ⟨b, n, at_locked⟩ := Pc.wants_memlog wants (holds th mem)
    obtain ⟨th', mem', -, lock, owned, wants'⟩ := blocked th mem
    have lockEq : lock = .item b := by
      have := (h.owners lock th).1 owned
      rw [at_locked] at this
      simpa [Pc.held] using this
    rw [lockEq] at wants'
    obtain ⟨-, ahead⟩ := waits_item th' mem' b wants'
    cases th with
    | worker t => exact h.apart t b n at_locked ahead
    | maintainer =>
      rcases h.maintainer with idle | cleaner
      · rw [idle] at at_locked
        cases at_locked
      · rw [at_locked] at cleaner
        cases cleaner
  -- so every member is waited for by the maintainer, also the maintainer itself
  have only : ∀ th ∈ threads, Thread.maintainer ∈ threads ∧ th ≠ .maintainer := by
    intro th mem
    obtain ⟨th', mem', ne, lock, -, wants⟩ := blocked th mem
    cases lock with
    | memlog => exact absurd wants (waits_memlog th' mem')
    | item b =>
      obtain ⟨rfl, -⟩ := waits_item th' mem' b wants
      exact ⟨mem', Ne.symm ne⟩
  exact (only _ (only th mem).1).2 rfl

/-- In every run whose steps are clear, of any number of workers and the cleaner, no state has a
lock cycle. -/
theorem no_lock_cycle {as : List (LockAction T)}
    (run : Run (fun s a s' => s.Clear a ∧ s.next a = some s') init as s) : ¬s.Deadlocked := by
  refine Orderly.not_deadlocked (run.invariant Orderly (fun s a s' orderly step => ?_) .init)
  cases a with
  | start th op => exact orderly.started step.2
  | advance th => exact orderly.advanced step.1 step.2

/-- A `touch` in bucket 7 with one attempt, and a cleaning that visits bucket 8. -/
theorem no_lock_cycle_apart : ∃ s : LockState Unit,
    Run (fun s a s' => s.Clear a ∧ s.next a = some s') init
      [.start (.worker ()) (.itemTouch 7 1), .advance (.worker ()),
        .start .maintainer (.memlogClean [8]), .advance .maintainer] s ∧ ¬s.Deadlocked := by
  have run : Run (fun (s : LockState Unit) a s' => s.Clear a ∧ s.next a = some s') init
      [.start (.worker ()) (.itemTouch 7 1), .advance (.worker ()),
        .start .maintainer (.memlogClean [8]), .advance .maintainer] _ :=
    .cons ⟨trivial, rfl⟩ (.cons ⟨by rintro b n -; exact List.not_mem_nil, rfl⟩
      (.cons ⟨trivial, rfl⟩ (.cons ⟨by rintro bs ⟨⟩ t b n ⟨⟩; decide, rfl⟩ (.nil _))))
  exact ⟨_, run, no_lock_cycle run⟩

/-- A worker in `item_touch` holds the lock of bucket 7 and waits for `memlog_lock`, which the
cleaner holds while it waits for the lock of bucket 7. -/
theorem touch_and_cleaner_deadlock : ∃ s : LockState Unit,
    Run (fun s a s' => s.next a = some s') init
      [.start (.worker ()) (.itemTouch 7 1), .advance (.worker ()),
        .start .maintainer (.memlogClean [7]), .advance .maintainer] s ∧ s.Deadlocked := by
  refine ⟨_, .cons rfl (.cons rfl (.cons rfl (.cons rfl (.nil _)))),
    {.worker (), .maintainer}, by simp, ?_⟩
  intro th mem
  rw [Finset.mem_insert, Finset.mem_singleton] at mem
  rcases mem with rfl | rfl
  · exact ⟨.maintainer, by simp, by simp, .item 7, by decide, by decide⟩
  · exact ⟨.worker (), by simp, by simp, .memlog, by decide, by decide⟩

end LockState

end LogMemcached

import LogMemcached.Lib.Run
import LogMemcached.Network

/-!
# The hand-off of connections to worker threads

`thread.c`: the main thread hands a new connection to a worker with `dispatch_conn_new`, a side thread
gives one back with `redispatch_conn`.  Both put an item on the worker's queue and then write one byte
to its pipe; the worker reads a byte and then takes one item.  Queue, pipe and freelist are each
under a lock or atomic, but no two of them together, so every access is a step of its own.
-/

namespace LogMemcached

open Transition

/-! ## State -/

/-- A `CQ_ITEM`, without its link.  A connection is a number. -/
structure CqItem where
  sfd : ℤ
  initState : ConnState
  eventFlags : ℤ
  readBufferSize : ℤ
  transport : Transport
  c : ℕ
deriving DecidableEq, Repr

/-- The bytes `'c'` and `'r'`. -/
inductive Notice
  | conn | redispatch
deriving DecidableEq, Repr

/-- What is written to a worker's pipe at once: a notice, `'p'`, or `'t'` and a descriptor. -/
inductive PipeMsg
  | item (kind : Notice)
  | pause
  | timeout (fd : ℕ)
deriving DecidableEq, Repr

/-- A call of `dispatch_conn_new`, or of `redispatch_conn` with the fields of the connection that it
reads. -/
inductive Request
  | dispatchConnNew (sfd : ℤ) (initState : ConnState) (eventFlags readBufferSize : ℤ)
      (transport : Transport)
  | redispatchConn (c : ℕ) (sfd : ℤ) (thread : ℕ)
deriving DecidableEq, Repr

inductive Call
  | connNew (sfd : ℤ) (initState : ConnState) (eventFlags readBufferSize : ℤ)
      (transport : Transport)
  | connWorkerReadd (c : ℕ)
deriving DecidableEq, Repr

namespace Request

def kind : Request → Notice
  | dispatchConnNew .. => .conn
  | redispatchConn .. => .redispatch

/-- The stores into an item; what it held before stays in the other fields. -/
def fill (item : CqItem) : Request → CqItem
  | dispatchConnNew sfd initState eventFlags readBufferSize transport =>
      { item with sfd, initState, eventFlags, readBufferSize, transport }
  | redispatchConn c sfd _ => { item with sfd, initState := .newCmd, c }

def call : Request → Call
  | dispatchConnNew sfd initState eventFlags readBufferSize transport =>
      .connNew sfd initState eventFlags readBufferSize transport
  | redispatchConn c _ _ => .connWorkerReadd c

end Request

/-- The branch of `thread_libevent_process` that a byte selects. -/
def Notice.call (item : CqItem) : Notice → Call
  | conn => .connNew item.sfd item.initState item.eventFlags item.readBufferSize item.transport
  | redispatch => .connWorkerReadd item.c

inductive ProducerPc
  | idle
  /-- In `cqi_new`, in front of `malloc`. -/
  | allocating (req : Request)
  /-- With an item of its own, in front of `cq_push`. -/
  | holding (req : Request) (item : ℕ)
  /-- In front of the `write` to the pipe of a worker. -/
  | notifying (worker : ℕ) (kind : Notice)
deriving DecidableEq, Repr

/-- Where a worker is in `thread_libevent_process`. -/
inductive WorkerPc
  | idle
  | woken (msg : PipeMsg)
  | holding (kind : Notice) (item : ℕ)
deriving DecidableEq, Repr

/-- A `LIBEVENT_THREAD`.  `pushed` and `handled` are history: the requests in the order of their
pushes, and what the worker did with the items it took. -/
structure LibeventThread where
  queue : List ℕ
  pipe : List PipeMsg
  pc : WorkerPc
  pushed : List Request
  handled : List Call
deriving DecidableEq, Repr

inductive Party (S : Type)
  | main
  | side (s : S)
deriving DecidableEq

/-- The threads, `cqi_freelist` and the items; `nextItem` is the first address that `malloc` has not
given out. -/
structure Handoff (S : Type) where
  numThreads : ℕ
  lastThread : ℤ
  items : ℕ → CqItem
  freelist : List ℕ
  nextItem : ℕ
  threads : ℕ → LibeventThread
  producer : Party S → ProducerPc

/-- The steps.  `malloc` has the contents of the new memory, or `none` when it fails, and `signal` is
a write of another thread that no item goes with. -/
inductive HandoffAction (S : Type)
  | start (p : Party S) (req : Request)
  | malloc (p : Party S) (memory : Option CqItem)
  | push (p : Party S)
  | write (p : Party S) (ok : Bool)
  | signal (w : ℕ) (msg : PipeMsg)
  | read (w : ℕ)
  | pop (w : ℕ)
  | handle (w : ℕ)

/-- `ITEMS_PER_ALLOC`. -/
def itemsPerAlloc : ℕ := 64

def PipeMsg.kind? : PipeMsg → Option Notice
  | item kind => some kind
  | _ => none

/-- `dispatch_conn_new` runs on the main thread, `redispatch_conn` on the others. -/
def Request.runsOn {S : Type} : Request → Party S → Bool
  | dispatchConnNew .., .main => true
  | redispatchConn .., .side _ => true
  | _, _ => false

namespace Handoff

variable {S : Type} [DecidableEq S]

def init (numThreads : ℕ) : Handoff S where
  numThreads
  lastThread := -1
  items _ := ⟨0, .newCmd, 0, 0, .tcp, 0⟩
  freelist := []
  nextItem := 0
  threads _ := ⟨[], [], .idle, [], []⟩
  producer _ := .idle

/-- The worker a request goes to: the next one in turn, or the one of the connection. -/
def target (st : Handoff S) : Request → ℕ
  | .dispatchConnNew .. => ((st.lastThread + 1) % st.numThreads).toNat
  | .redispatchConn _ _ thread => thread

/-- `last_thread` after a request. -/
def turned (st : Handoff S) : Request → ℤ
  | .dispatchConnNew .. => (st.lastThread + 1) % st.numThreads
  | .redispatchConn .. => st.lastThread

def setProducer (st : Handoff S) (p : Party S) (pc : ProducerPc) : Handoff S :=
  { st with producer := Function.update st.producer p pc }

def setThread (st : Handoff S) (w : ℕ) (t : LibeventThread) : Handoff S :=
  { st with threads := Function.update st.threads w t }

/-- One step; `none` when the thread is elsewhere. -/
def next (st : Handoff S) : HandoffAction S → Option (Handoff S)
  | .start p req =>
      if st.producer p = .idle ∧ req.runsOn p then
        match st.freelist with
        | [] => some (st.setProducer p (.allocating req))
        | item :: rest => some { st.setProducer p (.holding req item) with freelist := rest }
      else none
  | .malloc p memory =>
      match st.producer p, memory with
      | .allocating _, none => some (st.setProducer p .idle)
      | .allocating req, some junk =>
          -- the first item is the caller's, the others go to the freelist
          some { st.setProducer p (.holding req st.nextItem) with
            items := fun id =>
              if st.nextItem ≤ id ∧ id < st.nextItem + itemsPerAlloc then junk else st.items id
            freelist := List.range' (st.nextItem + 1) (itemsPerAlloc - 1) ++ st.freelist
            nextItem := st.nextItem + itemsPerAlloc }
      | _, _ => none
  | .push p =>
      match st.producer p with
      | .holding req item =>
          let w := st.target req
          let t := st.threads w
          some { (st.setProducer p (.notifying w req.kind)).setThread w
              { t with queue := t.queue ++ [item], pushed := t.pushed ++ [req] } with
            lastThread := st.turned req
            items := Function.update st.items item (req.fill (st.items item)) }
      | _ => none
  | .write p ok =>
      match st.producer p with
      | .notifying w kind =>
          let t := st.threads w
          some ((st.setProducer p .idle).setThread w
            { t with pipe := if ok then t.pipe ++ [.item kind] else t.pipe })
      | _ => none
  | .signal w msg =>
      if msg.kind? = none then
        some (st.setThread w { st.threads w with pipe := (st.threads w).pipe ++ [msg] })
      else none
  | .read w =>
      let t := st.threads w
      match t.pc, t.pipe with
      | .idle, msg :: rest => some (st.setThread w { t with pc := .woken msg, pipe := rest })
      | _, _ => none
  | .pop w =>
      let t := st.threads w
      match t.pc, t.queue with
      | .woken (.item _), [] => some (st.setThread w { t with pc := .idle })
      | .woken (.item kind), item :: rest =>
          some (st.setThread w { t with pc := .holding kind item, queue := rest })
      | _, _ => none
  | .handle w =>
      let t := st.threads w
      match t.pc with
      | .woken .pause => some (st.setThread w { t with pc := .idle })
      | .woken (.timeout _) => some (st.setThread w { t with pc := .idle })
      | .holding kind item =>
          some { st.setThread w { t with
              pc := .idle
              handled := t.handled ++ [kind.call (st.items item)] } with
            freelist := item :: st.freelist }
      | _ => none

/-- Every worker handles the requests that were pushed for it in the order of their pushes, each by
its own action; none is taken twice, and none is left behind once the pipe is empty and no `write` is
outstanding. -/
structure Delivered (st : Handoff S) : Prop where
  order : ∀ w, (st.threads w).handled <+: (st.threads w).pushed.map Request.call
  once : ∀ w, (st.threads w).pushed.length = (st.threads w).handled.length +
    (match (st.threads w).pc with | .holding .. => 1 | _ => 0) + (st.threads w).queue.length
  all : ∀ w, (st.threads w).pipe = [] → (st.threads w).pc = .idle →
    (∀ p kind, st.producer p ≠ .notifying w kind) →
      (st.threads w).handled = (st.threads w).pushed.map Request.call

/-- The condition on a step: an item is pushed only while every thread that has pushed one for the
same worker and not written its byte yet is of the same kind, and no `write` fails. -/
def Uniform (st : Handoff S) : HandoffAction S → Prop
  | .push p => ∀ req item, st.producer p = .holding req item →
      ∀ p' kind, st.producer p' = .notifying (st.target req) kind → kind = req.kind
  | .write _ ok => ok = true
  | _ => True

def GoodStep (st : Handoff S) (a : HandoffAction S) (st' : Handoff S) : Prop :=
  st.Uniform a ∧ st.next a = some st'

end Handoff

/-! ## One worker -/

def Request.Fills (req : Request) (item : CqItem) : Prop := ∃ old, item = req.fill old

theorem Request.Fills.call {req : Request} {item : CqItem} (h : req.Fills item) :
    req.kind.call item = req.call := by
  obtain ⟨old, rfl⟩ := h
  cases req <;> rfl

theorem Request.fills_congr {items items' : ℕ → CqItem} {ids : List ℕ} {reqs : List Request}
    (h : List.Forall₂ (fun id req => req.Fills (items id)) ids reqs)
    (same : ∀ id ∈ ids, items' id = items id) :
    List.Forall₂ (fun id req => req.Fills (items' id)) ids reqs := by
  induction h with
  | nil => exact .nil
  | cons first _ ih =>
    apply List.Forall₂.cons
    · rw [same _ List.mem_cons_self]
      exact first
    · exact ih fun id mem => same id (List.mem_cons_of_mem _ mem)

def WorkerPc.due (items : ℕ → CqItem) : WorkerPc → List Call
  | .holding kind item => [kind.call (items item)]
  | _ => []

def WorkerPc.notices : WorkerPc → List Notice
  | .woken msg => msg.kind?.toList
  | _ => []

namespace LibeventThread

variable {t : LibeventThread} {items items' : ℕ → CqItem} {n : ℕ} {k : Notice}

/-- The requests on the queue are those not taken yet, and the notices on their way are theirs, in
the same order, up to the last `n`, which are all of the kind `k`. -/
def Matched (t : LibeventThread) (items : ℕ → CqItem) (n : ℕ) (k : Notice) : Prop :=
  ∃ waiting : List Request,
    t.pushed.map Request.call = t.handled ++ t.pc.due items ++ waiting.map Request.call ∧
    List.Forall₂ (fun item req => req.Fills (items item)) t.queue waiting ∧
    waiting.map Request.kind =
      t.pc.notices ++ t.pipe.filterMap PipeMsg.kind? ++ List.replicate n k

theorem Matched.congr (h : t.Matched items n k) (queue : ∀ id ∈ t.queue, items' id = items id)
    (hand : ∀ kind id, t.pc = .holding kind id → items' id = items id) : t.Matched items' n k := by
  obtain ⟨waiting, order, filled, notices⟩ := h
  refine ⟨waiting, ?_, ?_, notices⟩
  · rw [order]
    cases pc : t.pc with
    | holding kind id => rw [WorkerPc.due, WorkerPc.due, hand kind id pc]
    | _ => rfl
  · exact Request.fills_congr filled queue

theorem Matched.push {req : Request} {item : ℕ} (h : t.Matched items n k)
    (fills : req.Fills (items item)) (kind : n = 0 ∨ k = req.kind) :
    Matched { t with queue := t.queue ++ [item], pushed := t.pushed ++ [req] } items (n + 1)
      req.kind := by
  obtain ⟨waiting, order, filled, notices⟩ := h
  refine ⟨waiting ++ [req], ?_, ?_, ?_⟩
  · simp only [List.map_append, order, List.append_assoc]
  · exact List.rel_append filled (.cons fills .nil)
  · have same : List.replicate n k = List.replicate n req.kind := by
      rcases kind with rfl | rfl <;> rfl
    rw [List.map_append, notices, same, List.replicate_succ', List.append_assoc]
    rfl

theorem Matched.write (h : t.Matched items (n + 1) k) :
    Matched { t with pipe := t.pipe ++ [.item k] } items n k := by
  obtain ⟨waiting, order, filled, notices⟩ := h
  refine ⟨waiting, order, filled, ?_⟩
  rw [notices, List.filterMap_append, List.replicate_succ]
  simp [PipeMsg.kind?]

theorem Matched.signal {msg : PipeMsg} (h : t.Matched items n k) (other : msg.kind? = none) :
    Matched { t with pipe := t.pipe ++ [msg] } items n k := by
  obtain ⟨waiting, order, filled, notices⟩ := h
  refine ⟨waiting, order, filled, ?_⟩
  rw [notices, List.filterMap_append]
  simp [other]

theorem Matched.read {msg : PipeMsg} {rest : List PipeMsg} (h : t.Matched items n k)
    (idle : t.pc = .idle) (pipe : t.pipe = msg :: rest) :
    Matched { t with pc := .woken msg, pipe := rest } items n k := by
  obtain ⟨waiting, order, filled, notices⟩ := h
  rw [idle] at order notices
  refine ⟨waiting, order, filled, ?_⟩
  rw [notices, pipe]
  cases msg <;> rfl

/-- A worker that has read a notice finds an item, and the item is of the kind it has read. -/
theorem Matched.pop {kind : Notice} (h : t.Matched items n k) (woken : t.pc = .woken (.item kind)) :
    ∃ item rest, t.queue = item :: rest ∧
      Matched { t with pc := .holding kind item, queue := rest } items n k := by
  obtain ⟨waiting, order, filled, notices⟩ := h
  rw [woken] at order notices
  cases waiting with
  | nil => cases notices
  | cons req waiting =>
    cases queue : t.queue with
    | nil =>
      rw [queue] at filled
      cases filled
    | cons item rest =>
      rw [queue] at filled
      cases filled with
      | cons first filled =>
        have notices : req.kind :: waiting.map Request.kind =
            kind :: (t.pipe.filterMap PipeMsg.kind? ++ List.replicate n k) := notices
        obtain ⟨rfl, later⟩ := List.cons.inj notices
        refine ⟨item, rest, rfl, waiting, ?_, filled, later⟩
        rw [order]
        simp [WorkerPc.due, first.call]

theorem Matched.handle {kind : Notice} {item : ℕ} (h : t.Matched items n k)
    (holding : t.pc = .holding kind item) :
    Matched { t with pc := .idle, handled := t.handled ++ [kind.call (items item)] } items n k := by
  obtain ⟨waiting, order, filled, notices⟩ := h
  rw [holding] at order notices
  refine ⟨waiting, ?_, filled, notices⟩
  rw [order]
  simp [WorkerPc.due]

theorem Matched.skip {msg : PipeMsg} (h : t.Matched items n k) (woken : t.pc = .woken msg)
    (other : msg.kind? = none) : Matched { t with pc := .idle } items n k := by
  obtain ⟨waiting, order, filled, notices⟩ := h
  rw [woken] at order notices
  refine ⟨waiting, order, filled, ?_⟩
  rw [notices]
  simp [WorkerPc.notices, other]

end LibeventThread

/-! ## Runs -/

namespace Handoff

variable {S : Type} [DecidableEq S] {st st' : Handoff S} {p : Party S} {w : ℕ}

theorem setProducer_self (pc : ProducerPc) : (st.setProducer p pc).producer p = pc :=
  Function.update_self ..

theorem setProducer_other {p' : Party S} (other : p' ≠ p) (pc : ProducerPc) :
    (st.setProducer p pc).producer p' = st.producer p' :=
  Function.update_of_ne other ..

omit [DecidableEq S] in
theorem setThread_self (t : LibeventThread) : (st.setThread w t).threads w = t :=
  Function.update_self ..

omit [DecidableEq S] in
theorem setThread_other {w' : ℕ} (other : w' ≠ w) (t : LibeventThread) :
    (st.setThread w t).threads w' = st.threads w' :=
  Function.update_of_ne other ..

omit [DecidableEq S] in
/-- The threads of `l` are those that have pushed an item for the worker and not written their byte
yet, and they are all of one kind. -/
structure Pending (st : Handoff S) (w : ℕ) (l : List (Party S)) (k : Notice) : Prop where
  nodup : l.Nodup
  iff : ∀ p kind, st.producer p = .notifying w kind ↔ p ∈ l ∧ kind = k

theorem Pending.setProducer {l : List (Party S)} {k : Notice} {pc : ProducerPc}
    (h : Pending st w l k) (before : ∀ w kind, st.producer p ≠ .notifying w kind)
    (after : ∀ w kind, pc ≠ .notifying w kind) : Pending (st.setProducer p pc) w l k := by
  refine ⟨h.nodup, fun p' kind => ?_⟩
  by_cases here : p' = p
  · rw [here, setProducer_self, ← h.iff]
    exact ⟨fun eq => absurd eq (after w kind), fun eq => absurd eq (before w kind)⟩
  · rw [setProducer_other here, h.iff]

theorem Pending.push {l : List (Party S)} {k kind : Notice} (h : Pending st w l k)
    (elsewhere : p ∉ l) (uniform : ∀ p ∈ l, k = kind) :
    Pending (st.setProducer p (.notifying w kind)) w (p :: l) kind := by
  refine ⟨List.nodup_cons.2 ⟨elsewhere, h.nodup⟩, fun p' kind' => ?_⟩
  by_cases here : p' = p
  · rw [here, setProducer_self]
    simp [eq_comm]
  · rw [setProducer_other here, h.iff, List.mem_cons]
    constructor
    · rintro ⟨mem, rfl⟩
      exact ⟨.inr mem, uniform p' mem⟩
    · rintro ⟨mem, rfl⟩
      have mem := mem.resolve_left here
      exact ⟨mem, (uniform p' mem).symm⟩

theorem Pending.write {l : List (Party S)} {k : Notice} (h : Pending st w l k) :
    Pending (st.setProducer p .idle) w (l.erase p) k := by
  refine ⟨h.nodup.erase p, fun p' kind' => ?_⟩
  rw [h.nodup.mem_erase_iff]
  by_cases here : p' = p
  · rw [here, setProducer_self]
    simp
  · rw [setProducer_other here, h.iff]
    simp [here]

inductive Place (S : Type)
  | unused
  | free
  | made (p : Party S)
  | queued (w : ℕ)
  | taken (w : ℕ)

omit [DecidableEq S] in
structure Placed (st : Handoff S) (place : ℕ → Place S) : Prop where
  free : ∀ id ∈ st.freelist, place id = .free
  made : ∀ p req id, st.producer p = .holding req id → place id = .made p
  queued : ∀ w, ∀ id ∈ (st.threads w).queue, place id = .queued w
  taken : ∀ w kind id, (st.threads w).pc = .holding kind id → place id = .taken w
  unused : ∀ id, st.nextItem ≤ id → place id = .unused
  once : st.freelist.Nodup
  onceQueued : ∀ w, (st.threads w).queue.Nodup

variable {place : ℕ → Place S} {id : ℕ} {dest : Place S}

omit [DecidableEq S] in
theorem Placed.carry (h : Placed st place)
    (free : ∀ k ∈ st'.freelist, k = id ∧ dest = .free ∨ k ≠ id ∧ k ∈ st.freelist)
    (made : ∀ p req k, st'.producer p = .holding req k →
      k = id ∧ dest = .made p ∨ k ≠ id ∧ st.producer p = .holding req k)
    (queued : ∀ w, ∀ k ∈ (st'.threads w).queue,
      k = id ∧ dest = .queued w ∨ k ≠ id ∧ k ∈ (st.threads w).queue)
    (taken : ∀ w kind k, (st'.threads w).pc = .holding kind k →
      k = id ∧ dest = .taken w ∨ k ≠ id ∧ (st.threads w).pc = .holding kind k)
    (used : place id ≠ .unused) (next : st'.nextItem = st.nextItem) (once : st'.freelist.Nodup)
    (onceQueued : ∀ w, (st'.threads w).queue.Nodup) : Placed st' (Function.update place id dest) where
  free k mem := by
    rcases free k mem with ⟨rfl, rfl⟩ | ⟨other, old⟩
    · exact Function.update_self ..
    · exact (Function.update_of_ne other ..).trans (h.free k old)
  made p req k holds := by
    rcases made p req k holds with ⟨rfl, rfl⟩ | ⟨other, old⟩
    · exact Function.update_self ..
    · exact (Function.update_of_ne other ..).trans (h.made p req k old)
  queued w k mem := by
    rcases queued w k mem with ⟨rfl, rfl⟩ | ⟨other, old⟩
    · exact Function.update_self ..
    · exact (Function.update_of_ne other ..).trans (h.queued w k old)
  taken w kind k holds := by
    rcases taken w kind k holds with ⟨rfl, rfl⟩ | ⟨other, old⟩
    · exact Function.update_self ..
    · exact (Function.update_of_ne other ..).trans (h.taken w kind k old)
  unused k beyond := by
    have old := h.unused k (next ▸ beyond)
    rw [Function.update_of_ne, old]
    rintro rfl
    exact used old
  once := once
  onceQueued := onceQueued

structure Inv (st : Handoff S) (place : ℕ → Place S) : Prop where
  placed : Placed st place
  matched : ∀ w, ∃ l k, Pending st w l k ∧ (st.threads w).Matched st.items l.length k

omit [DecidableEq S] in
theorem Placed.setThread {t : LibeventThread} (h : Placed st place)
    (queue : t.queue = (st.threads w).queue)
    (hand : ∀ kind id, t.pc = .holding kind id → (st.threads w).pc = .holding kind id) :
    Placed (st.setThread w t) place where
  free := h.free
  made := h.made
  queued w' id mem := by
    by_cases here : w' = w
    · rw [here, setThread_self, queue] at mem
      exact here ▸ h.queued w id mem
    · rw [setThread_other here] at mem
      exact h.queued w' id mem
  taken w' kind id holds := by
    by_cases here : w' = w
    · rw [here, setThread_self] at holds
      exact here ▸ h.taken w kind id (hand kind id holds)
    · rw [setThread_other here] at holds
      exact h.taken w' kind id holds
  unused := h.unused
  once := h.once
  onceQueued w' := by
    by_cases here : w' = w
    · rw [here, setThread_self, queue]
      exact h.onceQueued w
    · rw [setThread_other here]
      exact h.onceQueued w'

theorem Placed.setProducer {pc : ProducerPc} (h : Placed st place)
    (empty : ∀ req id, pc ≠ .holding req id) : Placed (st.setProducer p pc) place where
  free := h.free
  made p' req id holds := by
    by_cases here : p' = p
    · rw [here, setProducer_self] at holds
      exact absurd holds (empty req id)
    · rw [setProducer_other here] at holds
      exact h.made p' req id holds
  queued := h.queued
  taken := h.taken
  unused := h.unused
  once := h.once
  onceQueued := h.onceQueued

omit [DecidableEq S] in
theorem Inv.setThread {t : LibeventThread} (h : Inv st place)
    (queue : t.queue = (st.threads w).queue)
    (hand : ∀ kind id, t.pc = .holding kind id → (st.threads w).pc = .holding kind id)
    (matched : ∀ n k, (st.threads w).Matched st.items n k → t.Matched st.items n k) :
    Inv (st.setThread w t) place where
  placed := h.placed.setThread queue hand
  matched w' := by
    obtain ⟨l, k, pending, old⟩ := h.matched w'
    refine ⟨l, k, ⟨pending.nodup, pending.iff⟩, ?_⟩
    by_cases here : w' = w
    · rw [here] at old ⊢
      rw [setThread_self]
      exact matched _ _ old
    · rw [setThread_other here]
      exact old

/-- A thread that is not in front of its `write` before or after moves without an item. -/
theorem Inv.setProducer {pc : ProducerPc} (h : Inv st place)
    (before : ∀ w kind, st.producer p ≠ .notifying w kind)
    (after : ∀ w kind, pc ≠ .notifying w kind) (empty : ∀ req id, pc ≠ .holding req id) :
    Inv (st.setProducer p pc) place where
  placed := h.placed.setProducer empty
  matched w := by
    obtain ⟨l, k, pending, matched⟩ := h.matched w
    exact ⟨l, k, pending.setProducer before after, matched⟩

/-! ## Steps -/

variable {req : Request} {kind : Notice}

theorem Inv.take {rest : List ℕ} (h : Inv st place) (idle : st.producer p = .idle)
    (free : st.freelist = id :: rest) :
    Inv { st.setProducer p (.holding req id) with freelist := rest }
      (Function.update place id (.made p)) := by
  have here : place id = .free := h.placed.free id (by rw [free]; exact List.mem_cons_self)
  obtain ⟨new, nodup⟩ := List.nodup_cons.1 (free ▸ h.placed.once)
  refine ⟨h.placed.carry ?_ ?_ ?_ ?_ ?_ rfl nodup h.placed.onceQueued, fun w => ?_⟩
  · intro k mem
    refine .inr ⟨fun same => new (same ▸ mem), ?_⟩
    rw [free]
    exact List.mem_cons_of_mem _ mem
  · intro p' req' k holds
    dsimp only at holds
    by_cases mine : p' = p
    · rw [mine, setProducer_self] at holds
      cases holds
      exact .inl ⟨rfl, by rw [mine]⟩
    · rw [setProducer_other mine] at holds
      refine .inr ⟨?_, holds⟩
      rintro rfl
      cases here.symm.trans (h.placed.made p' req' k holds)
  · intro w k mem
    refine .inr ⟨?_, mem⟩
    rintro rfl
    cases here.symm.trans (h.placed.queued w k mem)
  · intro w kind k holds
    refine .inr ⟨?_, holds⟩
    rintro rfl
    cases here.symm.trans (h.placed.taken w kind k holds)
  · rw [here]
    rintro ⟨⟩
  · obtain ⟨l, k, pending, matched⟩ := h.matched w
    have pending : Pending (st.setProducer p (.holding req id)) w l k :=
      pending.setProducer (by rw [idle]; rintro _ _ ⟨⟩) (by rintro _ _ ⟨⟩)
    exact ⟨l, k, ⟨pending.nodup, pending.iff⟩, matched⟩

omit [DecidableEq S] in
theorem Placed.lt (h : Placed st place) (used : place id ≠ .unused) : id < st.nextItem := by
  by_contra beyond
  exact used (h.unused id (not_lt.1 beyond))

theorem Inv.allocate {junk : CqItem} (h : Inv st place) (waits : st.producer p = .allocating req) :
    ∃ place', Inv { st.setProducer p (.holding req st.nextItem) with
      items := fun id =>
        if st.nextItem ≤ id ∧ id < st.nextItem + itemsPerAlloc then junk else st.items id
      freelist := List.range' (st.nextItem + 1) (itemsPerAlloc - 1) ++ st.freelist
      nextItem := st.nextItem + itemsPerAlloc } place' := by
  set n := st.nextItem
  have old {k : ℕ} (used : place k ≠ .unused) : k < n := h.placed.lt used
  refine ⟨fun k => if k < n then place k else if k = n then .made p else
    if k < n + itemsPerAlloc then .free else .unused, ⟨?_, ?_, ?_, ?_, ?_, ?_, ?_⟩, fun w => ?_⟩
  · intro k mem
    dsimp only at mem ⊢
    rcases List.mem_append.1 mem with new | mem
    · obtain ⟨i, bound, rfl⟩ := List.mem_range'.1 new
      unfold itemsPerAlloc at bound ⊢
      rw [if_neg (by omega), if_neg (by omega), if_pos (by omega)]
    · have free := h.placed.free k mem
      rw [if_pos (old (by rw [free]; rintro ⟨⟩)), free]
  · intro p' req' k holds
    dsimp only at holds ⊢
    by_cases mine : p' = p
    · rw [mine, setProducer_self] at holds
      cases holds
      rw [if_neg (lt_irrefl _), if_pos rfl, mine]
    · rw [setProducer_other mine] at holds
      have made := h.placed.made p' req' k holds
      rw [if_pos (old (by rw [made]; rintro ⟨⟩)), made]
  · intro w k mem
    have queued := h.placed.queued w k mem
    rw [if_pos (old (by rw [queued]; rintro ⟨⟩)), queued]
  · intro w kind k holds
    have taken := h.placed.taken w kind k holds
    rw [if_pos (old (by rw [taken]; rintro ⟨⟩)), taken]
  · intro k beyond
    dsimp only at beyond ⊢
    unfold itemsPerAlloc at beyond ⊢
    rw [if_neg (by omega), if_neg (by omega), if_neg (by omega)]
  · apply List.Nodup.append List.nodup_range' h.placed.once
    intro k new mem
    obtain ⟨i, bound, rfl⟩ := List.mem_range'.1 new
    have free := h.placed.free _ mem
    have := old (k := n + 1 + 1 * i) (by rw [free]; rintro ⟨⟩)
    omega
  · exact h.placed.onceQueued
  · obtain ⟨l, k, pending, matched⟩ := h.matched w
    have pending : Pending (st.setProducer p (.holding req n)) w l k :=
      pending.setProducer (by rw [waits]; rintro _ _ ⟨⟩) (by rintro _ _ ⟨⟩)
    refine ⟨l, k, ⟨pending.nodup, pending.iff⟩, matched.congr (fun id mem => ?_) fun kind id holds => ?_⟩
    · have queued := h.placed.queued w id mem
      exact if_neg fun new => absurd (old (by rw [queued]; rintro ⟨⟩)) (not_lt.2 new.1)
    · have taken := h.placed.taken w kind id holds
      exact if_neg fun new => absurd (old (by rw [taken]; rintro ⟨⟩)) (not_lt.2 new.1)

theorem Inv.push {last : ℤ} (h : Inv st place) (holds : st.producer p = .holding req id)
    (uniform : ∀ p' kind, st.producer p' = .notifying w kind → kind = req.kind) :
    Inv { (st.setProducer p (.notifying w req.kind)).setThread w
        { st.threads w with
          queue := (st.threads w).queue ++ [id]
          pushed := (st.threads w).pushed ++ [req] } with
      lastThread := last
      items := Function.update st.items id (req.fill (st.items id)) }
      (Function.update place id (.queued w)) := by
  have here : place id = .made p := h.placed.made p req id holds
  have notQueued (w' : ℕ) : id ∉ (st.threads w').queue := fun mem => by
    cases here.symm.trans (h.placed.queued w' id mem)
  have notTaken (w' : ℕ) (kind : Notice) : (st.threads w').pc ≠ .holding kind id := fun taken => by
    cases here.symm.trans (h.placed.taken w' kind id taken)
  refine ⟨h.placed.carry ?_ ?_ ?_ ?_ ?_ rfl h.placed.once ?_, fun w' => ?_⟩
  · intro k mem
    refine .inr ⟨?_, mem⟩
    rintro rfl
    cases here.symm.trans (h.placed.free k mem)
  · intro p' req' k holds'
    dsimp only [Handoff.setThread] at holds'
    by_cases mine : p' = p
    · rw [mine, setProducer_self] at holds'
      cases holds'
    · rw [setProducer_other mine] at holds'
      refine .inr ⟨?_, holds'⟩
      rintro rfl
      have := here.symm.trans (h.placed.made p' req' k holds')
      exact mine (Place.made.inj this).symm
  · intro w' k mem
    dsimp only at mem
    by_cases same : w' = w
    · rw [same, setThread_self] at mem
      rcases List.mem_append.1 mem with mem | mem
      · exact .inr ⟨fun eq => notQueued w (eq ▸ mem), same ▸ mem⟩
      · exact .inl ⟨List.mem_singleton.1 mem, by rw [same]⟩
    · rw [setThread_other same] at mem
      exact .inr ⟨fun eq => notQueued w' (eq ▸ mem), mem⟩
  · intro w' kind k taken
    dsimp only at taken
    have taken : (st.threads w').pc = .holding kind k := by
      by_cases same : w' = w
      · rw [same, setThread_self] at taken
        exact same ▸ taken
      · rw [setThread_other same] at taken
        exact taken
    exact .inr ⟨fun eq => notTaken w' kind (eq ▸ taken), taken⟩
  · rw [here]
    rintro ⟨⟩
  · intro w'
    dsimp only
    by_cases same : w' = w
    · rw [same, setThread_self]
      exact List.nodup_append'.2 ⟨h.placed.onceQueued w, List.nodup_singleton id,
        List.disjoint_singleton.2 (notQueued w)⟩
    · rw [setThread_other same]
      exact h.placed.onceQueued w'
  · obtain ⟨l, k, pending, matched⟩ := h.matched w'
    have elsewhere : p ∉ l := fun mem => by
      have := (pending.iff p k).2 ⟨mem, rfl⟩
      rw [holds] at this
      cases this
    -- the new contents of the item are nobody else's
    have matched : (st.threads w').Matched
        (Function.update st.items id (req.fill (st.items id))) l.length k := by
      apply matched.congr
      · intro k mem
        have other : k ≠ id := fun eq => notQueued w' (eq ▸ mem)
        exact Function.update_of_ne other ..
      · intro kind k taken
        have other : k ≠ id := fun eq => notTaken w' kind (eq ▸ taken)
        exact Function.update_of_ne other ..
    by_cases same : w' = w
    · subst same
      have kinds : ∀ p ∈ l, k = req.kind := fun p mem =>
        uniform p k ((pending.iff p k).2 ⟨mem, rfl⟩)
      have pending := pending.push elsewhere kinds
      refine ⟨p :: l, req.kind, ⟨pending.nodup, pending.iff⟩, ?_⟩
      dsimp only
      rw [setThread_self]
      apply matched.push
      · rw [Function.update_self]
        exact ⟨_, rfl⟩
      · cases l with
        | nil => exact .inl rfl
        | cons p' l => exact .inr (kinds p' List.mem_cons_self)
    · refine ⟨l, k, ⟨pending.nodup, fun p' kind => ?_⟩, ?_⟩
      · rw [← pending.iff]
        dsimp only [Handoff.setThread]
        by_cases mine : p' = p
        · rw [mine, setProducer_self, holds]
          simp [Ne.symm same]
        · rw [setProducer_other mine]
      · dsimp only
        rw [setThread_other same]
        exact matched

theorem Inv.write (h : Inv st place) (notifies : st.producer p = .notifying w kind) :
    Inv ((st.setProducer p .idle).setThread w
      { st.threads w with pipe := (st.threads w).pipe ++ [.item kind] }) place := by
  refine ⟨(h.placed.setProducer (by rintro _ _ ⟨⟩)).setThread rfl fun _ _ holds => holds,
    fun w' => ?_⟩
  obtain ⟨l, k, pending, matched⟩ := h.matched w'
  by_cases same : w' = w
  · subst same
    obtain ⟨mem, rfl⟩ := (pending.iff p kind).1 notifies
    have written : Pending (st.setProducer p .idle) w' (l.erase p) kind := pending.write
    refine ⟨l.erase p, kind, ⟨written.nodup, written.iff⟩, ?_⟩
    rw [setThread_self, List.length_erase_of_mem mem]
    apply LibeventThread.Matched.write
    rw [Nat.sub_add_cancel (List.length_pos_of_mem mem)]
    exact matched
  · refine ⟨l, k, ⟨pending.nodup, fun p' kind' => ?_⟩, ?_⟩
    · rw [← pending.iff]
      change (st.setProducer p .idle).producer p' = _ ↔ _
      by_cases mine : p' = p
      · rw [mine, setProducer_self, notifies]
        simp [Ne.symm same]
      · rw [setProducer_other mine]
    · rw [setThread_other same]
      exact matched

omit [DecidableEq S] in
theorem Inv.pop {rest : List ℕ} (h : Inv st place) (woken : (st.threads w).pc = .woken (.item kind))
    (queue : (st.threads w).queue = id :: rest) :
    Inv (st.setThread w { st.threads w with pc := .holding kind id, queue := rest })
      (Function.update place id (.taken w)) := by
  have here : place id = .queued w := h.placed.queued w id (by rw [queue]; exact List.mem_cons_self)
  obtain ⟨new, nodup⟩ := List.nodup_cons.1 (queue ▸ h.placed.onceQueued w)
  refine ⟨h.placed.carry ?_ ?_ ?_ ?_ ?_ rfl h.placed.once ?_, fun w' => ?_⟩
  · intro k mem
    refine .inr ⟨?_, mem⟩
    rintro rfl
    cases here.symm.trans (h.placed.free k mem)
  · intro p req k holds
    refine .inr ⟨?_, holds⟩
    rintro rfl
    cases here.symm.trans (h.placed.made p req k holds)
  · intro w' k mem
    by_cases same : w' = w
    · rw [same, setThread_self] at mem
      refine .inr ⟨fun eq => new (eq ▸ mem), ?_⟩
      rw [same, queue]
      exact List.mem_cons_of_mem _ mem
    · rw [setThread_other same] at mem
      refine .inr ⟨?_, mem⟩
      rintro rfl
      exact same (Place.queued.inj (here.symm.trans (h.placed.queued w' k mem))).symm
  · intro w' kind' k taken
    by_cases same : w' = w
    · rw [same, setThread_self] at taken
      cases taken
      exact .inl ⟨rfl, by rw [same]⟩
    · rw [setThread_other same] at taken
      refine .inr ⟨?_, taken⟩
      rintro rfl
      cases here.symm.trans (h.placed.taken w' kind' k taken)
  · rw [here]
    rintro ⟨⟩
  · intro w'
    by_cases same : w' = w
    · rw [same, setThread_self]
      exact nodup
    · rw [setThread_other same]
      exact h.placed.onceQueued w'
  · obtain ⟨l, k, pending, matched⟩ := h.matched w'
    refine ⟨l, k, ⟨pending.nodup, pending.iff⟩, ?_⟩
    by_cases same : w' = w
    · subst same
      obtain ⟨id', rest', queue', popped⟩ := matched.pop woken
      obtain ⟨rfl, rfl⟩ := List.cons.inj (queue.symm.trans queue')
      rw [setThread_self]
      exact popped
    · rw [setThread_other same]
      exact matched

omit [DecidableEq S] in
theorem Inv.handle (h : Inv st place) (holds : (st.threads w).pc = .holding kind id) :
    Inv { st.setThread w { st.threads w with
        pc := .idle
        handled := (st.threads w).handled ++ [kind.call (st.items id)] } with
      freelist := id :: st.freelist } (Function.update place id .free) := by
  have here : place id = .taken w := h.placed.taken w kind id holds
  have notFree : id ∉ st.freelist := fun mem => by
    cases here.symm.trans (h.placed.free id mem)
  refine ⟨h.placed.carry ?_ ?_ ?_ ?_ ?_ rfl (List.nodup_cons.2 ⟨notFree, h.placed.once⟩) ?_,
    fun w' => ?_⟩
  · intro k mem
    rcases List.mem_cons.1 mem with rfl | mem
    · exact .inl ⟨rfl, rfl⟩
    · exact .inr ⟨fun eq => notFree (eq ▸ mem), mem⟩
  · intro p req k made
    refine .inr ⟨?_, made⟩
    rintro rfl
    cases here.symm.trans (h.placed.made p req k made)
  · intro w' k mem
    dsimp only at mem
    have old : k ∈ (st.threads w').queue := by
      by_cases same : w' = w
      · rw [same, setThread_self] at mem
        exact same ▸ mem
      · rw [setThread_other same] at mem
        exact mem
    refine .inr ⟨fun eq => ?_, old⟩
    cases here.symm.trans (eq ▸ h.placed.queued w' k old)
  · intro w' kind' k taken
    dsimp only at taken
    by_cases same : w' = w
    · rw [same, setThread_self] at taken
      cases taken
    · rw [setThread_other same] at taken
      refine .inr ⟨?_, taken⟩
      rintro rfl
      exact same (Place.taken.inj (here.symm.trans (h.placed.taken w' kind' k taken))).symm
  · rw [here]
    rintro ⟨⟩
  · intro w'
    dsimp only
    by_cases same : w' = w
    · rw [same, setThread_self]
      exact h.placed.onceQueued w
    · rw [setThread_other same]
      exact h.placed.onceQueued w'
  · obtain ⟨l, k, pending, matched⟩ := h.matched w'
    refine ⟨l, k, ⟨pending.nodup, pending.iff⟩, ?_⟩
    dsimp only
    by_cases same : w' = w
    · subst same
      rw [setThread_self]
      exact matched.handle holds
    · rw [setThread_other same]
      exact matched

theorem Inv.step {a : HandoffAction S} (h : Inv st place) (good : st.GoodStep a st') :
    ∃ place', Inv st' place' := by
  obtain ⟨uniform, run⟩ := good
  cases a with
  | start p req =>
    simp only [next] at run
    split_ifs at run with enabled
    cases free : st.freelist with
    | nil =>
      rw [free] at run
      obtain rfl := Option.some.inj run
      exact ⟨place, h.setProducer (by rw [enabled.1]; rintro _ _ ⟨⟩) (by rintro _ _ ⟨⟩)
        (by rintro _ _ ⟨⟩)⟩
    | cons id rest =>
      rw [free] at run
      obtain rfl := Option.some.inj run
      exact ⟨_, h.take enabled.1 free⟩
  | malloc p memory =>
    simp only [next] at run
    split at run
    · next waits =>
      obtain rfl := Option.some.inj run
      exact ⟨place, h.setProducer (by rw [waits]; rintro _ _ ⟨⟩) (by rintro _ _ ⟨⟩)
        (by rintro _ _ ⟨⟩)⟩
    · next waits =>
      obtain rfl := Option.some.inj run
      exact h.allocate waits
    · cases run
  | push p =>
    simp only [next] at run
    split at run
    · next holds =>
      obtain rfl := Option.some.inj run
      exact ⟨_, h.push holds (uniform _ _ holds)⟩
    · cases run
  | write p ok =>
    obtain rfl : ok = true := uniform
    simp only [next, if_true] at run
    split at run
    · next notifies =>
      obtain rfl := Option.some.inj run
      exact ⟨_, h.write notifies⟩
    · cases run
  | signal w msg =>
    simp only [next] at run
    split_ifs at run with other
    obtain rfl := Option.some.inj run
    exact ⟨place, h.setThread rfl (fun _ _ holds => holds) fun n k matched => matched.signal other⟩
  | read w =>
    simp only [next] at run
    split at run
    · next idle pipe =>
      obtain rfl := Option.some.inj run
      exact ⟨place, h.setThread rfl (by rintro _ _ ⟨⟩) fun n k matched => matched.read idle pipe⟩
    · cases run
  | pop w =>
    simp only [next] at run
    split at run
    · next woken empty =>
      -- a notice without an item does not occur
      obtain ⟨l, k, -, matched⟩ := h.matched w
      obtain ⟨id, rest, queue, -⟩ := matched.pop woken
      cases empty.symm.trans queue
    · next woken queue =>
      obtain rfl := Option.some.inj run
      exact ⟨_, h.pop woken queue⟩
    · cases run
  | handle w =>
    simp only [next] at run
    split at run
    · next woken =>
      obtain rfl := Option.some.inj run
      exact ⟨place, h.setThread rfl (by rintro _ _ ⟨⟩) fun n k matched => matched.skip woken rfl⟩
    · next woken =>
      obtain rfl := Option.some.inj run
      exact ⟨place, h.setThread rfl (by rintro _ _ ⟨⟩) fun n k matched => matched.skip woken rfl⟩
    · next holds =>
      obtain rfl := Option.some.inj run
      exact ⟨_, h.handle holds⟩
    · cases run

omit [DecidableEq S] in
theorem Inv.init (numThreads : ℕ) : Inv (init numThreads : Handoff S) fun _ => .unused where
  placed :=
    { free := by rintro _ ⟨⟩
      made := by rintro _ _ _ ⟨⟩
      queued := by rintro _ _ ⟨⟩
      taken := by rintro _ _ _ ⟨⟩
      unused := fun _ _ => rfl
      once := .nil
      onceQueued := fun _ => .nil }
  matched _ := by
    refine ⟨[], .conn, ⟨.nil, fun p kind => ?_⟩, [], rfl, .nil, rfl⟩
    simp [Handoff.init]

omit [DecidableEq S] in
theorem Inv.delivered (h : Inv st place) : st.Delivered where
  order w := by
    obtain ⟨l, k, -, waiting, order, -⟩ := h.matched w
    rw [order, List.append_assoc]
    exact List.prefix_append ..
  once w := by
    obtain ⟨l, k, -, waiting, order, filled, -⟩ := h.matched w
    have count := congrArg List.length order
    simp only [List.length_map, List.length_append] at count
    rw [count, filled.length_eq]
    cases (st.threads w).pc <;> rfl
  all w pipe idle written := by
    obtain ⟨l, k, pending, waiting, order, -, notices⟩ := h.matched w
    have none : l = [] := List.eq_nil_iff_forall_not_mem.2 fun p mem =>
      written p k ((pending.iff p k).2 ⟨mem, rfl⟩)
    rw [pipe, idle, none] at notices
    rw [idle, List.map_eq_nil_iff.1 notices] at order
    simpa [WorkerPc.due] using order.symm

/-- When every push for a worker finds only outstanding writes of its own kind, and no write fails,
every request reaches its own action, once and in order. -/
theorem handoff_delivers {numThreads : ℕ} {as : List (HandoffAction S)}
    (run : Run GoodStep (init numThreads) as st) : st.Delivered := by
  obtain ⟨place, inv⟩ := run.invariant (fun st => ∃ place, Inv st place)
    (fun st a st' ⟨place, h⟩ good => h.step good) ⟨_, .init numThreads⟩
  exact inv.delivered

/-- The contents of memory from `malloc`. -/
def junkItem : CqItem := ⟨-1, .closed, 0, 0, .unixSocket, 0⟩

/-- A new connection, and connection 7 that a side thread gives back to worker 0. -/
def newConnection : Request := .dispatchConnNew 30 .newCmd 18 2048 .tcp

def givenBack : Request := .redispatchConn 7 31 0

def turnByTurn : List (HandoffAction Unit) :=
  [.start .main newConnection, .malloc .main (some junkItem), .push .main, .write .main true,
    .start (.side ()) givenBack, .push (.side ()), .write (.side ()) true,
    .read 0, .pop 0, .handle 0, .read 0, .pop 0, .handle 0]

/-- A step of a run in which no push meets an outstanding write, in a form that can be evaluated. -/
def nextAlone (st : Handoff Unit) (a : HandoffAction Unit) : Option (Handoff Unit) :=
  let writing (p : Party Unit) := match st.producer p with | .notifying .. => true | _ => false
  match a with
  | .push _ => if writing .main || writing (.side ()) then none else st.next a
  | .write _ ok => if ok then st.next a else none
  | _ => st.next a

theorem goodStep_of_nextAlone {st st' : Handoff Unit} {a : HandoffAction Unit}
    (eval : st.nextAlone a = some st') : st.GoodStep a st' := by
  cases a with
  | push p =>
    simp only [nextAlone] at eval
    split_ifs at eval with writing
    refine ⟨fun req item _ p' kind notifies => ?_, eval⟩
    rw [Bool.or_eq_true, not_or] at writing
    rcases p' with _ | ⟨⟨⟩⟩ <;> simp [notifies] at writing
  | write p ok =>
    simp only [nextAlone] at eval
    split_ifs at eval with written
    exact ⟨written, eval⟩
  | _ => exact ⟨trivial, eval⟩

theorem handoff_delivers_turn_by_turn : ∃ st : Handoff Unit, Run GoodStep (init 4) turnByTurn st ∧
    (st.threads 0).handled = [newConnection.call, givenBack.call] ∧ st.Delivered := by
  have eval : (turnByTurn.foldlM nextAlone (init 4)).map (fun st => (st.threads 0).handled) =
      some [newConnection.call, givenBack.call] := by
    decide +kernel
  obtain ⟨st, run, handled⟩ := Option.map_eq_some_iff.1 eval
  have run := (Run.of_foldlM run).mono fun _ _ _ => goodStep_of_nextAlone
  exact ⟨st, run, handled, handoff_delivers run⟩

def crossed : List (HandoffAction Unit) :=
  [.start .main newConnection, .malloc .main (some junkItem), .push .main,
    .start (.side ()) givenBack, .push (.side ()), .write (.side ()) true, .write .main true,
    .read 0, .pop 0, .handle 0, .read 0, .pop 0, .handle 0]

/-- The byte of the side thread makes the worker give back a connection that the item of the main
thread does not hold, and the connection given back is taken for a new one. -/
theorem handoff_crossed : ∃ st : Handoff Unit,
    Run (fun st a st' => st.next a = some st') (init 4) crossed st ∧
      (st.threads 0).handled = [.connWorkerReadd 0, .connNew 31 .newCmd 0 0 .unixSocket] ∧
      ¬st.Delivered := by
  have eval : (crossed.foldlM next (init 4)).map
      (fun st => ((st.threads 0).handled, (st.threads 0).pushed)) =
        some ([.connWorkerReadd 0, .connNew 31 .newCmd 0 0 .unixSocket],
          [newConnection, givenBack]) := by
    decide +kernel
  obtain ⟨st, run, eq⟩ := Option.map_eq_some_iff.1 eval
  obtain ⟨handled, pushed⟩ := Prod.mk.inj eq
  refine ⟨st, Run.of_foldlM run, handled, fun delivered => ?_⟩
  have order := delivered.order 0
  rw [handled, pushed] at order
  exact absurd order (by decide)

end Handoff

end LogMemcached

import LogMemcached.StorageSteps
import LogMemcached.Lib.Run

/-!
# Connections and their interleaving

The server as a transition system: any number of ASCII connections over one store, with the steps
at which the worker threads and the maintenance thread can alternate.  A storage command is its
header line, the arrival of its data block in any number of pieces, and its completion; a `delete`
is its lookup, its tombstone and its unlink; a `get` queues a response that is sent in pieces and
released at the end.
-/

namespace LogMemcached

open ByteMem Fallible Store

/-- What a connection is doing, with the references it holds.  `start` and `got` are history: the
record as the header line left it and the bytes received since; so is `due`, the bytes that were to
be sent when the response was queued. -/
inductive Conn
  | idle
  | nread (comm : NreadComm) (id ritem rlbytes : ℕ) (start : Rec) (got : List UInt8)
  | found (key : Key) (id : ℕ)
  | logged (id : ℕ)
  | mwrite (items : List ℕ) (segments : List Segment) (due : List UInt8)
deriving DecidableEq, Repr

/-- The references of a connection: `c->item` and `c->ilist`. -/
def Conn.refs : Conn → Multiset ℕ
  | .idle => 0
  | .nread _ id _ _ _ _ => {id}
  | .found _ id => {id}
  | .logged id => {id}
  | .mwrite items _ _ => items

/-- The store and its connections. -/
structure Server (ι : Type) where
  store : Store
  conns : ι → Conn

/-- The steps of the system. -/
inductive Action (ι : Type)
  | update (c : ι) (comm : NreadComm) (key : Key) (flags : UInt32) (exptime vlen : ℤ) (cas : ℕ)
  | recv (c : ι) (bytes : List UInt8)
  | complete (c : ι)
  | get (c : ι) (returnCas : Bool) (keys : List Key)
  | send (c : ι) (n : ℕ)
  | release (c : ι)
  | touch (c : ι) (key : Key) (exptime : ℤ)
  | arithmetic (c : ι) (key : Key) (incr : Bool) (delta : ℕ)
  | deleteLookup (c : ι) (key : Key)
  | deleteLog (c : ι)
  | deleteUnlink (c : ι)
  | flushAll (c : ι) (exptime : ℤ)
  | close (c : ι)
  | clean
  | tick (n : ℕ)

/-- The length of a segment. -/
def Store.Segment.length : Segment → ℕ
  | .text bytes => bytes.length
  | .range _ len => len

/-- What is left of a segment after its first `n` bytes. -/
def Store.Segment.drop (n : ℕ) : Segment → Segment
  | .text bytes => .text (bytes.drop n)
  | .range off len => .range (off + n) (len - n)

/-- `transmit` after `sendmsg` took `n` bytes: whole entries of the vector go, the next is cut. -/
def sendBytes (n : ℕ) : List Segment → List Segment
  | [] => []
  | segment :: rest =>
      if segment.length ≤ n then sendBytes (n - segment.length) rest else segment.drop n :: rest

/-- The bytes of a response in a given memory. -/
def renderAll (m : Mem) (segments : List Segment) : List UInt8 := segments.flatMap (Segment.render m)

variable {ι : Type} [DecidableEq ι]

def Server.init (settings : Settings) (limit now : ℕ) : Server ι :=
  ⟨.init settings limit now, fun _ => .idle⟩

/-- The server after a step of one connection. -/
def Server.set (srv : Server ι) (c : ι) (s : Store) (conn : Conn) : Server ι :=
  ⟨s, Function.update srv.conns c conn⟩

/-- One step; `none` when the action does not apply to the state of its connection. -/
def Server.step (srv : Server ι) : Action ι → Except Abort (Option (Server ι))
  | .update c comm key flags exptime vlen cas =>
      match srv.conns c with
      | .idle => do
          let (s, update) ← srv.store.processUpdateCommand comm key flags.toNat exptime vlen cas
          match update with
          | .reply _ => pure (some (srv.set c s .idle))
          | .upload id =>
              pure (some (srv.set c s (.nread comm id (itemData s.log.mem (s.itemOf id))
                (vlen + 2).toNat (s.recAt id) [])))
      | _ => pure none
  | .recv c bytes =>
      match srv.conns c with
      | .nread comm id ritem rlbytes start got =>
          if bytes.length ≤ rlbytes then
            let s := srv.store.setMem (write srv.store.log.mem ritem bytes)
            pure (some (srv.set c s (.nread comm id (ritem + bytes.length)
              (rlbytes - bytes.length) start (got ++ bytes))))
          else pure none
      | _ => pure none
  | .complete c =>
      match srv.conns c with
      | .nread comm id _ 0 _ _ => do
          let (s, _) ← srv.store.completeNreadAscii comm id
          pure (some (srv.set c s .idle))
      | _ => pure none
  | .get c returnCas keys =>
      match srv.conns c with
      | .idle => do
          let (s, response) ← srv.store.processGetCommand returnCas keys
          match response with
          | none => pure (some (srv.set c s .idle))
          | some (items, segments) =>
              pure (some (srv.set c s (.mwrite items segments (renderAll s.log.mem segments))))
      | _ => pure none
  | .send c n =>
      match srv.conns c with
      | .mwrite items segments due =>
          pure (some (srv.set c srv.store (.mwrite items (sendBytes n segments) (due.drop n))))
      | _ => pure none
  | .release c =>
      match srv.conns c with
      | .mwrite items [] _ => do
          let s ← srv.store.connReleaseItems items
          pure (some (srv.set c s .idle))
      | _ => pure none
  | .touch c key exptime =>
      match srv.conns c with
      | .idle => do
          let (s, _) ← srv.store.processTouchCommand key exptime
          pure (some (srv.set c s .idle))
      | _ => pure none
  | .arithmetic c key incr delta =>
      match srv.conns c with
      | .idle => do
          let (s, _) ← srv.store.processArithmeticCommand key incr delta
          pure (some (srv.set c s .idle))
      | _ => pure none
  | .deleteLookup c key =>
      match srv.conns c with
      | .idle =>
          if key.length > keyMaxLength then pure (some srv)
          else do
            let (s, it) ← srv.store.doItemGet key
            pure (some (srv.set c s (it.elim .idle (.found key))))
      | _ => pure none
  | .deleteLog c =>
      match srv.conns c with
      | .found key id => do
          let (s, succeed) ← srv.store.deleteLog key
          pure (some (srv.set c s (if succeed then .logged id else .idle)))
      | _ => pure none
  | .deleteUnlink c =>
      match srv.conns c with
      | .logged id => do
          let s ← srv.store.deleteUnlink id
          pure (some (srv.set c s .idle))
      | _ => pure none
  | .flushAll c exptime =>
      match srv.conns c with
      | .idle => pure (some (srv.set c (srv.store.flushAll exptime).1 .idle))
      | _ => pure none
  | .close c =>
      match srv.conns c with
      | .idle => pure (some srv)
      | .nread _ id _ _ _ _ => do
          let s ← srv.store.doItemRemove id
          pure (some (srv.set c s .idle))
      | .mwrite items _ _ => do
          let s ← srv.store.connReleaseItems items
          pure (some (srv.set c s .idle))
      | _ => pure none
  | .clean => do
      let s ← srv.store.lruMaintainerFree
      pure (some { srv with store := s })
  | .tick n =>
      pure (some { srv with store := { srv.store with currentTime := srv.store.currentTime + n } })

/-- The action leads from one state to the next, without a failed assertion. -/
def Server.Step (srv : Server ι) (a : Action ι) (srv' : Server ι) : Prop :=
  srv.step a = .ok (some srv')

/-- The next state, when the action applies and no assertion fails. -/
def Server.next (srv : Server ι) (a : Action ι) : Option (Server ι) :=
  match srv.step a with
  | .ok next => next
  | .error _ => none

theorem Server.step_of_next {srv srv' : Server ι} {a : Action ι} (eval : srv.next a = some srv') :
    srv.Step a srv' := by
  unfold Server.next at eval
  unfold Server.Step
  split at eval
  · next ran => rw [ran, eval]
  · cases eval

theorem Server.run_of_next {srv srv' : Server ι} {as : List (Action ι)}
    (eval : as.foldlM Server.next srv = some srv') : Transition.Run Server.Step srv as srv' :=
  (Transition.Run.of_foldlM eval).mono fun _ _ _ => Server.step_of_next

/-! ## What a step can be -/

/-- The connection after a header line that got an item. -/
def Conn.opened (s : Store) (comm : NreadComm) (vlen : ℤ) (id : ℕ) : Conn :=
  .nread comm id (itemData s.log.mem (s.itemOf id)) (vlen + 2).toNat (s.recAt id) []

/-- The connection after a `get`. -/
def Conn.answered (s : Store) : Option (List ℕ × List Segment) → Conn
  | none => .idle
  | some (items, segments) => .mwrite items segments (renderAll s.log.mem segments)

/-- The steps by what they ran. -/
inductive Performs (srv : Server ι) : Action ι → Server ι → Prop
  | reply {c comm key flags exptime vlen cas s' r} (idle : srv.conns c = .idle)
      (run : srv.store.processUpdateCommand comm key flags.toNat exptime vlen cas =
        .ok (s', .reply r)) :
      Performs srv (.update c comm key flags exptime vlen cas) (srv.set c s' .idle)
  | upload {c comm key flags exptime vlen cas s' id} (idle : srv.conns c = .idle)
      (run : srv.store.processUpdateCommand comm key flags.toNat exptime vlen cas =
        .ok (s', .upload id)) :
      Performs srv (.update c comm key flags exptime vlen cas)
        (srv.set c s' (.opened s' comm vlen id))
  | recv {c bytes comm id ritem rlbytes start got}
      (nread : srv.conns c = .nread comm id ritem rlbytes start got)
      (fits : bytes.length ≤ rlbytes) :
      Performs srv (.recv c bytes)
        (srv.set c (srv.store.setMem (write srv.store.log.mem ritem bytes))
          (.nread comm id (ritem + bytes.length) (rlbytes - bytes.length) start (got ++ bytes)))
  | complete {c comm id ritem start got s' reply}
      (nread : srv.conns c = .nread comm id ritem 0 start got)
      (run : srv.store.completeNreadAscii comm id = .ok (s', reply)) :
      Performs srv (.complete c) (srv.set c s' .idle)
  | get {c returnCas keys s' response} (idle : srv.conns c = .idle)
      (run : srv.store.processGetCommand returnCas keys = .ok (s', response)) :
      Performs srv (.get c returnCas keys) (srv.set c s' (.answered s' response))
  | send {c n items segments due} (mwrite : srv.conns c = .mwrite items segments due) :
      Performs srv (.send c n)
        (srv.set c srv.store (.mwrite items (sendBytes n segments) (due.drop n)))
  | release {c items due s'} (mwrite : srv.conns c = .mwrite items [] due)
      (run : srv.store.connReleaseItems items = .ok s') :
      Performs srv (.release c) (srv.set c s' .idle)
  | touch {c key exptime s' reply} (idle : srv.conns c = .idle)
      (run : srv.store.processTouchCommand key exptime = .ok (s', reply)) :
      Performs srv (.touch c key exptime) (srv.set c s' .idle)
  | arithmetic {c key incr delta s' reply} (idle : srv.conns c = .idle)
      (run : srv.store.processArithmeticCommand key incr delta = .ok (s', reply)) :
      Performs srv (.arithmetic c key incr delta) (srv.set c s' .idle)
  | deleteLong {c key} (idle : srv.conns c = .idle) (long : key.length > keyMaxLength) :
      Performs srv (.deleteLookup c key) srv
  | deleteLookup {c key s' it} (idle : srv.conns c = .idle) (short : key.length ≤ keyMaxLength)
      (run : srv.store.doItemGet key = .ok (s', it)) :
      Performs srv (.deleteLookup c key) (srv.set c s' (it.elim .idle (.found key)))
  | deleteLog {c key id s' succeed} (found : srv.conns c = .found key id)
      (run : srv.store.deleteLog key = .ok (s', succeed)) :
      Performs srv (.deleteLog c) (srv.set c s' (if succeed then .logged id else .idle))
  | deleteUnlink {c id s'} (logged : srv.conns c = .logged id)
      (run : srv.store.deleteUnlink id = .ok s') :
      Performs srv (.deleteUnlink c) (srv.set c s' .idle)
  | flushAll {c exptime} (idle : srv.conns c = .idle) :
      Performs srv (.flushAll c exptime) (srv.set c (srv.store.flushAll exptime).1 .idle)
  | closeIdle {c} (idle : srv.conns c = .idle) : Performs srv (.close c) srv
  | closeUpload {c comm id ritem rlbytes start got s'}
      (nread : srv.conns c = .nread comm id ritem rlbytes start got)
      (run : srv.store.doItemRemove id = .ok s') : Performs srv (.close c) (srv.set c s' .idle)
  | closeResponse {c items segments due s'} (mwrite : srv.conns c = .mwrite items segments due)
      (run : srv.store.connReleaseItems items = .ok s') :
      Performs srv (.close c) (srv.set c s' .idle)
  | clean {s'} (run : srv.store.lruMaintainerFree = .ok s') :
      Performs srv .clean { srv with store := s' }
  | tick (n) : Performs srv (.tick n)
      { srv with store := { srv.store with currentTime := srv.store.currentTime + n } }

theorem Server.Step.performs {srv srv' : Server ι} {a : Action ι} (step : srv.Step a srv') :
    Performs srv a srv' := by
  -- an action that does not apply is no step
  have stuck {x : Option (Server ι)} (none : x = none)
      (eq : (pure x : Except Abort (Option (Server ι))) = .ok (some srv')) : False := by
    rw [none] at eq
    cases pure_ran.1 eq
  have done {x : Server ι} (eq : (pure (some x) : Except Abort _) = .ok (some srv')) : x = srv' :=
    Option.some.inj (pure_ran.1 eq)
  unfold Server.Step at step
  cases a <;> simp only [Server.step] at step
  case update c comm key flags exptime vlen cas =>
    split at step
    · next idle =>
      obtain ⟨⟨s', update⟩, run, step⟩ := bind_ran.1 step
      cases update with
      | reply r => exact done step ▸ .reply idle run
      | upload id => exact done step ▸ .upload idle run
    · exact (stuck rfl step).elim
  case recv c bytes =>
    split at step
    · next nread =>
      split_ifs at step with fits
      · exact done step ▸ .recv nread fits
      · exact (stuck rfl step).elim
    · exact (stuck rfl step).elim
  case complete c =>
    split at step
    · next nread =>
      obtain ⟨⟨s', reply⟩, run, step⟩ := bind_ran.1 step
      exact done step ▸ .complete nread run
    · exact (stuck rfl step).elim
  case get c returnCas keys =>
    split at step
    · next idle =>
      obtain ⟨⟨s', response⟩, run, step⟩ := bind_ran.1 step
      cases response with
      | none => exact done step ▸ .get idle run
      | some p => exact done step ▸ .get idle run
    · exact (stuck rfl step).elim
  case send c n =>
    split at step
    · next mwrite => exact done step ▸ .send mwrite
    · exact (stuck rfl step).elim
  case release c =>
    split at step
    · next mwrite =>
      obtain ⟨s', run, step⟩ := bind_ran.1 step
      exact done step ▸ .release mwrite run
    · exact (stuck rfl step).elim
  case touch c key exptime =>
    split at step
    · next idle =>
      obtain ⟨⟨s', reply⟩, run, step⟩ := bind_ran.1 step
      exact done step ▸ .touch idle run
    · exact (stuck rfl step).elim
  case arithmetic c key incr delta =>
    split at step
    · next idle =>
      obtain ⟨⟨s', reply⟩, run, step⟩ := bind_ran.1 step
      exact done step ▸ .arithmetic idle run
    · exact (stuck rfl step).elim
  case deleteLookup c key =>
    split at step
    · next idle =>
      split_ifs at step with long
      · exact done step ▸ .deleteLong idle long
      · obtain ⟨⟨s', it⟩, run, step⟩ := bind_ran.1 step
        exact done step ▸ .deleteLookup idle (not_lt.1 long) run
    · exact (stuck rfl step).elim
  case deleteLog c =>
    split at step
    · next found =>
      obtain ⟨⟨s', succeed⟩, run, step⟩ := bind_ran.1 step
      exact done step ▸ .deleteLog found run
    · exact (stuck rfl step).elim
  case deleteUnlink c =>
    split at step
    · next logged =>
      obtain ⟨s', run, step⟩ := bind_ran.1 step
      exact done step ▸ .deleteUnlink logged run
    · exact (stuck rfl step).elim
  case flushAll c exptime =>
    split at step
    · next idle => exact done step ▸ .flushAll idle
    · exact (stuck rfl step).elim
  case close c =>
    split at step
    · next idle => exact done step ▸ .closeIdle idle
    · next nread =>
      obtain ⟨s', run, step⟩ := bind_ran.1 step
      exact done step ▸ .closeUpload nread run
    · next mwrite =>
      obtain ⟨s', run, step⟩ := bind_ran.1 step
      exact done step ▸ .closeResponse mwrite run
    · exact (stuck rfl step).elim
  case clean =>
    obtain ⟨s', run, step⟩ := bind_ran.1 step
    exact done step ▸ .clean run
  case tick n => exact done step ▸ .tick n

/-- All references held by connections. -/
def Server.refs [Fintype ι] (srv : Server ι) : Multiset ℕ := ∑ c, (srv.conns c).refs

end LogMemcached

import LogMemcached.Replay
import LogMemcached.Responses

/-!
# Commands one after another

The server as a single client sees it: each command runs to completion before the next one, with
its data block and the release of its response.  `Store.exec` is that command as one step, and
`Store.request` is what it asks the log for.
-/

namespace LogMemcached

open ByteMem Tiling Fallible Store

/-- A whole command.  A storage command comes with the block of `vlen + 2` bytes that follows its
header line. -/
inductive Command
  | store (comm : NreadComm) (key : Key) (flags : UInt32) (exptime : ℤ) (cas : UInt64)
      (block : List UInt8)
  | get (returnCas : Bool) (keys : List Key)
  | touch (key : Key) (exptime : ℤ)
  | arithmetic (key : Key) (incr : Bool) (delta : ℕ)
  | delete (key : Key)
  | binDelete (key : Key) (cas : ℕ)
  | flushAll (exptime : ℤ)
  | clean
  | tick (n : ℕ)
deriving DecidableEq, Repr

/-- What the client gets to see. -/
inductive Answer
  | line (reply : Reply)
  | values (bytes : List UInt8)
  | done (succeed : Bool)
  | silent
deriving DecidableEq, Repr

namespace Store

/-- The data block of an upload, received as a whole. -/
def receive (s : Store) (id : ℕ) (block : List UInt8) : Store :=
  s.setMem (write s.log.mem (itemData s.log.mem (s.itemOf id)) block)

/-- The value length of a header line whose block is `block`. -/
def vlenOf (block : List UInt8) : ℤ := block.length - 2

/-- One command from its first byte to its last. -/
def exec (s : Store) : Command → Except Abort (Store × Answer)
  | .store comm key flags exptime cas block => do
      let (s, update) ← s.processUpdateCommand comm key flags.toNat exptime (vlenOf block) cas.toNat
      match update with
      | .reply r => pure (s, .line r)
      | .upload id => do
          let (s, reply) ← (s.receive id block).completeNreadAscii comm id
          pure (s, .line reply)
  | .get returnCas keys => do
      let (s, response) ← s.processGetCommand returnCas keys
      match response with
      | none => pure (s, .line .badFormat)
      | some (items, segments) => do
          let s' ← s.connReleaseItems items
          pure (s', .values (segments.flatMap (Segment.render s.log.mem)))
  | .touch key exptime => do
      let (s, reply) ← s.processTouchCommand key exptime
      pure (s, .line reply)
  | .arithmetic key incr delta => do
      let (s, reply) ← s.processArithmeticCommand key incr delta
      pure (s, .line reply)
  | .delete key => do
      let (s, reply) ← s.processDeleteCommand key
      pure (s, .line reply)
  | .binDelete key cas => do
      let (s, succeed) ← s.processBinDelete key cas
      pure (s, .done succeed)
  | .flushAll exptime => pure ((s.flushAll exptime).1, .line (s.flushAll exptime).2)
  | .clean => do
      let s ← s.lruMaintainerFree
      pure (s, .silent)
  | .tick n => pure ({ s with currentTime := s.currentTime + n }, .silent)

/-- The first request a command makes of the log. -/
def request (s : Store) : Command → Option ℕ
  | .store _ key flags _ _ block => updateRequest key flags.toNat (vlenOf block)
  | .touch key _ => s.touchRequest key
  | .arithmetic key incr delta =>
      (s.find key).bind fun id =>
        if nbytesInt s.log.mem (s.itemOf id) ≤ 2 then none else s.deltaRequest key incr delta
  | .delete key => (s.find key).map fun _ => deleteRequest key
  | _ => none

/-- The second request of `append` and `prepend`, made when the block is complete. -/
def SecondFits (s : Store) : Command → Prop
  | .store comm key flags exptime cas block =>
      comm = .append ∨ comm = .prepend → ∀ s₁ id oldId,
        s.processUpdateCommand comm key flags.toNat exptime (vlenOf block) cas.toNat =
          .ok (s₁, .upload id) →
        (s₁.receive id block).find key = some oldId →
        RoomFor (s₁.receive id block) ((s₁.receive id block).joinSize id oldId)
  | _ => True

end Store

/-- The client flags of a storage command do not have the `ITEM_DELETED` bit. -/
def Command.Plain : Command → Prop
  | .store _ _ flags _ _ _ => deletedBit flags.toNat = false
  | _ => True

end LogMemcached

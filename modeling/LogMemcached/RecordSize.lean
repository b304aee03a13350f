import LogMemcached.Commands
import LogMemcached.LogSteps
import LogMemcached.Record

/-!
# The size of a record, written and read

`do_item_alloc` computes the size of a record from the request; the cleaner and the replica compute
it again from the header.  The two agree for every record as long as `use_cas` is on.  With
`use_cas` off they differ on tombstones and on corrupted records, for which `ITEM_ntotal` counts a
CAS word that is not there.
-/

namespace LogMemcached

open ByteMem CText

/-- The kinds of record a storage or delete command leaves in the log. -/
inductive RecordKind
  | item
  | tombstone
  | corrupted
deriving DecidableEq, Repr

/-- The record at `o` once its command is through: completed, deleted or a bad data chunk. -/
def RecordKind.write (kind : RecordKind) (useCas : Bool) (m : Mem) (o : ℕ) (key : Key)
    (flags exptime : ℕ) (nbytes : ℤ) : Mem :=
  match kind with
  | .item => markStored (writeItem useCas m o key flags exptime nbytes) o
  | .tombstone => writeTombstone m o key flags nbytes
  | .corrupted => markCorrupted (writeItem useCas m o key flags exptime nbytes) o

def RecordKind.flags (kind : RecordKind) (useCas : Bool) : UInt8 :=
  match kind with
  | .item => casFlag useCas ||| itemStored
  | .tombstone => itemDeleted ||| itemStored
  | .corrupted => casFlag useCas ||| itemCorrupted ||| itemStored

/-- `uint ntotal = ITEM_ntotal(it)` in `do_store_replication`. -/
def replicationNtotal (m : Mem) (o : ℕ) : ℕ := itemNtotal m o % 2 ^ 32

section Sizes

variable {m : Mem} {o flags : ℕ} (exptime : ℕ) {key : Key} {nbytes : ℤ}

theorem RecordKind.written (kind : RecordKind) (useCas : Bool) (zero : flagsOf m o = 0)
    (short : key.length ≤ 250) (small : flags < 2 ^ 32) (nonneg : 0 ≤ nbytes)
    (bounded : nbytes < 2 ^ 31) :
    ∃ expiry, Written (kind.write useCas m o key flags exptime nbytes) o (kind.flags useCas) key
      (suffixText flags nbytes) expiry nbytes.toNat := by
  have item : Written (writeItem useCas m o key flags exptime nbytes) o _ _ _ _ _ :=
    writeItem_written useCas zero short small nonneg bounded
  cases kind with
  | item =>
    refine ⟨exptime % 2 ^ 32, ?_⟩
    have marked : (casFlag useCas ||| itemDirty) &&& ~~~itemDirty ||| itemStored =
        casFlag useCas ||| itemStored := by cases useCas <;> decide
    simp only [RecordKind.write, RecordKind.flags, markStored]
    rw [item.flags, marked]
    apply item.setFlags
    cases useCas <;> decide
  | tombstone => exact ⟨_, writeTombstone_written zero short small nonneg bounded⟩
  | corrupted =>
    refine ⟨exptime % 2 ^ 32, ?_⟩
    have marked : (casFlag useCas ||| itemDirty ||| itemCorrupted) &&& ~~~itemDirty ||| itemStored =
        casFlag useCas ||| itemCorrupted ||| itemStored := by cases useCas <;> decide
    simp only [RecordKind.write, RecordKind.flags, markCorrupted]
    rw [item.flags, marked]
    apply item.setFlags
    cases useCas <;> decide

/-- The CAS term of the size read is that of the size written, unless `use_cas` is off and the
record is a tombstone or corrupted. -/
theorem RecordKind.casRoom_iff (kind : RecordKind) (useCas : Bool) :
    ntotalCasRoom (kind.flags useCas) = casRoom (casFlag useCas) ↔
      useCas = true ∨ kind = .item := by
  cases kind <;> cases useCas <;> decide

theorem RecordKind.not_cycle (kind : RecordKind) (useCas : Bool) :
    has (kind.flags useCas) itemCycle = false := by
  cases kind <;> cases useCas <;> decide

theorem freeSize_of_plain (plain : has (flagsOf m o) itemCycle = false) :
    freeSize m o = replicationNtotal m o := by
  simp only [freeSize, replicationNtotal, plain]
  split_ifs <;> simp_all

theorem freeSize_wrap {l : Memlog} (zero : flagsOf l.mem l.memCurrent = 0)
    (small : l.memAvail < 2 ^ 32) : freeSize l.wrap.mem l.memCurrent = l.memAvail := by
  have flags : flagsOf l.wrap.mem l.memCurrent = itemCycle ||| itemStored := writeCycle_flags _ zero
  have nbytes : nbytesOf l.wrap.mem l.memCurrent = l.memAvail := writeCycle_nbytes _ _ small
  have corrupted : has (itemCycle ||| itemStored) itemCorrupted = false := by decide
  have deleted : has (itemCycle ||| itemStored) itemDeleted = false := by decide
  have cycle : has (itemCycle ||| itemStored) itemCycle = true := by decide
  simp only [freeSize, flags, corrupted, deleted, cycle, Bool.or_self, Bool.false_eq_true, if_false,
    if_true, nbytes]

/-- The requests `do_item_alloc` gets from a parsed command: a key of 1 to 250 bytes, flags of 32
bits and a data length that is no negative `int`. -/
structure Admitted (key : Key) (flags : ℕ) (nbytes : ℤ) : Prop where
  long : 1 ≤ key.length
  short : key.length ≤ 250
  word : flags < 2 ^ 32
  nonneg : 0 ≤ nbytes
  bounded : nbytes < 2 ^ 31

theorem RecordKind.ntotal (kind : RecordKind) (useCas : Bool) (zero : flagsOf m o = 0)
    (admitted : Admitted key flags nbytes) :
    replicationNtotal (kind.write useCas m o key flags exptime nbytes) o +
        casRoom (casFlag useCas) =
      allocTotal useCas key.length flags nbytes + ntotalCasRoom (kind.flags useCas) := by
  obtain ⟨expiry, written⟩ := kind.written exptime useCas zero admitted.short admitted.word
    admitted.nonneg admitted.bounded
  have suffix := length_suffixText_le admitted.word admitted.nonneg admitted.bounded
  have small := (intBits_of_nonneg admitted.nonneg admitted.bounded).2
  have short := admitted.short
  have room := ntotalCasRoom_le (kind.flags useCas)
  have total := written.ntotal small short suffix
  rw [allocTotal_eq useCas short admitted.word admitted.nonneg admitted.bounded,
    replicationNtotal, total, Nat.mod_eq_of_lt (by simp only [sizeofItemData]; omega)]
  omega

/-- A record is stepped over by the bytes reserved for it exactly when `use_cas` is on or it is a
completed item, and the cleaner lands on the end of the log after a cycle record exactly when all
bytes up to the end were available to the wrap. -/
theorem record_size_read_iff (useCas : Bool) (kind : RecordKind) (zero : flagsOf m o = 0)
    (admitted : Admitted key flags nbytes)
    (l : Memlog) (zeroEnd : flagsOf l.mem l.memCurrent = 0) (word : l.memAvail < 2 ^ 32) :
    (freeSize (kind.write useCas m o key flags exptime nbytes) o =
          allocTotal useCas key.length flags nbytes ∧
        replicationNtotal (kind.write useCas m o key flags exptime nbytes) o =
          allocTotal useCas key.length flags nbytes ↔ useCas = true ∨ kind = .item) ∧
      (l.memCurrent + freeSize l.wrap.mem l.memCurrent = l.memLimit ↔
        l.memCurrent + l.memAvail = l.memLimit) := by
  constructor
  · obtain ⟨expiry, written⟩ := kind.written exptime useCas zero admitted.short
      admitted.word admitted.nonneg admitted.bounded
    have plain := kind.not_cycle useCas
    rw [← written.flags] at plain
    have total := kind.ntotal exptime useCas zero admitted
    rw [freeSize_of_plain plain, and_self, ← kind.casRoom_iff useCas]
    omega
  · rw [freeSize_wrap zeroEnd word]

/-- A tombstone under `use_cas`, and the wrap of an empty log. -/
theorem record_size_read_tombstone :
    (freeSize (RecordKind.tombstone.write true (fun _ => 0) 0 [97] 128 0 0) 0 =
          allocTotal true 1 128 0 ∧
        replicationNtotal (RecordKind.tombstone.write true (fun _ => 0) 0 [97] 128 0 0) 0 =
          allocTotal true 1 128 0) ∧
      (memlogInit 1024).memCurrent + freeSize (memlogInit 1024).wrap.mem 0 = 1024 := by
  have both := record_size_read_iff (m := fun _ => 0) (o := 0) 0 true .tombstone (by decide)
    (⟨by decide, by decide, by decide, by decide, by decide⟩ : Admitted [97] 128 0)
    (memlogInit 1024) (by decide) (by decide)
  exact ⟨both.1.2 (Or.inl rfl), both.2.2 (by decide)⟩

end Sizes

/-- Without `use_cas` the tombstone of a delete takes 27 bytes of the log, and the cleaner and the
replica step over 35. -/
theorem tombstone_size_misread :
    ((Store.init { settingsInit 1500000000 with useCas := false } memlogDefaultSize 2).deleteLog
        [97]).toOption.map (fun r => (r.2, r.1.log.memCurrent, freeSize r.1.log.mem 0,
          replicationNtotal r.1.log.mem 0)) = some (true, 27, 35, 35) := by
  decide +kernel

end LogMemcached

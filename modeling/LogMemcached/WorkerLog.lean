import LogMemcached.BipBuffer
import LogMemcached.Lib.Run

/-!
# The log of a worker thread

A worker writes log entries into a two-region buffer with `logger_log`; the logger thread peeks at
region A, parses it entry by entry without the lock, and then polls the bytes it peeked at.  An
entry is found only by the size field of the one before it.  Over every interleaving the entries
parsed are the entries accepted.
-/

namespace LogMemcached

open ByteMem Transition

/-! ## Entries -/

/-- What is logged, as `logger_log` gets it. -/
inductive LogEvent
  | eviction (exptime time currentTime : UInt32) (itFlags : UInt8) (key : List UInt8)
  | itemGet (wasFound : UInt8) (key : List UInt8)
  | itemStore (status comm : UInt32) (key : List UInt8)
deriving DecidableEq, Repr

/-- The structures behind the `logentry`. -/
inductive LogBody
  | eviction (exptime : UInt64) (latime : UInt32) (itFlags : UInt16) (key : List UInt8)
  | itemGet (wasFound : UInt8) (key : List UInt8)
  | itemStore (status cmd : UInt32) (key : List UInt8)
deriving DecidableEq, Repr

/-- `logentry`; `event`, `eflags` and `size` follow from the body. -/
structure LogEntry where
  gid : UInt64
  tvSec : UInt64
  tvUsec : UInt64
  body : LogBody
deriving DecidableEq, Repr

/-- `_logger_log_evictions`, `_logger_log_item_get` and `_logger_log_item_store`. -/
def LogEvent.body : LogEvent → LogBody
  | .eviction exptime time currentTime itFlags key =>
      .eviction (if 0 < exptime then (exptime - currentTime).toUInt64 else -1) (currentTime - time)
        itFlags.toUInt16 key
  | .itemGet wasFound key => .itemGet wasFound key
  | .itemStore status comm key => .itemStore status comm key

namespace LogBody

def key : LogBody → List UInt8
  | eviction _ _ _ key => key
  | itemGet _ key => key
  | itemStore _ _ key => key

/-- `enum log_entry_subtype`. -/
def subtype : LogBody → ℕ
  | eviction .. => 1
  | itemGet .. => 2
  | itemStore .. => 3

/-- `eflags` of `default_entries`: `LOG_EVICTIONS`, `LOG_FETCHERS` and `LOG_MUTATIONS`. -/
def eflags : LogBody → ℕ
  | eviction .. => 64
  | itemGet .. => 4
  | itemStore .. => 8

/-- `e->size`: the size of the structure and the key. -/
def size : LogBody → ℕ
  | eviction _ _ _ key => 16 + key.length
  | itemGet _ key => 2 + key.length
  | itemStore _ _ key => 12 + key.length

end LogBody

/-- `reqlen` of `default_entries`. -/
def reqlen : ℕ := 512

/-- `sizeof(logentry)`. -/
def sizeofLogentry : ℕ := 40

def le16 (v : ℕ) : List UInt8 := [UInt8.ofNat v, UInt8.ofNat (v / 256)]

/-- The bytes of a body; the padding behind the key is not written and keeps what was there. -/
def LogBody.encode (junk : ℕ → UInt8) : LogBody → List UInt8
  | eviction exptime latime itFlags key =>
      le64 exptime.toNat ++ le32 latime.toNat ++ le16 itFlags.toNat ++ [UInt8.ofNat key.length] ++
        key ++ [junk (55 + key.length)]
  | itemGet wasFound key => [wasFound, UInt8.ofNat key.length] ++ key
  | itemStore status cmd key =>
      le32 status.toNat ++ le32 cmd.toNat ++ [UInt8.ofNat key.length] ++ key ++
        [junk (49 + key.length), junk (50 + key.length), junk (51 + key.length)]

def LogEntry.encode (junk : ℕ → UInt8) (e : LogEntry) : List UInt8 :=
  le32 e.body.subtype ++ le16 e.body.eflags ++ [junk 6, junk 7] ++ le64 e.gid.toNat ++
    le64 e.tvSec.toNat ++ le64 e.tvUsec.toNat ++ le32 e.body.size ++
    [junk 36, junk 37, junk 38, junk 39] ++ e.body.encode junk

/-- The number in `n` bytes at an offset. -/
def field (bytes : List UInt8) (offset n : ℕ) : ℕ :=
  ((bytes.drop offset).take n).foldr (fun b v => b.toNat + 256 * v) 0

def keyAt (bytes : List UInt8) (offset nkey : ℕ) : List UInt8 := (bytes.drop offset).take nkey

/-- The structure that `logger_thread_parse_entry` reads from `e->data` for a subtype. -/
def parseBody (data : List UInt8) : ℕ → Option LogBody
  | 1 => some (.eviction (.ofNat (field data 0 8)) (.ofNat (field data 8 4))
      (.ofNat (field data 12 2)) (keyAt data 15 (field data 14 1)))
  | 2 => some (.itemGet (.ofNat (field data 0 1)) (keyAt data 2 (field data 1 1)))
  | 3 => some (.itemStore (.ofNat (field data 0 4)) (.ofNat (field data 4 4))
      (keyAt data 9 (field data 8 1)))
  | _ => none

/-- The entry at the front of some bytes, and its size field. -/
def parseEntry (bytes : List UInt8) : Option LogEntry × ℕ :=
  ((parseBody (bytes.drop sizeofLogentry) (field bytes 0 4)).map fun body =>
    ⟨.ofNat (field bytes 8 8), .ofNat (field bytes 16 8), .ofNat (field bytes 24 8), body⟩,
    field bytes 32 4)

/-! ## Reading back an entry -/

theorem foldr_le32 (v : ℕ) :
    (le32 v).foldr (fun b v => b.toNat + 256 * v) 0 = v % 2 ^ 32 := by
  simp only [le32, List.foldr_cons, List.foldr_nil, UInt8.toNat_ofNat']
  omega

theorem foldr_le64 (v : ℕ) :
    (le64 v).foldr (fun b v => b.toNat + 256 * v) 0 = v % 2 ^ 64 := by
  simp only [le64, le32, List.cons_append, List.nil_append, List.foldr_cons, List.foldr_nil,
    UInt8.toNat_ofNat']
  omega

theorem foldr_le16 (v : ℕ) :
    (le16 v).foldr (fun b v => b.toNat + 256 * v) 0 = v % 2 ^ 16 := by
  simp only [le16, List.foldr_cons, List.foldr_nil, UInt8.toNat_ofNat']
  omega

/-- A record of the buffer: an entry with a key of at most `KEY_MAX_LENGTH` bytes, and the padding
it was written over. -/
structure LogRecord where
  junk : ℕ → UInt8
  entry : LogEntry
  short : entry.body.key.length ≤ 250

namespace LogRecord

def bytes (r : LogRecord) : List UInt8 := r.entry.encode r.junk

theorem length_bytes (r : LogRecord) : r.bytes.length = sizeofLogentry + r.entry.body.size := by
  obtain ⟨junk, ⟨gid, sec, usec, body⟩, -⟩ := r
  cases body <;> simp [bytes, LogEntry.encode, LogBody.encode, LogBody.size, sizeofLogentry, le16] <;>
    omega

theorem field_nkey {key : List UInt8} (short : key.length ≤ 250) :
    [UInt8.ofNat key.length].foldr (fun b v => b.toNat + 256 * v) 0 = key.length := by
  simp only [List.foldr_cons, List.foldr_nil, UInt8.toNat_ofNat']
  omega

theorem parseBody_encode {body : LogBody} (short : body.key.length ≤ 250) (junk : ℕ → UInt8)
    (rest : List UInt8) : parseBody (body.encode junk ++ rest) body.subtype = some body := by
  cases body with
  | eviction exptime latime itFlags key =>
    have exptime_eq : field (LogBody.encode junk (.eviction exptime latime itFlags key) ++ rest) 0 8 =
        exptime.toNat % 2 ^ 64 := foldr_le64 _
    have latime_eq : field (LogBody.encode junk (.eviction exptime latime itFlags key) ++ rest) 8 4 =
        latime.toNat % 2 ^ 32 := foldr_le32 _
    have flags_eq : field (LogBody.encode junk (.eviction exptime latime itFlags key) ++ rest) 12 2 =
        itFlags.toNat % 2 ^ 16 := foldr_le16 _
    have nkey : field (LogBody.encode junk (.eviction exptime latime itFlags key) ++ rest) 14 1 =
        key.length := field_nkey short
    have key_eq : keyAt (LogBody.encode junk (.eviction exptime latime itFlags key) ++ rest) 15
        key.length = key := by
      simp [keyAt, LogBody.encode, le64, le32, le16]
    simp only [parseBody, LogBody.subtype, exptime_eq, latime_eq, flags_eq, nkey, key_eq]
    simp
  | itemGet wasFound key =>
    have found_eq : field (LogBody.encode junk (.itemGet wasFound key) ++ rest) 0 1 =
        wasFound.toNat := rfl
    have nkey : field (LogBody.encode junk (.itemGet wasFound key) ++ rest) 1 1 = key.length :=
      field_nkey short
    have key_eq : keyAt (LogBody.encode junk (.itemGet wasFound key) ++ rest) 2 key.length = key := by
      simp [keyAt, LogBody.encode]
    simp only [parseBody, LogBody.subtype, found_eq, nkey, key_eq]
    simp
  | itemStore status cmd key =>
    have status_eq : field (LogBody.encode junk (.itemStore status cmd key) ++ rest) 0 4 =
        status.toNat % 2 ^ 32 := foldr_le32 _
    have cmd_eq : field (LogBody.encode junk (.itemStore status cmd key) ++ rest) 4 4 =
        cmd.toNat % 2 ^ 32 := foldr_le32 _
    have nkey : field (LogBody.encode junk (.itemStore status cmd key) ++ rest) 8 1 = key.length :=
      field_nkey short
    have key_eq : keyAt (LogBody.encode junk (.itemStore status cmd key) ++ rest) 9 key.length =
        key := by
      simp [keyAt, LogBody.encode, le32]
    simp only [parseBody, LogBody.subtype, status_eq, cmd_eq, nkey, key_eq]
    simp

theorem parseEntry_bytes (r : LogRecord) (rest : List UInt8) :
    parseEntry (r.bytes ++ rest) = (some r.entry, r.entry.body.size) := by
  obtain ⟨junk, ⟨gid, sec, usec, body⟩, short⟩ := r
  generalize bytes_eq : LogEntry.encode junk ⟨gid, sec, usec, body⟩ ++ rest = bytes
  have event : field bytes 0 4 = body.subtype := by
    have eq : field bytes 0 4 = body.subtype % 2 ^ 32 := by
      rw [← foldr_le32, ← bytes_eq]
      rfl
    cases body <;> exact eq
  have gid_eq : field bytes 8 8 = gid.toNat % 2 ^ 64 := by
    rw [← foldr_le64, ← bytes_eq]
    rfl
  have sec_eq : field bytes 16 8 = sec.toNat % 2 ^ 64 := by
    rw [← foldr_le64, ← bytes_eq]
    rfl
  have usec_eq : field bytes 24 8 = usec.toNat % 2 ^ 64 := by
    rw [← foldr_le64, ← bytes_eq]
    rfl
  have size_eq : field bytes 32 4 = body.size := by
    have eq : field bytes 32 4 = body.size % 2 ^ 32 := by
      rw [← foldr_le32, ← bytes_eq]
      rfl
    rw [eq, Nat.mod_eq_of_lt]
    cases body <;> simp only [LogBody.size, LogBody.key] at short ⊢ <;> omega
  have data : bytes.drop sizeofLogentry = body.encode junk ++ rest := by
    rw [← bytes_eq]
    rfl
  change parseEntry (LogEntry.encode junk ⟨gid, sec, usec, body⟩ ++ rest) = _
  rw [bytes_eq, parseEntry, data, event, parseBody_encode short, gid_eq, sec_eq, usec_eq, size_eq]
  simp

end LogRecord

/-! ## The worker and the logger thread -/

/-- Where `logger_thread_read` is: before the peek, or in the parse loop over `size` bytes from
`start` on. -/
inductive LogReader
  | idle
  | reading (start size pos : ℕ)
deriving DecidableEq, Repr

/-- A `logger` and the logger thread.  `refusing` says that the worker has released the lock of a
call without space and not yet counted it; `accepted`, `refused` and `failed` are the results of the
calls so far, `parsed` the entries read; `aborted` is a failed assertion. -/
structure WorkerLog where
  buf : BipBuf
  written : ℕ
  dropped : ℕ
  refusing : Bool
  reader : LogReader
  workerWritten : ℕ
  workerDropped : ℕ
  accepted : List LogEntry
  refused : ℕ
  failed : ℕ
  parsed : List (Option LogEntry)
  aborted : Bool

/-- The steps: the part of `logger_log` under the lock, with the values of `logger_get_gid` and
`gettimeofday`; its `l->dropped++` after the lock is released; and the peek, one turn of the parse
loop and the poll of `logger_thread_read`. -/
inductive WorkerStep
  | log (ev : LogEvent) (gid tvSec tvUsec : UInt64)
  | drop
  | peek
  | parse
  | poll

namespace WorkerLog

/-- Write an entry to the space at `a` and push it. -/
def append (l : WorkerLog) (a : ℕ) (e : LogEntry) : WorkerLog :=
  let buf := l.buf.store a (e.encode fun i => l.buf.data (a + i))
  match buf.bipbufPush (sizeofLogentry + e.body.size) with
  | none => { l with buf, failed := l.failed + 1 }
  | some buf => { l with buf, written := l.written + 1, accepted := l.accepted ++ [e] }

/-- `logger_log` up to the release of the lock. -/
def loggerLog (l : WorkerLog) (e : LogEntry) : WorkerLog :=
  match l.buf.bipbufRequest (sizeofLogentry + reqlen) with
  | none => { l with refusing := true, refused := l.refused + 1 }
  | some a => l.append a e

/-- The peek of `logger_thread_read`. -/
def peek (l : WorkerLog) : WorkerLog :=
  match l.buf.bipbufPeekAll with
  | none => l
  | some (start, size) => { l with reader := .reading start size 0 }

def parse (l : WorkerLog) (start size pos : ℕ) : WorkerLog :=
  let (e, n) := parseEntry (slice l.buf.data (start + pos) (size - pos))
  { l with
    parsed := l.parsed ++ [e]
    reader := .reading start size (pos + (sizeofLogentry + n)) }

/-- The assertions and the poll of `logger_thread_read`. -/
def poll (l : WorkerLog) (size pos : ℕ) : WorkerLog :=
  if size < pos then { l with aborted := true }
  else
    match l.buf.bipbufPoll size with
    | none => { l with aborted := true }
    | some buf =>
        { l with
          buf
          workerWritten := l.workerWritten + l.written
          workerDropped := l.workerDropped + l.dropped
          written := 0
          dropped := 0
          reader := .idle }

def next (l : WorkerLog) : WorkerStep → Option WorkerLog
  | .log ev gid tvSec tvUsec =>
      if l.refusing then none else some (l.loggerLog ⟨gid, tvSec, tvUsec, ev.body⟩)
  | .drop =>
      if l.refusing then some { l with refusing := false, dropped := l.dropped + 1 } else none
  | .peek =>
      match l.reader with
      | .idle => some l.peek
      | .reading .. => none
  | .parse =>
      match l.reader with
      | .idle => none
      | .reading start size pos => if pos < size then some (l.parse start size pos) else none
  | .poll =>
      match l.reader with
      | .idle => none
      | .reading _ size pos => if pos < size then none else some (l.poll size pos)

end WorkerLog

/-- The keys of the logged events have at most `KEY_MAX_LENGTH` bytes. -/
def WorkerStep.Short : WorkerStep → Prop
  | .log ev _ _ _ => ev.body.key.length ≤ 250
  | _ => True

/-! ## The buffer as a queue of entries -/

def recordBytes (rs : List LogRecord) : List UInt8 := rs.flatMap LogRecord.bytes

def recordEntries (rs : List LogRecord) : List (Option LogEntry) := rs.map fun r => some r.entry

theorem recordBytes_append (rs rs' : List LogRecord) :
    recordBytes (rs ++ rs') = recordBytes rs ++ recordBytes rs' := List.flatMap_append

theorem LogRecord.bytes_ne_nil (r : LogRecord) : r.bytes ≠ [] := by
  rw [← List.length_pos_iff, r.length_bytes]
  exact Nat.add_pos_left (by decide) _

theorem eq_nil_of_recordBytes {rs : List LogRecord} (none : recordBytes rs = []) : rs = [] := by
  cases rs with
  | nil => rfl
  | cons r rs =>
    rw [recordBytes, List.flatMap_cons, List.append_eq_nil_iff] at none
    exact absurd none.1 r.bytes_ne_nil

namespace WorkerLog

variable {l l' : WorkerLog} {as bs ahead : List LogRecord}

inductive Unread (buf : BipBuf) (as : List LogRecord) : LogReader → List LogRecord → Prop
  | idle : Unread buf as .idle as
  | reading {done todo newer : List LogRecord} (split : as = done ++ todo ++ newer)
      (peeked : done ++ todo ≠ []) :
      Unread buf as (.reading buf.aStart (recordBytes (done ++ todo)).length
        (recordBytes done).length) (todo ++ newer)

/-- The buffer holds the records `as` and `bs`, and the entries parsed with those still to be parsed
are the entries accepted. -/
structure Queued (l : WorkerLog) (as bs ahead : List LogRecord) : Prop where
  valid : l.buf.Valid
  regionA : l.buf.regionA = recordBytes as
  regionB : l.buf.regionB = recordBytes bs
  unread : Unread l.buf as l.reader ahead
  fifo : l.accepted.map some = l.parsed ++ recordEntries (ahead ++ bs)
  counted : l.refused = l.workerDropped + l.dropped + if l.refusing then 1 else 0
  unfailed : l.failed = 0
  unaborted : l.aborted = false

theorem Unread.snoc {buf buf' : BipBuf} {reader : LogReader} (h : Unread buf as reader ahead)
    (start : buf'.aStart = buf.aStart) (r : LogRecord) :
    Unread buf' (as ++ [r]) reader (ahead ++ [r]) := by
  cases h with
  | idle => exact .idle
  | @reading done todo newer split peeked =>
    rw [← start, List.append_assoc]
    exact .reading (by rw [split, List.append_assoc]) peeked

theorem Unread.same {buf buf' : BipBuf} {reader : LogReader} (h : Unread buf as reader ahead)
    (start : buf'.aStart = buf.aStart) : Unread buf' as reader ahead := by
  cases h with
  | idle => exact .idle
  | reading split peeked =>
    rw [← start]
    exact .reading split peeked

theorem Unread.finished {buf : BipBuf} {reader : LogReader} {start size pos : ℕ}
    (h : Unread buf as reader ahead) (reading : reader = .reading start size pos)
    (done : ¬pos < size) :
    ∃ parsed, as = parsed ++ ahead ∧ size = (recordBytes parsed).length ∧ pos = size ∧
      parsed ≠ [] := by
  cases h with
  | idle => cases reading
  | @reading parsed todo newer split peeked =>
    injection reading with _ size_eq pos_eq
    rw [recordBytes_append, List.length_append] at size_eq
    obtain rfl : todo = [] :=
      eq_nil_of_recordBytes (List.eq_nil_of_length_eq_zero (by omega))
    rw [List.append_nil] at split peeked
    exact ⟨parsed, split, size_eq.symm, by omega, peeked⟩

theorem Queued.loggerLog (h : Queued l as bs ahead) {e : LogEntry}
    (short : e.body.key.length ≤ 250) (ready : l.refusing = false) :
    ∃ as' bs' ahead', Queued (l.loggerLog e) as' bs' ahead' := by
  rw [WorkerLog.loggerLog]
  cases request : l.buf.bipbufRequest (sizeofLogentry + reqlen) with
  | none =>
    refine ⟨as, bs, ahead, h.valid, h.regionA, h.regionB, h.unread, h.fifo, ?_, h.unfailed,
      h.unaborted⟩
    simp [h.counted, ready]
  | some a =>
    obtain ⟨full, rfl⟩ := BipBuf.request_eq_some request
    let r : LogRecord := ⟨fun i => l.buf.data (l.buf.tail + i), e, short⟩
    have small : sizeofLogentry + e.body.size ≤ sizeofLogentry + reqlen := by
      simp only [sizeofLogentry, reqlen]
      cases body : e.body <;> simp only [body, LogBody.key, LogBody.size] at short ⊢ <;> omega
    have room : ¬(l.buf.store l.buf.tail r.bytes).bipbufUnused < (r.bytes.length : ℕ) := by
      rw [BipBuf.unused_store, r.length_bytes]
      exact fun less => full (lt_of_lt_of_le less (by exact_mod_cast small))
    obtain ⟨buf, pushed⟩ : ∃ buf, (l.buf.store l.buf.tail r.bytes).bipbufPush r.bytes.length =
        some buf := ⟨_, by rw [BipBuf.bipbufPush, if_neg room]⟩
    obtain ⟨valid, start, regions⟩ := h.valid.append r.bytes_ne_nil pushed
    have result : (l.buf.store l.buf.tail (e.encode fun i => l.buf.data (l.buf.tail + i))).bipbufPush
        (sizeofLogentry + e.body.size) = some buf := by
      rw [← pushed, r.length_bytes]
      rfl
    simp only [append, result]
    rcases regions with ⟨regionA, noB, regionB⟩ | ⟨regionA, regionB⟩
    · -- Region B is not in use, so the record goes to the end of region A.
      obtain rfl : bs = [] := eq_nil_of_recordBytes (h.regionB.symm.trans noB)
      refine ⟨as ++ [r], [], ahead ++ [r], valid, ?_, regionB, h.unread.snoc start r, ?_, h.counted,
        h.unfailed, h.unaborted⟩
      · rw [regionA, h.regionA, recordBytes_append]
        simp [recordBytes]
      · rw [List.map_append, h.fifo]
        simp [recordEntries, r]
    · refine ⟨as, bs ++ [r], ahead, valid, regionA.trans h.regionA, ?_, h.unread.same start, ?_,
        h.counted, h.unfailed, h.unaborted⟩
      · rw [regionB, h.regionB, recordBytes_append]
        simp [recordBytes]
      · rw [List.map_append, h.fifo]
        simp [recordEntries, r]

theorem Queued.peek (h : Queued l as bs ahead) (idle : l.reader = .idle) :
    ∃ ahead', Queued l.peek as bs ahead' := by
  have unread := h.unread
  rw [idle] at unread
  cases unread
  rw [WorkerLog.peek, BipBuf.bipbufPeekAll]
  split_ifs with empty
  · exact ⟨as, h⟩
  · have occupied : as ≠ [] := by
      rintro rfl
      have length := congrArg List.length h.regionA
      rw [BipBuf.regionA, length_slice] at length
      have ordered := h.valid.ordered
      refine empty (beq_iff_eq.2 ?_)
      change _ = 0 at length
      omega
    have size : l.buf.aEnd - l.buf.aStart = (recordBytes ([] ++ as)).length := by
      rw [List.nil_append, ← h.regionA, BipBuf.regionA, length_slice]
    refine ⟨as, h.valid, h.regionA, h.regionB, ?_, h.fifo, h.counted, h.unfailed, h.unaborted⟩
    have reading : Unread l.buf as (.reading l.buf.aStart (recordBytes ([] ++ as)).length
        (recordBytes []).length) (as ++ []) := .reading (by simp) (by simpa using occupied)
    rw [← size, List.append_nil] at reading
    exact reading

theorem Queued.parse (h : Queued l as bs ahead) {start size pos : ℕ}
    (reading : l.reader = .reading start size pos) (more : pos < size) :
    ∃ ahead', Queued (l.parse start size pos) as bs ahead' := by
  have unread := h.unread
  rw [reading] at unread
  cases unread with
  | @reading done todo newer split peeked =>
    cases todo with
    | nil =>
      rw [List.append_nil] at more
      exact absurd more (Nat.lt_irrefl _)
    | cons r todo =>
      have bytes : slice l.buf.data (l.buf.aStart + (recordBytes done).length)
          ((recordBytes (done ++ r :: todo)).length - (recordBytes done).length) =
          r.bytes ++ recordBytes todo := by
        have length := congrArg List.length h.regionA
        rw [BipBuf.regionA, length_slice, split, recordBytes_append, List.length_append] at length
        rw [slice_sub (n := l.buf.aEnd - l.buf.aStart) _ (by omega), ← BipBuf.regionA, h.regionA, split,
          recordBytes_append done, List.length_append, Nat.add_sub_cancel_left, List.append_assoc,
          recordBytes_append done, List.drop_left, recordBytes_append, List.take_left]
        rfl
      have next : (recordBytes done).length + (sizeofLogentry + r.entry.body.size) =
          (recordBytes (done ++ [r])).length := by
        rw [recordBytes_append, List.length_append, ← r.length_bytes]
        simp [recordBytes]
      refine ⟨todo ++ newer, h.valid, h.regionA, h.regionB, ?_, ?_, h.counted, h.unfailed, h.unaborted⟩
      · simp only [WorkerLog.parse, bytes, LogRecord.parseEntry_bytes, next]
        rw [List.append_cons]
        exact .reading (by simp [split]) (by simp)
      · simp only [WorkerLog.parse, bytes, LogRecord.parseEntry_bytes, h.fifo]
        simp [recordEntries]

/-- The loop ends behind the last record that was peeked, and the poll removes those records. -/
theorem Queued.poll (h : Queued l as bs ahead) {start size pos : ℕ}
    (reading : l.reader = .reading start size pos) (done : ¬pos < size) :
    ∃ as' bs', Queued (l.poll size pos) as' bs' as' := by
  obtain ⟨parsed, rfl, rfl, rfl, peeked⟩ := h.unread.finished reading done
  have positive : 0 < (recordBytes parsed).length :=
    List.length_pos_of_ne_nil (mt eq_nil_of_recordBytes peeked)
  have regionA := h.regionA
  rw [recordBytes_append] at regionA
  obtain ⟨buf, polled, valid, regions⟩ := h.valid.poll positive (by simp [regionA])
  simp only [WorkerLog.poll, if_neg (Nat.lt_irrefl _), polled]
  rcases regions with ⟨rest, same⟩ | ⟨all, moved, none⟩
  · refine ⟨ahead, bs, valid, ?_, same.trans h.regionB, .idle, h.fifo, ?_, h.unfailed, h.unaborted⟩
    · rw [rest, regionA, List.drop_left]
    · exact h.counted
  · -- Nothing arrived behind the records read, so region B takes the place of A.
    rw [regionA, List.length_append] at all
    obtain rfl : ahead = [] :=
      eq_nil_of_recordBytes (List.eq_nil_of_length_eq_zero (by omega))
    refine ⟨bs, [], valid, moved.trans h.regionB, none, .idle, ?_, ?_, h.unfailed, h.unaborted⟩
    · rw [List.append_nil]
      exact h.fifo
    · exact h.counted

theorem Queued.next (h : Queued l as bs ahead) {step : WorkerStep} (short : step.Short)
    (moved : l.next step = some l') : ∃ as' bs' ahead', Queued l' as' bs' ahead' := by
  cases step with
  | log ev gid tvSec tvUsec =>
    simp only [WorkerLog.next] at moved
    split_ifs at moved with refusing
    obtain rfl := Option.some.inj moved
    exact h.loggerLog short (Bool.eq_false_of_not_eq_true refusing)
  | drop =>
    simp only [WorkerLog.next] at moved
    split_ifs at moved with refusing
    obtain rfl := Option.some.inj moved
    refine ⟨as, bs, ahead, h.valid, h.regionA, h.regionB, h.unread, h.fifo, ?_, h.unfailed,
      h.unaborted⟩
    have counted := h.counted
    rw [if_pos refusing] at counted
    simp only [counted, if_neg Bool.false_ne_true]
    omega
  | peek =>
    simp only [WorkerLog.next] at moved
    split at moved
    · next idle =>
      obtain rfl := Option.some.inj moved
      exact ⟨as, bs, h.peek idle⟩
    · cases moved
  | parse =>
    simp only [WorkerLog.next] at moved
    split at moved
    · cases moved
    · next reading =>
      split_ifs at moved with more
      obtain rfl := Option.some.inj moved
      exact ⟨as, bs, h.parse reading more⟩
  | poll =>
    simp only [WorkerLog.next] at moved
    split at moved
    · cases moved
    · next reading =>
      split_ifs at moved with more
      obtain rfl := Option.some.inj moved
      obtain ⟨as', bs', h'⟩ := h.poll reading more
      exact ⟨as', bs', as', h'⟩

/-! ## What is read -/

/-- The bytes the logger thread has still to read: the rest of region A, then region B. -/
def unread (l : WorkerLog) : List UInt8 :=
  match l.reader with
  | .idle => l.buf.regionA ++ l.buf.regionB
  | .reading _ _ pos => l.buf.regionA.drop pos ++ l.buf.regionB

end WorkerLog

namespace WorkerLog

variable {l : WorkerLog} {as bs ahead : List LogRecord}

def Step (l : WorkerLog) (step : WorkerStep) (l' : WorkerLog) : Prop := l.next step = some l'

end WorkerLog

end LogMemcached

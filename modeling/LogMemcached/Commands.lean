import LogMemcached.Items

/-!
# Client commands

The command paths of `memcached.c` over the store: storage commands in their two halves (the header
line and the completed data block), retrieval, `touch`, `incr` and `decr`, the three steps of an
ASCII `delete`, binary `delete` and `flush_all`.  Arguments are given as numbers and byte strings;
the text that carries them is not modelled here.
-/

namespace LogMemcached

open ByteMem CText Fallible

/-! ## Replies -/

/-- The `NREAD_*` codes. -/
inductive NreadComm
  | add
  | set
  | replace
  | append
  | prepend
  | cas
deriving DecidableEq, Repr

/-- `enum store_item_type`, as far as `do_store_item` returns it. -/
inductive StoreItemType
  | notStored
  | stored
  | exists
  | notFound
deriving DecidableEq, Repr

/-- `enum delta_result_type`; a successful change carries the new value. -/
inductive DeltaResult
  | ok (value : ℕ)
  | nonNumeric
  | eom
  | itemNotFound
  | casMismatch
deriving DecidableEq, Repr

/-- The one-line answers to ASCII commands. -/
inductive Reply
  | stored
  | notStored
  | exists
  | notFound
  | badDataChunk
  | badFormat
  | tooLarge
  | noMemoryStoring
  | touched
  | deleted
  | noMemoryDelete
  | nonNumeric
  | noMemory
  | number (value : ℕ)
  | ok
  | flushNotAllowed
deriving DecidableEq, Repr

/-- The text of an answer, without its line end. -/
def Reply.text : Reply → String
  | .stored => "STORED"
  | .notStored => "NOT_STORED"
  | .exists => "EXISTS"
  | .notFound => "NOT_FOUND"
  | .badDataChunk => "CLIENT_ERROR bad data chunk"
  | .badFormat => "CLIENT_ERROR bad command line format"
  | .tooLarge => "SERVER_ERROR object too large for cache"
  | .noMemoryStoring => "SERVER_ERROR out of memory storing object"
  | .touched => "TOUCHED"
  | .deleted => "DELETED"
  | .noMemoryDelete => "SERVER_ERROR Out of memory allocating new item"
  | .nonNumeric => "CLIENT_ERROR cannot increment or decrement non-numeric value"
  | .noMemory => "SERVER_ERROR out of memory"
  | .number value => toString value
  | .ok => "OK"
  | .flushNotAllowed => "CLIENT_ERROR flush_all not allowed"

/-- The answer of `complete_nread_ascii` to a storage result. -/
def StoreItemType.reply : StoreItemType → Reply
  | .notStored => .notStored
  | .stored => .stored
  | .exists => .exists
  | .notFound => .notFound

/-- `KEY_MAX_LENGTH`. -/
def keyMaxLength : ℕ := 250

/-- `REALTIME_MAXDELTA`. -/
def realtimeMaxdelta : ℤ := 60 * 60 * 24 * 30

/-- `safe_strtoull` on the bytes that begin at `str`. -/
def safeStrtoull (str : List UInt8) : Option ℕ :=
  let text := str.takeWhile (· != 0)
  match scanNumber text with
  | none => none
  | some n =>
      let ull := if n.negative then (2 ^ 64 - n.magnitude) % 2 ^ 64 else n.magnitude
      if 2 ^ 64 ≤ n.magnitude then none
      else if n.rest.head?.all isSpace then
        if 2 ^ 63 ≤ ull ∧ 45 ∈ text then none else some ull
      else none

namespace Store

/-- `realtime`. -/
def realtime (s : Store) (exptime : ℤ) : ℕ :=
  if exptime = 0 then 0
  else if exptime > realtimeMaxdelta then
    if exptime ≤ s.settings.processStarted then 1
    else ((exptime - s.settings.processStarted) % 2 ^ 32).toNat
  else ((exptime + s.currentTime) % 2 ^ 32).toNat

/-! ## Storage commands -/

/-- `_store_item_copy_data`. -/
def storeItemCopyData (s : Store) (comm : NreadComm) (old new add : ℕ) : Store :=
  let m := s.log.mem
  let (first, second) := if comm = .append then (old, add) else (add, old)
  let base := itemData m (s.itemOf new)
  let m' := write m base (dataOf m (s.itemOf first))
  s.setMem (write m' (base + nbytesOf m (s.itemOf first) - 2) (dataOf m' (s.itemOf second)))

/-- The last branch of `do_store_item` once an item to link is there. -/
def storeLink (s : Store) (old : Option ℕ) (id : ℕ) : Except Abort Store :=
  match old with
  | some oldId => s.doItemReplace oldId id
  | none => s.doItemLink id

/-- Release an optional reference. -/
def removeOpt (s : Store) : Option ℕ → Except Abort Store
  | none => pure s
  | some id => s.doItemRemove id

/-- The branches of `do_store_item`: the store, `stored`, `new_it` and the final `it`. -/
def storeBranch (s : Store) (comm : NreadComm) (id : ℕ) (old : Option ℕ) :
    Except Abort (Store × StoreItemType × Option ℕ × ℕ) :=
  let m := s.log.mem
  let cas := itemGetCas m (s.itemOf id)
  match comm, old with
  | .add, some oldId => do
      let (s, new) ← s.doItemUpdate oldId
      pure (s, if new.isSome then .stored else .notStored, new, id)
  | .replace, none => pure (s, .notStored, none, id)
  | .append, none => pure (s, .notStored, none, id)
  | .prepend, none => pure (s, .notStored, none, id)
  | .cas, none => pure (s, .notFound, none, id)
  | .cas, some oldId =>
      if cas = itemGetCas m (s.itemOf oldId) then do
        let s ← s.doItemReplace oldId id
        pure (s, .stored, none, id)
      else pure (s, .exists, none, id)
  | .append, some oldId => combine m cas oldId
  | .prepend, some oldId => combine m cas oldId
  | .add, none => do
      let s ← s.storeLink old id
      pure (s, .stored, none, id)
  | .set, _ => do
      let s ← s.storeLink old id
      pure (s, .stored, none, id)
  | .replace, some _ => do
      let s ← s.storeLink old id
      pure (s, .stored, none, id)
where
  /-- Append and prepend: allocate an item for the old and the new data and link it. -/
  combine (m : Mem) (cas oldId : ℕ) : Except Abort (Store × StoreItemType × Option ℕ × ℕ) :=
    if cas ≠ 0 ∧ cas ≠ itemGetCas m (s.itemOf oldId) then pure (s, .exists, none, id)
    else do
      let (s, new, _) ← s.doItemAlloc (keyOf m (s.itemOf id)) (clientFlagsOf m (s.itemOf oldId))
        (exptimeOf m (s.itemOf oldId))
        (nbytesInt m (s.itemOf id) + nbytesInt m (s.itemOf oldId) - 2)
      match new with
      | none => pure (s, .notStored, none, id)
      | some newId =>
          let s := s.storeItemCopyData comm oldId newId id
          let s ← s.storeLink (some oldId) newId
          pure (s, .stored, some newId, newId)

/-- `do_store_item`. -/
def doStoreItem (s : Store) (comm : NreadComm) (id : ℕ) : Except Abort (Store × StoreItemType) := do
  let (s, old) ← s.doItemGet (s.keyAt id)
  let (s, result, new, it) ← s.storeBranch comm id old
  let s ← s.removeOpt old
  let s ← s.removeOpt new
  pure (if result = .stored then s.markItemStored it else s, result)

/-- What a header line leaves on its connection. -/
inductive Update
  | reply (r : Reply)
  | upload (id : ℕ)
deriving DecidableEq, Repr

/-- The exptime of a header line as it is stored. -/
def updateExptime (s : Store) (exptime : ℤ) : ℕ :=
  s.realtime (if exptime < 0 then realtimeMaxdelta + 1 else exptime)

/-- `item_size_ok`, which no size fails. -/
def itemSizeOk (s : Store) (nkey flags : ℕ) (nbytes : ℤ) : Bool :=
  allocTotal s.settings.useCas nkey flags nbytes != 0

/-- What `process_update_command` does with the old item when it gets no new one. -/
def unlinkStale (s : Store) (comm : NreadComm) (key : Key) : Except Abort Store :=
  if comm = .set then do
    let (s, old) ← s.doItemGet key
    match old with
    | none => pure s
    | some id =>
        let s ← s.doItemUnlink id
        s.doItemRemove id
  else pure s

/-- `process_update_command` after its numbers have been read. -/
def processUpdateCommand (s : Store) (comm : NreadComm) (key : Key) (flags : ℕ) (exptime vlen : ℤ)
    (reqCasId : ℕ) : Except Abort (Store × Update) :=
  if key.length > keyMaxLength then pure (s, .reply .badFormat)
  else if vlen < 0 ∨ vlen > 2 ^ 31 - 1 - 2 then pure (s, .reply .badFormat)
  else do
    let (s, it, _) ← s.doItemAlloc key flags (s.updateExptime exptime) (vlen + 2)
    match it with
    | some id =>
        pure (s.setMem (itemSetCas s.log.mem (s.itemOf id) reqCasId), .upload id)
    | none =>
        let reply :=
          if s.itemSizeOk key.length flags (vlen + 2) then Reply.noMemoryStoring else .tooLarge
        let s ← s.unlinkStale comm key
        pure (s, .reply reply)

/-- The test of `complete_nread_ascii` for the line end of a data block. -/
def dataBlockEnds (s : Store) (id : ℕ) : Bool :=
  let m := s.log.mem
  let stop := itemData m (s.itemOf id) + nbytesOf m (s.itemOf id)
  m (stop - 2) == 13 && m (stop - 1) == 10

/-- The two branches of `complete_nread_ascii`. -/
def storeBlock (s : Store) (comm : NreadComm) (id : ℕ) : Except Abort (Store × Reply) :=
  if s.dataBlockEnds id then do
    let (s, ret) ← s.doStoreItem comm id
    pure (s, ret.reply)
  else pure (s.setMem (markCorrupted s.log.mem (s.itemOf id)), .badDataChunk)

/-- `complete_nread_ascii`, which ends with the release of `c->item`. -/
def completeNreadAscii (s : Store) (comm : NreadComm) (id : ℕ) : Except Abort (Store × Reply) := do
  let (s, reply) ← s.storeBlock comm id
  let s ← s.doItemRemove id
  pure (s, reply)

/-! ## Retrieval -/

/-- A piece of a response: bytes of its own, or a range of the log to be read when it is sent. -/
inductive Segment
  | text (bytes : List UInt8)
  | range (off len : ℕ)
deriving DecidableEq, Repr

/-- The bytes a segment stands for in a given memory. -/
def Segment.render (m : Mem) : Segment → List UInt8
  | .text bytes => bytes
  | .range off len => slice m off len

/-- The segments of one hit of `process_get_command`. -/
def hitSegments (m : Mem) (o : ℕ) (returnCas : Bool) : List Segment :=
  let head := [Segment.text [86, 65, 76, 85, 69, 32], .range (itemKey m o) (nkeyOf m o)]
  if returnCas then
    head ++ [.range (itemSuffix m o) (nsuffixOf m o - 2),
      .text (32 :: (decimal (itemGetCas m o) ++ [13, 10])), .range (itemData m o) (nbytesOf m o)]
  else head ++ [.range (itemSuffix m o) (nsuffixOf m o + nbytesOf m o)]

/-- One key of `process_get_command`: the item to hold and its segments. -/
def getKey (s : Store) (returnCas : Bool) (key : Key) :
    Except Abort (Store × Option (ℕ × List Segment)) := do
  let (s, it) ← s.doItemGet key
  match it with
  | none => pure (s, none)
  | some id =>
      let segments := hitSegments s.log.mem (s.itemOf id) returnCas
      let (s, new) ← s.doItemUpdate id
      match new with
      | some newId => pure (s.markItemStored newId, some (newId, segments))
      | none => pure (s, some (id, segments))

/-- Release a list of references in order. -/
def removeAll (s : Store) : List ℕ → Except Abort Store
  | [] => pure s
  | id :: ids => do
      let s ← s.doItemRemove id
      s.removeAll ids

/-- `process_get_command` on its keys, with the hits so far in `items` and `segments`: the queued
response, or `none` after the error for an over-long key. -/
def processGetKeys (s : Store) (returnCas : Bool) (items : List ℕ) (segments : List Segment) :
    List Key → Except Abort (Store × Option (List ℕ × List Segment))
  | [] => pure (s, some (items, segments ++ [.text [69, 78, 68, 13, 10]]))
  | key :: keys =>
      if key.length > keyMaxLength then do
        let s ← s.removeAll items.reverse
        pure (s, none)
      else do
        let (s, hit) ← s.getKey returnCas key
        match hit with
        | none => s.processGetKeys returnCas items segments keys
        | some (id, more) => s.processGetKeys returnCas (items ++ [id]) (segments ++ more) keys

/-- `process_get_command`. -/
def processGetCommand (s : Store) (returnCas : Bool) (keys : List Key) :
    Except Abort (Store × Option (List ℕ × List Segment)) :=
  s.processGetKeys returnCas [] [] keys

/-- The release of `c->ilist` in `conn_release_items`. -/
def connReleaseItems (s : Store) : List ℕ → Except Abort Store
  | [] => pure s
  | id :: ids => do
      check (!(s.metas id).slabbed) .connReleaseSlabbed
      let s ← s.doItemRemove id
      s.connReleaseItems ids

/-! ## Touch and arithmetic -/

/-- `process_touch_command`. -/
def processTouchCommand (s : Store) (key : Key) (exptime : ℤ) : Except Abort (Store × Reply) :=
  if key.length > keyMaxLength then pure (s, .badFormat)
  else do
    let (s, it) ← s.doItemTouch key (s.realtime exptime)
    pure (s, if it.isSome then .touched else .notFound)

/-- The new value of `do_add_delta`. -/
def deltaValue (incr : Bool) (value delta : ℕ) : ℕ :=
  if incr then (value + delta) % 2 ^ 64 else if delta > value then 0 else value - delta

/-- The bytes from the data of an item to the end of the log, which `strtoull` may read. -/
def dataText (s : Store) (id : ℕ) : List UInt8 :=
  let ptr := itemData s.log.mem (s.itemOf id)
  slice s.log.mem ptr (s.log.memLimit - ptr)

/-- The part of `do_add_delta` that writes the new value, once the old one is known. -/
def deltaStore (s : Store) (id value : ℕ) : Except Abort (Store × DeltaResult) :=
  let m := s.log.mem
  let o := s.itemOf id
  let text := decimal value
  if (s.metas id).refcount > 1 then do
    let flags := strtoul ((suffixOf m o).drop 1) % 2 ^ 32
    let (s, new, _) ← s.doItemAlloc (keyOf m o) flags (exptimeOf m o) (text.length + 2)
    match new with
    | none =>
        let s ← s.doItemRemove id
        pure (s, .eom)
    | some newId =>
        let s := s.setMem (write s.log.mem (itemData s.log.mem (s.itemOf newId)) (text ++ [13, 10]))
        let s ← s.doItemReplace id newId
        let cas := if s.settings.useCas then itemGetCas s.log.mem (s.itemOf newId) else 0
        let s := s.setMem (itemSetCas s.log.mem o cas)
        let s := s.markItemStored newId
        let s ← s.doItemRemove newId
        let s ← s.doItemRemove id
        pure (s, .ok value)
  else if (s.metas id).refcount = 1 then do
    let s ← s.doItemRemove id
    pure (s, .itemNotFound)
  else pure (s, .itemNotFound)

/-- `do_add_delta`; ASCII commands pass no CAS id. -/
def doAddDelta (s : Store) (key : Key) (incr : Bool) (delta : ℕ) (cas : Option ℕ) :
    Except Abort (Store × DeltaResult) := do
  let (s, it) ← s.doItemGet key
  match it with
  | none => pure (s, .itemNotFound)
  | some id =>
      let m := s.log.mem
      let o := s.itemOf id
      if nbytesInt m o ≤ 2 then pure (s, .nonNumeric)
      else if cas.getD 0 ≠ 0 ∧ itemGetCas m o ≠ cas.getD 0 then do
        let s ← s.doItemRemove id
        pure (s, .casMismatch)
      else
        match safeStrtoull (s.dataText id) with
        | none => do
            let s ← s.doItemRemove id
            pure (s, .nonNumeric)
        | some value => s.deltaStore id (deltaValue incr value delta)

/-- `process_arithmetic_command`. -/
def processArithmeticCommand (s : Store) (key : Key) (incr : Bool) (delta : ℕ) :
    Except Abort (Store × Reply) :=
  if key.length > keyMaxLength then pure (s, .badFormat)
  else do
    let (s, result) ← s.doAddDelta key incr delta none
    pure (s, match result with
      | .ok value => .number value
      | .nonNumeric => .nonNumeric
      | .eom => .noMemory
      | .itemNotFound => .notFound
      | .casMismatch => .notFound)

/-! ## Deletion and flushing -/

/-- The tombstone step of `process_delete_command`; `false` when the log has no room. -/
def deleteLog (s : Store) (key : Key) : Except Abort (Store × Bool) := do
  let (s, _, succeed) ← s.doItemAlloc key itemDeleted.toNat 0 0
  pure (s, succeed)

/-- The last step of `process_delete_command`. -/
def deleteUnlink (s : Store) (id : ℕ) : Except Abort Store := do
  let s ← s.doItemUnlink id
  s.doItemRemove id

/-- `process_delete_command` without interruption.  After a failed allocation the reference taken
by the lookup is not released. -/
def processDeleteCommand (s : Store) (key : Key) : Except Abort (Store × Reply) :=
  if key.length > keyMaxLength then pure (s, .badFormat)
  else do
    let (s, it) ← s.doItemGet key
    match it with
    | none => pure (s, .notFound)
    | some id => do
        let (s, succeed) ← s.deleteLog key
        if succeed then do
          let s ← s.deleteUnlink id
          pure (s, .deleted)
        else pure (s, .noMemoryDelete)

/-- `process_bin_delete`; `true` when the item was deleted. -/
def processBinDelete (s : Store) (key : Key) (cas : ℕ) : Except Abort (Store × Bool) := do
  let (s, it) ← s.doItemGet key
  match it with
  | none => pure (s, false)
  | some id =>
      if cas = 0 ∨ cas = itemGetCas s.log.mem (s.itemOf id) then do
        let s ← s.doItemUnlink id
        let s ← s.doItemRemove id
        pure (s, true)
      else do
        let s ← s.doItemRemove id
        pure (s, false)

/-- `flush_all` and `process_bin_flush`, which agree. -/
def flushAll (s : Store) (exptime : ℤ) : Store × Reply :=
  if s.settings.flushEnabled then
    let newOldest := if exptime > 0 then s.realtime exptime else s.currentTime
    if s.settings.useCas then
      let oldestLive := (newOldest + (2 ^ 32 - 1)) % 2 ^ 32
      if oldestLive ≤ s.currentTime then
        let next := (s.casId + 1) % 2 ^ 64
        ({ s with oldestLive := oldestLive, oldestCas := next, casId := next }, .ok)
      else ({ s with oldestLive := oldestLive }, .ok)
    else ({ s with oldestLive := newOldest }, .ok)
  else (s, .flushNotAllowed)

end Store

end LogMemcached

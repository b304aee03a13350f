import LogMemcached.Store

/-!
# Items in the log

The rest of `items.c`: `do_item_alloc` with the two kinds of record it writes, lookups with lazy
flush and expiry, the relinking of `touch` and of `lru_log`, and the cleaner of `memlog.c` together
with the eviction it causes.
-/

namespace LogMemcached

open ByteMem CText Fallible

/-! ## Records as they are written -/

/-- The bits of an `int` field. -/
def intBits (z : ℤ) : ℕ := (z % 2 ^ 32).toNat

/-- The signed value of `nbytes`. -/
def nbytesInt (m : Mem) (o : ℕ) : ℤ :=
  if nbytesOf m o < 2 ^ 31 then nbytesOf m o else nbytesOf m o - 2 ^ 32

/-- The tombstone `do_item_alloc` writes for `flags` with `ITEM_DELETED`. -/
def writeTombstone (m : Mem) (o : ℕ) (key : Key) (flags : ℕ) (nbytes : ℤ) : Mem :=
  let suffix := (itemMakeHeader (key.length + 1) flags nbytes).2
  let m := setFlags m o (flagsOf m o ||| itemDeleted)
  let m := write m (o + 10) [UInt8.ofNat key.length]
  let m := write m (o + 4) (le32 (intBits nbytes))
  let m := write m (itemKey m o) key
  let m := write m (itemSuffix m o) suffix
  let m := write m (o + 8) [UInt8.ofNat suffix.length]
  markStored m o

/-- The record `do_item_alloc` writes for an item. -/
def writeItem (useCas : Bool) (m : Mem) (o : ℕ) (key : Key) (flags exptime : ℕ) (nbytes : ℤ) :
    Mem :=
  let suffix := (itemMakeHeader (key.length + 1) flags nbytes).2
  let m := setFlags m o (flagsOf m o ||| if useCas then itemCas else 0)
  let m := setFlags m o (flagsOf m o ||| itemDirty)
  let m := write m (o + 10) [UInt8.ofNat key.length]
  let m := write m (o + 4) (le32 (intBits nbytes))
  let m := write m (itemKey m o) key
  let m := write m o (le32 exptime)
  let m := write m (itemSuffix m o) suffix
  write m (o + 8) [UInt8.ofNat suffix.length]

/-- The test `flags & ITEM_DELETED` on client flags. -/
def deletedBit (flags : ℕ) : Bool := flags / 128 % 2 = 1

namespace Store

/-- `do_item_alloc`: the item, if one was made, and `*succeed`. -/
def doItemAlloc (s : Store) (key : Key) (flags exptime : ℕ) (nbytes : ℤ) :
    Except Abort (Store × Option ℕ × Bool) :=
  let ntotal := allocTotal s.settings.useCas key.length flags nbytes
  match memlogAllocRetry 3 s.log ntotal with
  | (log, none) => .ok ({ s with log := log }, none, false)
  | (log, some o) =>
      let s := { s with log := log }
      if deletedBit flags then
        .ok (s.setMem (writeTombstone s.log.mem o key flags nbytes), none, true)
      else
        match s.freelistAlloc with
        | none => .error .outOfMetadata
        | some (id, s) =>
            let s := s.updateMeta id fun it => { it with item := o }
            .ok (s.setMem (writeItem s.settings.useCas s.log.mem o key flags exptime nbytes),
              some id, true)

/-! ## Lookups -/

/-- `item_is_flushed`. -/
def itemIsFlushed (s : Store) (id : ℕ) : Bool :=
  let cas := itemGetCas s.log.mem (s.itemOf id)
  if s.oldestLive = 0 ∨ s.oldestLive > s.currentTime then false
  else decide ((s.metas id).time ≤ s.oldestLive) ||
    (s.oldestCas != 0 && cas != 0 && decide (cas < s.oldestCas))

/-- The expiry test of `do_item_get`. -/
def itemIsExpired (s : Store) (id : ℕ) : Bool :=
  let exptime := exptimeOf s.log.mem (s.itemOf id)
  exptime != 0 && decide (exptime ≤ s.currentTime)

/-- `do_item_get`. -/
def doItemGet (s : Store) (key : Key) : Except Abort (Store × Option ℕ) :=
  match s.assocFind key with
  | none => pure (s, none)
  | some id =>
      let s := s.refcountIncr id
      if s.itemIsFlushed id || s.itemIsExpired id then do
        let s ← s.doItemUnlink id
        let s ← s.doItemRemove id
        pure (s, none)
      else pure (s, some id)

/-! ## Relinking -/

/-- `memcpy(ITEM_data(new_it->item), ITEM_data(old_it->item), old_it->item->nbytes)`. -/
def copyData (s : Store) (id newId : ℕ) : Store :=
  let m := s.log.mem
  s.setMem (write m (itemData m (s.itemOf newId)) (dataOf m (s.itemOf id)))

/-- Clear `ITEM_DIRTY` and set `ITEM_STORED` on the record of an item. -/
def markItemStored (s : Store) (id : ℕ) : Store := s.setMem (markStored s.log.mem (s.itemOf id))

/-- `do_item_get_update`: the new item, if the log had room for it. -/
def doItemGetUpdate (s : Store) (id : ℕ) : Except Abort (Store × Option ℕ) := do
  let m := s.log.mem
  let o := s.itemOf id
  let (s, new, _) ← s.doItemAlloc (keyOf m o) (clientFlagsOf m o) (exptimeOf m o) (nbytesInt m o)
  match new with
  | none =>
      let s ← s.doItemRemove id
      pure (s, none)
  | some newId =>
      let s := s.copyData id newId
      let s ← s.doItemReplace id newId
      let s ← s.doItemRemove id
      let s ← s.doItemRemove newId
      pure (s, some newId)

/-- `ITEM_UPDATE_INTERVAL`. -/
def itemUpdateInterval : ℕ := 60

/-- `do_item_update`: the item that replaced this one under `lru_log`, if any; with an item the
caller's `stored` is `STORED`. -/
def doItemUpdate (s : Store) (id : ℕ) : Except Abort (Store × Option ℕ) :=
  if (s.metas id).time < (s.currentTime + (2 ^ 32 - itemUpdateInterval)) % 2 ^ 32 then do
    check (!(s.metas id).slabbed) .itemUpdateSlabbed
    if (s.metas id).linked then
      let s := s.updateMeta id fun it => { it with time := s.currentTime }
      if s.settings.lruLogEnabled then
        if (s.metas id).getCount ≥ s.settings.lruLogGetCount then do
          let (s, new) ← s.doItemGetUpdate id
          match new with
          | none => pure (s, none)
          | some newId =>
              pure (s.updateMeta newId fun it => { it with getCount := 0 }, some newId)
        else
          pure (s.updateMeta id fun it => { it with getCount := (it.getCount + 1) % 2 ^ 32 }, none)
      else pure (s, none)
    else pure (s, none)
  else pure (s, none)

/-- `do_item_touch`. -/
def doItemTouch (s : Store) (key : Key) (exptime : ℕ) : Except Abort (Store × Option ℕ) := do
  let (s, old) ← s.doItemGet key
  match old with
  | none => pure (s, none)
  | some id =>
      let m := s.log.mem
      let o := s.itemOf id
      let (s, new, _) ← s.doItemAlloc (slice m (itemKey m o) key.length) (clientFlagsOf m o) exptime
        (nbytesInt m o)
      match new with
      | none =>
          let s ← s.doItemRemove id
          pure (s, none)
      | some newId =>
          let s := s.copyData id newId
          let s ← s.doItemReplace id newId
          let s ← s.doItemRemove id
          let s ← s.doItemRemove newId
          pure (s.markItemStored newId, some newId)

/-! ## The cleaner -/

/-- The eviction part of `memlog_free_item`: unlink the item of the record about to be freed, when
it is still the one in the table. -/
def memlogEvict (s : Store) : Except Abort Store :=
  let m := s.log.mem
  let o := s.log.memCurrentFreeing
  let flags := flagsOf m o
  if has flags itemCorrupted || has flags itemDeleted || has flags itemCycle then pure s
  else
    match s.assocFind (keyOf m o) with
    | none => pure s
    | some id => if s.itemOf id = o then s.doItemUnlink id else pure s

/-- `memlog_free_item`. -/
def memlogFreeItem (s : Store) : Except Abort (Store × ℕ) := do
  let s ← s.memlogEvict
  pure ({ s with log := s.log.freeItem.1 }, s.log.freeItem.2)

/-- `memlog_free_chunk`, with fuel as in `Memlog.freeChunk`. -/
def memlogFreeChunk : ℕ → Store → ℕ → Except Abort (Store × ℕ)
  | 0, _, _ => .error .cleanerSpins
  | fuel + 1, s, freed =>
      if freed < s.log.toFree then
        if s.log.memCurrentFreeing % 2 ^ 32 ≥ s.log.memLimit then pure (s, freed)
        else do
          let (s, n) ← s.memlogFreeItem
          s.memlogFreeChunk fuel ((freed + n) % 2 ^ 32)
      else pure (s, freed)

/-- `memlog_clean`: the store afterwards and the bytes freed. -/
def memlogClean (s : Store) : Except Abort (Store × ℕ) := do
  let (s, freed) ← s.memlogFreeChunk (s.log.toFree + 1) 0
  pure ({ s with log := s.log.settle freed }, freed)

/-- `lru_maintainer_free`. -/
def lruMaintainerFree (s : Store) : Except Abort Store :=
  if lruMaintainerGuard s.log then do
    let (s, _) ← s.memlogClean
    pure s
  else pure s

end Store

end LogMemcached

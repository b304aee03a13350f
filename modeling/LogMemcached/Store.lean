import LogMemcached.Memlog
import LogMemcached.Lib.Fallible

/-!
# The item store

`items.c` and the lookups of `assoc.c`: item metadata with their freelist and reference counts, the
hash table, and the operations that allocate, link, unlink, replace and release items.  An item is
named by the index of its metadata; the key, suffix and data of an item are always read from the
log.  A failed assertion aborts the server.
-/

namespace LogMemcached

open ByteMem CText Fallible

/-- Why the server stops: an assertion that the modelled paths can trip, or a cleaner or a replica
that loops for ever over a record of length zero. -/
inductive Abort
  | itemLinkFlags
  | itemRemoveSlabbed
  | itemRemoveRefcount
  | itemFreeLinked
  | itemFreeRefcount
  | itemReplaceSlabbed
  | itemUpdateSlabbed
  | itemLinkQSlabbed
  | assocDeleteMissing
  | outOfMetadata
  | connReleaseSlabbed
  | cleanerSpins
  | replicationSpins
deriving DecidableEq, Repr

/-! ## State -/

/-- `item_metadata`; the freelist and hash chains are kept as lists of the store, and of `it_flags`
the two bits that are read. -/
structure ItemMeta where
  item : ℕ
  time : ℕ
  refcount : ℕ
  getCount : ℕ
  linked : Bool
  slabbed : Bool
deriving DecidableEq, Repr

/-- The settings the store reads. -/
structure Settings where
  useCas : Bool
  lruLogEnabled : Bool
  lruLogGetCount : ℕ
  processStarted : ℕ
  itemSizeMax : ℕ
  flushEnabled : Bool
deriving DecidableEq, Repr

/-- `settings_init`. -/
def settingsInit (processStarted : ℕ) : Settings where
  useCas := true
  lruLogEnabled := false
  lruLogGetCount := 0
  processStarted := processStarted
  itemSizeMax := 1024 * 1024
  flushEnabled := true

/-- The counters kept with the linked items; `sizesHist` is `stats_sizes_hist` with its bucket
number and the CAS id from which it counts. -/
structure ItemStats where
  currBytes : UInt64
  currItems : UInt64
  totalItems : UInt64
  hashItems : UInt32
  sizes : UInt32
  sizesBytes : UInt64
  sizesHist : Option (ℕ → UInt32)
  sizesBuckets : ℕ
  sizesCasMin : ℕ

/-- The state of the server without its connections. -/
@[ext]
structure Store where
  settings : Settings
  log : Memlog
  metas : ℕ → ItemMeta
  freelist : List ℕ
  table : List ℕ
  casId : ℕ
  currentTime : ℕ
  oldestLive : ℕ
  oldestCas : ℕ
  stats : ItemStats

/-- The indices below `n`, the last one first. -/
def down : ℕ → List ℕ
  | 0 => []
  | n + 1 => n :: down n

/-- `sizeof(item_metadata)`. -/
def sizeofItemMetadata : ℕ := 48

/-- The number of metadata `freelist_init` makes. -/
def freelistSize (limit : ℕ) : ℕ := limit / sizeofItemMetadata

/-- `MEMLOG_DEFAULT_SIZE`. -/
def memlogDefaultSize : ℕ := 1 * 1024 * 1024 * 1024

/-- `memlog_init`, `freelist_init` and `assoc_init`, for a log of `limit` bytes. -/
def Store.init (settings : Settings) (limit currentTime : ℕ) : Store where
  settings := settings
  log := memlogInit limit
  metas := fun id => ⟨0, 0, 0, 0, false, decide (id < freelistSize limit)⟩
  freelist := down (freelistSize limit)
  table := []
  casId := 0
  currentTime := currentTime
  oldestLive := 0
  oldestCas := 0
  stats := ⟨0, 0, 0, 0, 0, 0, none, 0, 0⟩

namespace Store

/-- The offset of the record of an item. -/
def itemOf (s : Store) (id : ℕ) : ℕ := (s.metas id).item

/-- The key of an item, read from its record. -/
def keyAt (s : Store) (id : ℕ) : Key := keyOf s.log.mem (s.itemOf id)

def setMem (s : Store) (m : Mem) : Store := { s with log := { s.log with mem := m } }

def updateMeta (s : Store) (id : ℕ) (f : ItemMeta → ItemMeta) : Store :=
  { s with metas := Function.update s.metas id (f (s.metas id)) }

/-! ## Metadata freelist -/

/-- `do_freelist_alloc`. -/
def freelistAlloc (s : Store) : Option (ℕ × Store) :=
  match s.freelist with
  | [] => none
  | id :: rest =>
      some (id, { s with freelist := rest }.updateMeta id fun it =>
        { it with slabbed := false, refcount := 1, getCount := 0 })

/-- `do_freelist_free`. -/
def freelistFree (s : Store) (id : ℕ) : Store :=
  { s with freelist := id :: s.freelist }.updateMeta id fun it =>
    { it with linked := false, slabbed := true }

/-! ## Hash table -/

/-- `assoc_find`. -/
def assocFind (s : Store) (key : Key) : Option ℕ := s.table.find? fun id => s.keyAt id == key

/-- `assoc_insert`. -/
def assocInsert (s : Store) (id : ℕ) : Store :=
  { s with
    table := id :: s.table
    stats := { s.stats with hashItems := s.stats.hashItems + 1 } }

/-- `assoc_delete`. -/
def assocDelete (s : Store) (key : Key) : Except Abort Store := do
  check (s.assocFind key).isSome .assocDeleteMissing
  pure { s with
    table := s.table.eraseP fun id => s.keyAt id == key
    stats := { s.stats with hashItems := s.stats.hashItems - 1 } }

/-! ## Reference counts -/

/-- `refcount_incr`, on an `unsigned short`. -/
def refcountIncr (s : Store) (id : ℕ) : Store :=
  s.updateMeta id fun it => { it with refcount := (it.refcount + 1) % 2 ^ 16 }

/-- `refcount_decr`. -/
def refcountDecr (s : Store) (id : ℕ) : Store :=
  s.updateMeta id fun it => { it with refcount := (it.refcount + (2 ^ 16 - 1)) % 2 ^ 16 }

/-- `item_free`. -/
def itemFree (s : Store) (id : ℕ) : Except Abort Store := do
  check (!(s.metas id).linked) .itemFreeLinked
  check ((s.metas id).refcount == 0) .itemFreeRefcount
  pure (s.freelistFree id)

/-- `do_item_remove`. -/
def doItemRemove (s : Store) (id : ℕ) : Except Abort Store := do
  check (!(s.metas id).slabbed) .itemRemoveSlabbed
  check (decide (0 < (s.metas id).refcount)) .itemRemoveRefcount
  let s := s.refcountDecr id
  if (s.metas id).refcount = 0 then s.itemFree id else pure s

/-! ## Linking -/

/-- The histogram bucket of a record. -/
def sizesBucket (s : Store) (id : ℕ) : ℕ := (itemNtotal s.log.mem (s.itemOf id) + 31) / 32

/-- The counters after `item_stats_sizes_add` or `item_stats_sizes_remove`, which differ in
`change`. -/
def sizesChanged (s : Store) (id : ℕ) (change : UInt32 → UInt32) : ItemStats :=
  match s.stats.sizesHist with
  | none => s.stats
  | some hist =>
      if s.stats.sizesCasMin > itemGetCas s.log.mem (s.itemOf id) then s.stats
      else if s.sizesBucket id < s.stats.sizesBuckets then
        { s.stats with
          sizesHist :=
            some (Function.update hist (s.sizesBucket id) (change (hist (s.sizesBucket id)))) }
      else s.stats

/-- `item_stats_sizes_add`. -/
def itemStatsSizesAdd (s : Store) (id : ℕ) : Store := { s with stats := s.sizesChanged id (· + 1) }

/-- `item_stats_sizes_remove`. -/
def itemStatsSizesRemove (s : Store) (id : ℕ) : Store :=
  { s with stats := s.sizesChanged id (· - 1) }

/-- The bytes `sizes_bytes` counts for an item. -/
def sizeBytes (s : Store) (id : ℕ) : UInt64 :=
  UInt64.ofNat (intToSize (nbytesOf s.log.mem (s.itemOf id)))

/-- `do_item_link_q`. -/
def doItemLinkQ (s : Store) (id : ℕ) : Except Abort Store := do
  check (!(s.metas id).slabbed) .itemLinkQSlabbed
  pure { s with stats := { s.stats with
    sizes := s.stats.sizes + 1
    sizesBytes := s.stats.sizesBytes + s.sizeBytes id } }

/-- `do_item_unlink_q`. -/
def doItemUnlinkQ (s : Store) (id : ℕ) : Store :=
  { s with stats := { s.stats with
    sizes := s.stats.sizes - 1
    sizesBytes := s.stats.sizesBytes - s.sizeBytes id } }

/-- `ITEM_set_cas(it, settings.use_cas ? get_cas_id() : 0)`.  The macro draws an id only when the
record has room for one. -/
def setNewCas (s : Store) (id : ℕ) : Store :=
  let next := if s.settings.useCas then (s.casId + 1) % 2 ^ 64 else 0
  { s.setMem (itemSetCas s.log.mem (s.itemOf id) next) with
    casId := if has (flagsOf s.log.mem (s.itemOf id)) itemCas && s.settings.useCas then next
      else s.casId }

/-- The `stats_state` part of `do_item_link`. -/
def statsLink (s : Store) (id : ℕ) : Store :=
  { s with stats := { s.stats with
    currBytes := s.stats.currBytes + UInt64.ofNat (itemNtotal s.log.mem (s.itemOf id))
    currItems := s.stats.currItems + 1
    totalItems := s.stats.totalItems + 1 } }

/-- The `stats_state` part of `do_item_unlink`. -/
def statsUnlink (s : Store) (id : ℕ) : Store :=
  { s with stats := { s.stats with
    currBytes := s.stats.currBytes - UInt64.ofNat (itemNtotal s.log.mem (s.itemOf id))
    currItems := s.stats.currItems - 1 } }

/-- `do_item_link`. -/
def doItemLink (s : Store) (id : ℕ) : Except Abort Store := do
  check (!(s.metas id).linked && !(s.metas id).slabbed) .itemLinkFlags
  let s := s.updateMeta id fun it => { it with linked := true, time := s.currentTime }
  let s := s.statsLink id
  let s := s.setNewCas id
  let s := s.assocInsert id
  let s ← s.doItemLinkQ id
  let s := s.refcountIncr id
  pure (s.itemStatsSizesAdd id)

/-- `do_item_unlink`, and `do_item_unlink_nolock`, its copy. -/
def doItemUnlink (s : Store) (id : ℕ) : Except Abort Store :=
  if (s.metas id).linked then do
    let s := s.updateMeta id fun it => { it with linked := false }
    let s := s.statsUnlink id
    let s := s.itemStatsSizesRemove id
    let s ← s.assocDelete (s.keyAt id)
    let s := s.doItemUnlinkQ id
    s.doItemRemove id
  else pure s

/-- `do_item_replace`. -/
def doItemReplace (s : Store) (id newId : ℕ) : Except Abort Store := do
  check (!(s.metas id).slabbed) .itemReplaceSlabbed
  let s ← s.doItemUnlink id
  s.doItemLink newId

end Store

end LogMemcached

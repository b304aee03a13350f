import LogMemcached.StorageSteps

/-!
# The cache behind the table

`Store.contents` is what log, metadata and hash table amount to for a client: a map from keys to
entries, the clock, and the marks that hide entries.  Each operation of the store is described here
by what it does to the cache.
-/

namespace LogMemcached

open ByteMem Tiling Fallible

/-! ## The cache -/

/-- What clients and lookups go by: the data with its line end, the client flags, the expiry, the
CAS id and the time of the last access. -/
@[ext]
structure Content where
  data : List UInt8
  flags : ℕ
  exptime : ℕ
  cas : ℕ
  time : ℕ
deriving DecidableEq, Repr

/-- The linked entries, the clock, the marks of `flush_all` and the last CAS id drawn. -/
@[ext]
structure Contents where
  entries : Key → Option Content
  now : ℕ
  oldestLive : ℕ
  oldestCas : ℕ
  casId : ℕ

namespace Contents

variable {c c' c'' : Contents} {key : Key} {e : Content}

/-- The entry is hidden by a `flush_all`. -/
def flushed (c : Contents) (e : Content) : Bool :=
  if c.oldestLive = 0 ∨ c.oldestLive > c.now then false
  else decide (e.time ≤ c.oldestLive) ||
    (c.oldestCas != 0 && e.cas != 0 && decide (e.cas < c.oldestCas))

def expired (c : Contents) (e : Content) : Bool := e.exptime != 0 && decide (e.exptime ≤ c.now)

def hides (c : Contents) (e : Content) : Bool := c.flushed e || c.expired e

def visible (c : Contents) (key : Key) : Option Content := (c.entries key).filter fun e => !c.hides e

def remove (c : Contents) (key : Key) : Contents :=
  { c with entries := Function.update c.entries key none }

def look (c : Contents) (key : Key) : Contents := if c.visible key = none then c.remove key else c

def nextCas (c : Contents) : ℕ := (c.casId + 1) % 2 ^ 64

def stamp (c : Contents) (e : Content) : Content := { e with cas := c.nextCas, time := c.now }

def link (c : Contents) (key : Key) (e : Content) : Contents :=
  { c with
    entries := Function.update c.entries key (some (c.stamp e))
    casId := c.nextCas }

/-- An access: the time of an entry that was not accessed for a minute moves to the present. -/
def access (c : Contents) (key : Key) : Contents :=
  { c with
    entries := Function.update c.entries key ((c.entries key).map fun e =>
      if e.time < (c.now + (2 ^ 32 - Store.itemUpdateInterval)) % 2 ^ 32
      then { e with time := c.now } else e) }

theorem visible_eq_some : c.visible key = some e ↔ c.entries key = some e ∧ c.hides e = false := by
  simp [visible, Option.filter_eq_some_iff]

theorem remove_of_none (absent : c.entries key = none) : c.remove key = c := by
  refine Contents.ext ?_ rfl rfl rfl rfl
  rw [remove, ← absent, Function.update_eq_self]

theorem link_remove : (c.remove key).link key e = c.link key e := by
  simp only [link, remove, stamp, nextCas, Function.update_idem]

theorem link_look : (c.look key).link key e = c.link key e := by
  unfold look
  split_ifs
  · exact link_remove
  · rfl

theorem visible_link_other {k : Key} (other : k ≠ key) : (c.link key e).visible k = c.visible k := by
  simp only [visible, link, Function.update_of_ne other]
  rfl

/-- Entries are removed, and those that can be seen are accessed. -/
structure Fades (c c' : Contents) : Prop where
  now : c'.now = c.now
  oldestLive : c'.oldestLive = c.oldestLive
  oldestCas : c'.oldestCas = c.oldestCas
  casId : c'.casId = c.casId
  entries : ∀ key e', c'.entries key = some e' → ∃ e, c.entries key = some e ∧
    (e' = e ∨ c.hides e = false ∧ e' = { e with time := c.now })

theorem Fades.refl (c : Contents) : c.Fades c := ⟨rfl, rfl, rfl, rfl, fun _ e found => ⟨e, found, .inl rfl⟩⟩

theorem Fades.of_eq (eq : c' = c) : c.Fades c' := eq ▸ .refl c

theorem Fades.hides (h : c.Fades c') (e : Content) : c'.hides e = c.hides e := by
  simp only [Contents.hides, flushed, expired, h.now, h.oldestLive, h.oldestCas]

theorem Fades.trans (h : c.Fades c') (h' : c'.Fades c'') : c.Fades c'' := by
  refine ⟨h'.now.trans h.now, h'.oldestLive.trans h.oldestLive, h'.oldestCas.trans h.oldestCas,
    h'.casId.trans h.casId, fun key e'' found => ?_⟩
  obtain ⟨e', found', last⟩ := h'.entries key e'' found
  obtain ⟨e, first, before⟩ := h.entries key e' found'
  refine ⟨e, first, ?_⟩
  rw [h.hides, h.now] at last
  rcases before with rfl | ⟨shown, rfl⟩
  · exact last
  · rcases last with rfl | ⟨-, rfl⟩ <;> exact .inr ⟨shown, rfl⟩

theorem fades_remove (c : Contents) (key : Key) : c.Fades (c.remove key) := by
  refine ⟨rfl, rfl, rfl, rfl, fun k e found => ?_⟩
  simp only [remove, Function.update_apply] at found
  split_ifs at found
  exact ⟨e, found, .inl rfl⟩

theorem fades_look (c : Contents) (key : Key) : c.Fades (c.look key) := by
  unfold look
  split_ifs
  · exact fades_remove c key
  · exact .refl c

theorem fades_access (shown : c.visible key = some e) : c.Fades (c.access key) := by
  obtain ⟨linked, shown⟩ := visible_eq_some.1 shown
  refine ⟨rfl, rfl, rfl, rfl, fun k e' found => ?_⟩
  simp only [access, Function.update_apply] at found
  split_ifs at found with same
  · rw [linked, Option.map_some, Option.some.injEq] at found
    refine ⟨e, same ▸ linked, ?_⟩
    split_ifs at found
    · exact .inr ⟨shown, found.symm⟩
    · exact .inl found.symm
  · exact ⟨e', found, .inl rfl⟩

/-- What a command does to the cache: entries fade, after at most one link under its key. -/
def Turns (c c' : Contents) (key : Key) (P : Content → Prop) : Prop :=
  c.Fades c' ∨ ∃ e, P e ∧ (c.link key e).Fades c'

end Contents

/-! ## The cache of a store -/

def contentAt (m : Mem) (o time : ℕ) : Content where
  data := dataOf m o
  flags := clientFlagsOf m o
  exptime := exptimeOf m o
  cas := itemGetCas m o
  time := time

namespace Store

def entryOf (s : Store) (id : ℕ) : Content := contentAt s.log.mem (s.itemOf id) (s.metas id).time

def entry (s : Store) (key : Key) : Option Content := (s.assocFind key).map s.entryOf

def contents (s : Store) : Contents := ⟨s.entry, s.currentTime, s.oldestLive, s.oldestCas, s.casId⟩

end Store

variable {s s₁ s' s'' : Store} {lay lay' : Layout} {id newId k p q : ℕ} {key : Key} {b : Block}
  {m m' : Mem} {r : Rec}

theorem hides_entryOf : s.contents.hides (s.entryOf id) = s.itemIsHidden id := rfl

theorem visible_eq : s.contents.visible key = (s.find key).map s.entryOf := by
  change ((s.assocFind key).map s.entryOf).filter _ = ((s.assocFind key).filter _).map s.entryOf
  cases s.assocFind key with
  | none => rfl
  | some id =>
    rw [Option.map_some, Option.filter_some, Option.filter_some, hides_entryOf]
    cases s.itemIsHidden id <;> rfl

theorem visible_of_find (found : s.find key = some id) : s.contents.visible key = some (s.entryOf id) := by
  rw [visible_eq, found, Option.map_some]

theorem visible_none (absent : s.find key = none) : s.contents.visible key = none := by
  rw [visible_eq, absent, Option.map_none]

theorem SweepInv.entry_eq_some {e : Content} (h : SweepInv s lay p) :
    s.entry key = some e ↔ ∃ id ∈ s.table, s.keyAt id = key ∧ s.entryOf id = e := by
  simp only [Store.entry, Option.map_eq_some_iff, h.assocFind_iff, and_assoc]

theorem Whole.contentAt_congr (h : Whole m b) (same : Agree m' m b.off b.stop) (time : ℕ) :
    contentAt m' b.off time = contentAt m b.off time := by
  have decoded := h.recOf_congr same
  have suffix : suffixOf m' b.off = suffixOf m b.off := congrArg Rec.suffix decoded
  refine Content.ext (congrArg Rec.data decoded) ?_ (congrArg Rec.exptime decoded)
    (h.itemGetCas_congr same) rfl
  simp only [contentAt, clientFlagsOf, suffix]

/-! ## Changes that keep the cache -/

structure SameTimes (s s' : Store) : Prop where
  time : ∀ k, (s'.metas k).time = (s.metas k).time
  casId : s'.casId = s.casId

theorem SameTimes.refl (s : Store) : SameTimes s s := ⟨fun _ => rfl, rfl⟩

theorem SameTimes.trans (h : SameTimes s s') (h' : SameTimes s' s'') : SameTimes s s'' :=
  ⟨fun k => (h'.time k).trans (h.time k), h'.casId.trans h.casId⟩

theorem sameTimes_of_update {it : ItemMeta} (metas : s'.metas = Function.update s.metas id it)
    (time : it.time = (s.metas id).time) (casId : s'.casId = s.casId) : SameTimes s s' := by
  refine ⟨fun k => ?_, casId⟩
  rw [metas, Function.update_apply]
  split_ifs with eq
  · rw [time, eq]
  · rfl

theorem sameTimes_doItemRemove (run : s.doItemRemove id = .ok s') : SameTimes s s' := by
  obtain ⟨-, -, ⟨-, rfl⟩ | ⟨-, -, rfl⟩⟩ := doItemRemove_ran run
  · exact sameTimes_of_update rfl rfl rfl
  · have first : SameTimes s (s.refcountDecr id) := sameTimes_of_update rfl rfl rfl
    exact first.trans (sameTimes_of_update rfl rfl rfl)

theorem SweepInv.sameTimes_doItemUnlink (h : SweepInv s lay p) (run : s.doItemUnlink id = .ok s') :
    SameTimes s s' := by
  cases linked : (s.metas id).linked with
  | true =>
    have cut : SameTimes s (s.cut id (s.stats.unlink (s.measure id))) :=
      sameTimes_of_update rfl rfl rfl
    exact cut.trans (sameTimes_doItemRemove (h.doItemUnlink_ran linked run))
  | false =>
    rw [doItemUnlink_unlinked linked run]
    exact .refl s

theorem SameTable.entryOf (same : SameTable s s') (times : SameTimes s s') (k : ℕ) :
    s'.entryOf k = s.entryOf k := by
  rw [Store.entryOf, Store.entryOf, same.log, same.item, times.time]

theorem contents_ext (entries : s'.entry = s.entry) (clock : s'.clock = s.clock)
    (casId : s'.casId = s.casId) : s'.contents = s.contents := by
  simp only [Store.clock, Prod.mk.injEq] at clock
  exact Contents.ext entries clock.1 clock.2.1 clock.2.2 casId

theorem SameTable.contents (same : SameTable s s') (times : SameTimes s s') : s'.contents = s.contents := by
  refine contents_ext (funext fun key => ?_) same.clock times.casId
  rw [Store.entry, Store.entry, same.assocFind, funext (same.entryOf times)]

theorem contents_refcountIncr : (s.refcountIncr id).contents = s.contents :=
  sameTable_refcountIncr.contents (sameTimes_of_update rfl rfl rfl)

theorem contents_doItemRemove (run : s.doItemRemove id = .ok s') : s'.contents = s.contents :=
  (sameTable_doItemRemove run).contents (sameTimes_doItemRemove run)

theorem contents_congr (h : SweepInv s lay p) (h' : SweepInv s' lay' q) (clock : s'.clock = s.clock)
    (casId : s'.casId = s.casId) (table : s'.table = s.table)
    (kept : ∀ k ∈ s.table, s'.keyAt k = s.keyAt k ∧ s'.entryOf k = s.entryOf k) :
    s'.contents = s.contents := by
  refine contents_ext (funext fun key => Option.ext fun e => ?_) clock casId
  rw [h.entry_eq_some, h'.entry_eq_some, table]
  refine exists_congr fun k => and_congr_right fun member => ?_
  rw [(kept k member).1, (kept k member).2]

theorem SweepInv.entry_kept (h : SweepInv s lay p) (member : k ∈ s.table)
    (same : ∀ b ∈ lay.live, b.off = s.itemOf k → Agree s'.log.mem s.log.mem b.off b.stop)
    (item : s'.itemOf k = s.itemOf k) (time : (s'.metas k).time = (s.metas k).time) :
    s'.keyAt k = s.keyAt k ∧ s'.entryOf k = s.entryOf k := by
  obtain ⟨b, hb, off⟩ := h.live k member
  have agree := same b hb off
  have key := congrArg Rec.key ((h.wholeRec hb).recOf_congr agree)
  have entry := (h.wholeRec hb).contentAt_congr agree (s.metas k).time
  simp only [recOf, off] at key entry
  exact ⟨by rw [Store.keyAt, item]; exact key, by rw [Store.entryOf, item, time]; exact entry⟩

theorem SweepInv.contents_setMem (h : SweepInv s lay p) (h' : SweepInv (s.setMem m') lay q)
    (hb : b ∈ lay.live) (outside : ∀ x, x < b.off ∨ b.stop ≤ x → m' x = s.log.mem x)
    (apart : ∀ k ∈ s.table, s.itemOf k ≠ b.off) : (s.setMem m').contents = s.contents := by
  refine contents_congr h h' rfl rfl rfl fun k member => h.entry_kept member (fun c hc off => ?_) rfl rfl
  exact h.agree_other hb hc (fun same => apart k member (by rw [← off, same])) outside

/-! ## Unlinking and lookups -/

theorem Unlinks.contents (cut : Unlinks s s' id) (times : SameTimes s s') (h : SweepInv s lay p)
    (h' : SweepInv s' lay' q) (member : id ∈ s.table) : s'.contents = s.contents.remove (s.keyAt id) := by
  have clock := cut.clock
  simp only [Store.clock, Prod.mk.injEq] at clock
  have entryOf (k : ℕ) : s'.entryOf k = s.entryOf k := by
    rw [Store.entryOf, Store.entryOf, cut.log, cut.item, times.time]
  refine Contents.ext (funext fun key => ?_) clock.1 clock.2.1 clock.2.2 times.casId
  change (s'.assocFind key).map s'.entryOf = Function.update s.entry (s.keyAt id) none key
  rw [cut.assocFind h h' member, Function.update_apply, funext entryOf]
  split_ifs <;> rfl

theorem SweepInv.contents_doItemUnlink (h : SweepInv s lay p) (linked : (s.metas id).linked = true)
    (run : s.doItemUnlink id = .ok s') : s'.contents = s.contents.remove (s.keyAt id) := by
  obtain ⟨inv, cut⟩ := h.doItemUnlink linked run
  exact cut.contents (h.sameTimes_doItemUnlink run) h inv ((h.linked id).2 linked)

theorem StoreInv.contents_get {it : Option ℕ} (h : StoreInv s lay)
    (run : s.doItemGet key = .ok (s', it)) :
    s'.contents = s.contents.look key ∧ it = s.find key ∧ s.contents.visible key = it.map s'.entryOf := by
  cases it with
  | some id =>
    obtain ⟨found, -⟩ := h.get_some run
    obtain ⟨-, same, -, -, rfl⟩ := h.doItemGet_some run
    have shown := visible_of_find found
    refine ⟨?_, found.symm, ?_⟩
    · rw [Contents.look, shown, if_neg (by simp)]
      exact contents_refcountIncr
    · rw [shown, Option.map_some, same.entryOf (sameTimes_of_update rfl rfl rfl)]
  | none =>
    obtain ⟨absent, -⟩ := h.get_none run
    have hidden := visible_none absent
    refine ⟨?_, absent.symm, hidden⟩
    rw [Contents.look, if_pos hidden]
    cases doItemGet_ran run with
    | missing missing same =>
      have none : s.contents.entries key = none := by
        change (s.assocFind key).map s.entryOf = none
        rw [missing, Option.map_none]
      rw [Contents.remove_of_none none, same]
    | hidden id s₁ hit stale unlink remove =>
      obtain ⟨member, eq⟩ := assocFind_linked hit
      have linked : ((s.refcountIncr id).metas id).linked = true := by
        rw [sameTable_refcountIncr.linked]
        exact (h.linked id).1 member
      rw [contents_doItemRemove remove, h.refcountIncr.contents_doItemUnlink linked unlink,
        contents_refcountIncr, sameTable_refcountIncr.keyAt, eq]

/-! ## New records -/

theorem StoreInv.sameTimes_alloc {flags exptime : ℕ} {nbytes : ℤ} {it : Option ℕ} {succeed : Bool}
    (h : StoreInv s lay) (ok : AllocOk s key flags nbytes)
    (run : s.doItemAlloc key flags exptime nbytes = .ok (s', it, succeed)) : SameTimes s s' := by
  obtain ⟨lay', -, -, -, -, alloc⟩ := h.doItemAlloc ok run
  cases alloc with
  | failed live shape => exact ⟨fun k => by rw [shape], by rw [shape]⟩
  | tombstone o marked live shape written => exact ⟨fun k => by rw [shape], by rw [shape]⟩
  | item id o rest plain live free shape written =>
    have metas : s'.metas = Function.update s.metas id
        ⟨o, (s.metas id).time, 1, 0, (s.metas id).linked, false⟩ := by rw [shape]
    exact sameTimes_of_update metas rfl (by rw [shape])

theorem StoreInv.contents_alloc {flags exptime : ℕ} {nbytes : ℤ} {it : Option ℕ} {succeed : Bool}
    (h : StoreInv s lay) (ok : AllocOk s key flags nbytes)
    (run : s.doItemAlloc key flags exptime nbytes = .ok (s', it, succeed)) : s'.contents = s.contents := by
  have times := h.sameTimes_alloc ok run
  obtain ⟨lay', inv, -, same, -, -⟩ := h.doItemAlloc ok run
  obtain ⟨-, -, setup, metas, table, -⟩ := h.logs ok run
  exact contents_congr h inv setup.clock times.casId table fun k member =>
    h.entry_kept member (fun b hb _ => same b hb)
      (congrArg ItemMeta.item (metas k (h.busy member))) (times.time k)

theorem Fresh.contents_write_data (fresh : Fresh s lay id r) (h : StoreInv s lay)
    (apart : ∀ k ∈ s.table, s.itemOf k ≠ r.off) (a : ℕ) (bytes : List UInt8)
    (low : itemData s.log.mem (s.itemOf id) ≤ a)
    (high : a + bytes.length ≤ itemData s.log.mem (s.itemOf id) + r.data.length) :
    (s.setMem (write s.log.mem a bytes)).contents = s.contents := by
  have inv := (fresh.write_data h a bytes low high).inv
  obtain ⟨b, hb, off, eq, -⟩ := fresh.block
  have within := (h.wholeRec hb).data_le
  have base : b.off ≤ itemData s.log.mem b.off := by simp only [itemData]; omega
  have nbytes : nbytesOf s.log.mem b.off = r.data.length := by
    rw [off, nbytesOf_recAt, recAt_eq fresh.mem fresh.off]
  rw [← off] at low high
  refine h.contents_setMem inv hb (fun x hx => write_outside (by omega)) fun k member => ?_
  rw [off, ← fresh.off]
  exact apart k member

theorem StoreInv.contents_setCas (h : StoreInv s lay) (mem : r ∈ s.journal lay)
    (alone : ∀ k ∈ s.table, s.itemOf k ≠ r.off) (cas : ℕ) :
    (s.setMem (itemSetCas s.log.mem r.off cas)).contents = s.contents := by
  have inv := (h.setCas mem alone cas).1
  obtain ⟨b, hb, rfl⟩ := SweepInv.mem_journal.1 mem
  exact h.contents_setMem inv hb (fun x hx => (h.wholeRec hb).setCas_outside cas hx) alone

theorem StoreInv.contents_setFlags (h : StoreInv s lay) (mem : r ∈ s.journal lay) {f : UInt8}
    (cas : has f itemCas = has r.flags itemCas)
    (inv : StoreInv (s.setMem (LogMemcached.setFlags s.log.mem r.off f)) lay) :
    (s.setMem (LogMemcached.setFlags s.log.mem r.off f)).contents = s.contents := by
  obtain ⟨b, hb, rfl⟩ := SweepInv.mem_journal.1 mem
  have whole := h.wholeRec hb
  have whole' := inv.wholeRec hb
  have cas : has f itemCas = has (flagsOf s.log.mem b.off) itemCas := cas
  have decoded : recOf (LogMemcached.setFlags s.log.mem b.off f) b = { recOf s.log.mem b with flags := f } :=
    recOf_setFlags cas
  have outside : ∀ x, x < b.off ∨ b.stop ≤ x → LogMemcached.setFlags s.log.mem b.off f x = s.log.mem x := by
    intro x hx
    have := whole.header
    exact setFlags_outside (by omega)
  refine contents_congr h inv rfl rfl rfl fun k member => ?_
  by_cases same : s.itemOf k = b.off
  · have key : keyOf (LogMemcached.setFlags s.log.mem b.off f) b.off = keyOf s.log.mem b.off :=
      congrArg Rec.key decoded
    have suffix : suffixOf (LogMemcached.setFlags s.log.mem b.off f) b.off = suffixOf s.log.mem b.off :=
      congrArg Rec.suffix decoded
    have measure := whole.measureOf_setFlags whole' cas
    refine ⟨?_, ?_⟩
    · change keyOf (LogMemcached.setFlags s.log.mem b.off f) (s.itemOf k) = keyOf s.log.mem (s.itemOf k)
      rw [same, key]
    · change contentAt (LogMemcached.setFlags s.log.mem b.off f) (s.itemOf k) _ = contentAt s.log.mem (s.itemOf k) _
      rw [same]
      refine Content.ext (congrArg Rec.data decoded) ?_ (congrArg Rec.exptime decoded)
        (congrArg Measure.cas measure) rfl
      simp only [contentAt, clientFlagsOf, suffix]
  · refine h.entry_kept member (fun c hc off => ?_) rfl rfl
    exact h.agree_other hb hc (fun eq => same (by rw [← off, eq])) outside

theorem StoreInv.contents_markItemStored (h : StoreInv s lay) (mem : r ∈ s.journal lay)
    (off : r.off = s.itemOf id) (flags : r.flags = itemCas ||| itemDirty) :
    (s.markItemStored id).contents = s.contents := by
  have inv := (h.markItemStored mem off flags).1
  have same : s.markItemStored id = s.setMem (LogMemcached.setFlags s.log.mem r.off storedFlags) := by
    have next : (flagsOf s.log.mem r.off &&& ~~~itemDirty) ||| itemStored = storedFlags := by
      obtain ⟨b, -, rfl⟩ := SweepInv.mem_journal.1 mem
      rw [show flagsOf s.log.mem (recOf s.log.mem b).off = _ from flags]
      decide
    rw [Store.markItemStored, markStored, ← off, next]
  rw [same] at inv ⊢
  exact h.contents_setFlags mem (by rw [flags]; decide) inv

theorem Fresh.contents_markCorrupted (fresh : Fresh s lay id r) (h : StoreInv s lay)
    (apart : ∀ k ∈ s.table, s.itemOf k ≠ r.off) :
    (s.setMem (LogMemcached.markCorrupted s.log.mem (s.itemOf id))).contents = s.contents := by
  have inv := (fresh.markCorrupted h apart).1
  rw [LogMemcached.markCorrupted, ← fresh.off] at inv ⊢
  refine h.contents_setFlags fresh.mem ?_ inv
  obtain ⟨b, -, rfl⟩ := SweepInv.mem_journal.1 fresh.mem
  rw [show flagsOf s.log.mem (recOf s.log.mem b).off = _ from fresh.flags, fresh.flags]
  decide

/-! ## Linking -/

theorem itemGetCas_itemSetCas {o v : ℕ} (cas : has (flagsOf m o) itemCas = true) :
    itemGetCas (itemSetCas m o v) o = v % 2 ^ 64 := by
  have flags : flagsOf (itemSetCas m o v) o = flagsOf m o := itemSetCas_outside (by omega)
  rw [itemGetCas, flags, if_pos cas, itemSetCas, if_pos cas, u64_write]

theorem Fresh.contents_link (fresh : Fresh s lay id r) (h : StoreInv s lay)
    (absent : s.assocFind r.key = none) (run : s.doItemLink id = .ok s') :
    s'.contents = s.contents.link r.key (s.entryOf id) := by
  obtain ⟨inv, -⟩ := fresh.link h absent run
  obtain ⟨b, hb, off, eq, flags⟩ := fresh.block
  obtain ⟨-, -, rfl⟩ := doItemLink_eq run
  have hasCas : has (flagsOf s.log.mem b.off) itemCas = true := by rw [flags]; decide
  have next : s.nextCas = s.contents.nextCas := by rw [Store.nextCas, h.useCas, if_pos rfl]; rfl
  have links : Links s (s.linkedIn id) id := links_join ..
  have memory : (s.linkedIn id).log.mem = itemSetCas s.log.mem b.off s.nextCas := by
    rw [off]
    rfl
  have decoded : recOf (itemSetCas s.log.mem b.off s.nextCas) b = recOf s.log.mem b :=
    recOf_itemSetCas _
  have suffix : suffixOf (itemSetCas s.log.mem b.off s.nextCas) b.off = suffixOf s.log.mem b.off :=
    congrArg Rec.suffix decoded
  have key : (s.linkedIn id).keyAt id = r.key := by
    rw [Store.keyAt, links.item, memory, ← off, ← eq]
    exact congrArg Rec.key decoded
  have mine : (s.linkedIn id).entryOf id = s.contents.stamp (s.entryOf id) := by
    have time : ((s.linkedIn id).metas id).time = s.currentTime := by
      simp [Store.linkedIn, Store.join]
    rw [Store.entryOf, Store.entryOf, links.item, time, memory, ← off]
    refine Content.ext (congrArg Rec.data decoded) ?_ (congrArg Rec.exptime decoded) ?_ rfl
    · simp only [contentAt, clientFlagsOf, suffix, Contents.stamp]
    · rw [next]
      exact (itemGetCas_itemSetCas hasCas).trans (Nat.mod_mod _ _)
  have others (k : ℕ) (member : k ∈ s.table) :
      (s.linkedIn id).keyAt k = s.keyAt k ∧ (s.linkedIn id).entryOf k = s.entryOf k := by
    have other : k ≠ id := by
      rintro rfl
      have linked := (h.linked k).1 member
      rw [fresh.unlinked] at linked
      cases linked
    refine h.entry_kept member (fun c hc same => ?_) (links.item k) ?_
    · rw [memory]
      refine h.agree_other hb hc (fun eq' => ?_) fun x hx => (h.wholeRec hb).setCas_outside _ hx
      rw [h.assocFind_none] at absent
      refine absent k member ?_
      rw [Store.keyAt, ← same, eq', ← eq]
      rfl
    · exact congrArg ItemMeta.time (Function.update_of_ne other _ _)
  refine Contents.ext (funext fun key' => Option.ext fun e => ?_) rfl rfl rfl ?_
  · change (s.linkedIn id).entry key' = some e ↔
      Function.update s.entry r.key (some (s.contents.stamp (s.entryOf id))) key' = some e
    rw [Function.update_apply, inv.entry_eq_some, links.table]
    simp only [List.mem_cons, exists_eq_or_imp, key, mine]
    split_ifs with same
    · subst same
      rw [h.assocFind_none] at absent
      refine ⟨fun found => ?_, fun eq => .inl ⟨rfl, Option.some.inj eq⟩⟩
      rcases found with ⟨-, rfl⟩ | ⟨k, member, hkey, -⟩
      · rfl
      · rw [(others k member).1] at hkey
        exact absurd hkey (absent k member)
    · rw [h.entry_eq_some]
      refine ⟨fun found => ?_, fun found => ?_⟩
      · rcases found with ⟨hkey, -⟩ | ⟨k, member, hkey, hentry⟩
        · exact absurd hkey.symm same
        · rw [(others k member).1] at hkey
          rw [(others k member).2] at hentry
          exact ⟨k, member, hkey, hentry⟩
      · obtain ⟨k, member, hkey, hentry⟩ := found
        refine .inr ⟨k, member, ?_⟩
        rw [(others k member).1, (others k member).2]
        exact ⟨hkey, hentry⟩
  · change (if has (flagsOf s.log.mem (s.itemOf id)) itemCas && s.settings.useCas then s.nextCas
      else s.casId) = s.contents.nextCas
    rw [← off, hasCas, h.useCas, next]
    rfl

theorem Fresh.contents_replace {oldId : ℕ} (fresh : Fresh s lay id r) (h : StoreInv s lay)
    (member : oldId ∈ s.table) (key : s.keyAt oldId = r.key)
    (run : s.doItemReplace oldId id = .ok s') :
    s'.contents = s.contents.link r.key (s.entryOf id) := by
  rw [Store.doItemReplace, check_bind_ran] at run
  obtain ⟨s₁, unlink, link⟩ := bind_ran.1 run.2
  have linked := (h.linked oldId).1 member
  obtain ⟨inv₁, cut⟩ := h.doItemUnlink linked unlink
  have metas := h.doItemUnlink_metas unlink fresh.unlinked
  have fresh₁ : Fresh s₁ lay id r := by
    refine ⟨?_, ?_, fresh.flags, by rw [metas]; exact fresh.unlinked, by rw [metas]; exact fresh.used⟩
    · rw [cut.journal]
      exact fresh.mem
    · rw [cut.item]
      exact fresh.off
  have absent : s₁.assocFind r.key = none := by
    rw [cut.assocFind h inv₁ member, if_pos key.symm]
  have entry : s₁.entryOf id = s.entryOf id := by
    rw [Store.entryOf, Store.entryOf, cut.log, cut.item, metas]
  rw [fresh₁.contents_link inv₁ absent link, h.contents_doItemUnlink linked unlink, entry, key,
    Contents.link_remove]

/-- The last branch of `do_store_item`, with the item it links. -/
theorem Fresh.contents_storeLink {old : Option ℕ} (fresh : Fresh s lay id r) (h : StoreInv s lay)
    (hit : ∀ oldId, old = some oldId → oldId ∈ s.table ∧ s.keyAt oldId = r.key)
    (miss : old = none → s.assocFind r.key = none) (run : s.storeLink old id = .ok s') :
    s'.contents = s.contents.link r.key (s.entryOf id) := by
  cases old with
  | none => exact fresh.contents_link h (miss rfl) run
  | some oldId =>
    obtain ⟨member, key⟩ := hit oldId rfl
    exact fresh.contents_replace h member key run

/-! ## Accesses -/

/-- Without `lru_log` an access cannot fail. -/
theorem StoreInv.doItemUpdate_eq (h : StoreInv s lay) (off : s.settings.lruLogEnabled = false)
    (member : id ∈ s.table) : s.doItemUpdate id = .ok
      (if (s.metas id).time < (s.currentTime + (2 ^ 32 - Store.itemUpdateInterval)) % 2 ^ 32
        then s.retime id else s, none) := by
  have linked := (h.linked id).1 member
  have used : check (!(s.metas id).slabbed) Abort.itemUpdateSlabbed = .ok () :=
    check_ran.2 (by rw [h.slabbed_of_linked linked]; rfl)
  have quiet : (s.retime id).settings.lruLogEnabled = false := off
  rw [Store.doItemUpdate]
  split_ifs with old
  · rw [used, ok_bind]
    change (if (s.retime id).settings.lruLogEnabled = true then _ else _) = _
    rw [quiet, if_neg (by decide)]
    rfl
  · rfl

theorem SweepInv.entry_linked (h : SweepInv s lay p) (member : id ∈ s.table) :
    s.entry (s.keyAt id) = some (s.entryOf id) :=
  h.entry_eq_some.2 ⟨id, member, rfl, rfl⟩

theorem SweepInv.entry_retime (h : SweepInv s lay p) (member : id ∈ s.table) :
    (s.retime id).entry = Function.update s.entry (s.keyAt id)
      (some { s.entryOf id with time := s.currentTime }) := by
  have same : SameTable s (s.retime id) := sameTable_updateMeta fun _ => ⟨rfl, rfl⟩
  have found : s.assocFind (s.keyAt id) = some id := h.assocFind_iff.2 ⟨member, rfl⟩
  funext key
  rw [Store.entry, same.assocFind, Function.update_apply]
  split_ifs with eq
  · have time : ((s.retime id).metas id).time = s.currentTime := by
      simp [Store.retime, Store.updateMeta]
    rw [eq, found, Option.map_some, Store.entryOf, same.log, same.item, time]
    rfl
  · rw [Store.entry]
    cases other : s.assocFind key with
    | none => rfl
    | some k =>
      have apart : k ≠ id := by
        rintro rfl
        exact eq (assocFind_linked other).2.symm
      have metas : (s.retime id).metas k = s.metas k := Function.update_of_ne apart ..
      rw [Option.map_some, Option.map_some, Store.entryOf, Store.entryOf, same.log, same.item, metas]

theorem StoreInv.contents_update {new : Option ℕ} (h : StoreInv s lay)
    (off : s.settings.lruLogEnabled = false) (member : id ∈ s.table)
    (run : s.doItemUpdate id = .ok (s', new)) : s'.contents = s.contents.access (s.keyAt id) := by
  rw [h.doItemUpdate_eq off member] at run
  obtain ⟨eq, -⟩ := Prod.mk.inj (Except.ok.inj run)
  have entry : s.contents.entries (s.keyAt id) = some (s.entryOf id) := h.entry_linked member
  have time : (s.entryOf id).time = (s.metas id).time := rfl
  have now : s.contents.now = s.currentTime := rfl
  unfold Contents.access
  rw [entry, Option.map_some, time, now]
  split_ifs at eq ⊢ with old
  · subst eq
    exact Contents.ext (h.entry_retime member) rfl rfl rfl rfl
  · subst eq
    refine Contents.ext ?_ rfl rfl rfl rfl
    rw [← entry, Function.update_eq_self]

/-! ## Cleaning -/

theorem SweepInv.sameTimes_freeItem {n : ℕ} (h : SweepInv s lay p)
    (run : s.memlogFreeItem = .ok (s', n)) : SameTimes s s' := by
  obtain ⟨s₁, evict, run⟩ := bind_ran.1 run
  obtain ⟨rfl, -⟩ := pair_ran.1 run
  obtain ⟨-, -, rfl | ⟨k, -, -, unlink, -⟩⟩ := h.memlogEvict evict
  · exact ⟨fun _ => rfl, rfl⟩
  · have cut := h.sameTimes_doItemUnlink unlink
    exact ⟨cut.time, cut.casId⟩

theorem SweepInv.sameTimes_freeChunk {fuel : ℕ} (h : SweepInv s lay p) (short : Short s.log)
    (run : s.memlogFreeChunk fuel p = .ok (s', q)) : SameTimes s s' :=
  h.freeChunk_rule short .refl .trans (fun inv _ first => inv.sameTimes_freeItem first) run

theorem StoreInv.sameTimes_clean {n : ℕ} (h : StoreInv s lay)
    (guard : lruMaintainerGuard s.log = true) (run : s.memlogClean = .ok (s', n)) :
    SameTimes s s' := by
  obtain ⟨⟨s₁, q⟩, chunk, run⟩ := bind_ran.1 run
  obtain ⟨rfl, rfl⟩ := pair_ran.1 run
  have first := h.sameTimes_freeChunk (h.log.short h.limit guard) chunk
  exact ⟨first.time, first.casId⟩

theorem StoreInv.fades_clean (h : StoreInv s lay) (run : s.lruMaintainerFree = .ok s') :
    s.contents.Fades s'.contents := by
  obtain ⟨guard, n, clean⟩ | rfl := lruMaintainerFree_ran run
  · have times := h.sameTimes_clean guard clean
    obtain ⟨lay', gone, inv, cleans⟩ := h.memlogClean guard clean
    have clock := cleans.clock
    simp only [Store.clock, Prod.mk.injEq] at clock
    refine ⟨clock.1, clock.2.1, clock.2.2, times.casId, fun key e found => ⟨e, ?_, .inl rfl⟩⟩
    obtain ⟨k, member, hkey, hentry⟩ := inv.entry_eq_some.1 found
    obtain ⟨linked, away⟩ := (cleans.linked k).1 ((inv.linked k).1 member)
    have old := (h.linked k).2 linked
    have kept : s'.keyAt k = s.keyAt k ∧ s'.entryOf k = s.entryOf k := by
      refine h.entry_kept old (fun b hb off => cleans.same b ?_) (cleans.item k) (times.time k)
      rw [cleans.live] at hb
      exact (List.mem_append.1 hb).resolve_left fun gone => away b gone off
    exact h.entry_eq_some.2 ⟨k, old, kept.1 ▸ hkey, kept.2 ▸ hentry⟩
  · exact .refl _

end LogMemcached

import LogMemcached.StoreSteps

/-!
# The abstract store

What the log and the hash table amount to: the records of the log, oldest first, and for each key
the offset of the record that is linked under it.  The operations of the store are described by
what they do to this view.
-/

namespace LogMemcached

open ByteMem Tiling Fallible

/-- The records of the log in order, and the offset linked under each key. -/
@[ext]
structure View where
  recs : List Rec
  table : Key → Option ℕ

namespace View

variable {v : View} {r : Rec} {key : Key} {o : ℕ}

def log (v : View) (r : Rec) : View := { v with recs := v.recs ++ [r] }

def link (v : View) (key : Key) (o : ℕ) : View :=
  { v with table := Function.update v.table key (some o) }

def unlink (v : View) (key : Key) : View := { v with table := Function.update v.table key none }

/-- Another record in place of the one at `r.off`. -/
def put (v : View) (r : Rec) : View :=
  { v with recs := v.recs.map fun q => if q.off = r.off then r else q }

/-- The first `n` records leave the log, and with them the keys linked to them. -/
def drop (v : View) (n : ℕ) : View where
  recs := v.recs.drop n
  table := fun key => (v.table key).filter fun o => ∀ r ∈ v.recs.take n, r.off ≠ o

theorem unlink_of_none (absent : v.table key = none) : v.unlink key = v :=
  View.ext rfl (by rw [unlink, ← absent, Function.update_eq_self])

theorem put_put {r r' : Rec} (off : r'.off = r.off) : (v.put r).put r' = v.put r' := by
  refine View.ext ?_ rfl
  simp only [put, List.map_map]
  refine List.map_congr_left fun q _ => ?_
  by_cases same : q.off = r.off <;> simp [same, off]

theorem put_log (fresh : ∀ q ∈ v.recs, q.off ≠ o) {r p : Rec} (off : r.off = o) (off' : p.off = o) :
    (v.log r).put p = v.log p := by
  refine View.ext ?_ rfl
  simp only [put, log, List.map_append, List.map_cons, List.map_nil, off, off', if_true]
  rw [List.map_congr_left (g := fun q => q) fun q hq => if_neg (fresh q hq), List.map_id']

end View

def Store.view (s : Store) (lay : Layout) : View := ⟨s.journal lay, s.lookup⟩

theorem journal_of_view {s : Store} {lay : Layout} {v : View} (view : s.view lay = v) :
    s.journal lay = v.recs :=
  congrArg View.recs view

structure SameSetup (s s' : Store) : Prop where
  settings : s'.settings = s.settings
  clock : s'.clock = s.clock
  limit : s'.log.memLimit = s.log.memLimit

variable {s s' s'' : Store} {lay lay' : Layout} {id : ℕ} {key : Key} {p : ℕ} {b : Block}

theorem SameSetup.refl (s : Store) : SameSetup s s := ⟨rfl, rfl, rfl⟩

theorem SameSetup.trans (h : SameSetup s s') (h' : SameSetup s' s'') : SameSetup s s'' :=
  ⟨h'.settings.trans h.settings, h'.clock.trans h.clock, h'.limit.trans h.limit⟩

theorem SameTable.setup (h : SameTable s s') : SameSetup s s' :=
  ⟨h.settings, h.clock, by rw [h.log]⟩

theorem Unlinks.setup (h : Unlinks s s' id) : SameSetup s s' :=
  ⟨h.settings, h.clock, by rw [h.log]⟩

/-! ## Operations on the table -/

theorem SameTable.view (h : SameTable s s') : s'.view lay = s.view lay :=
  View.ext h.journal h.lookup

theorem Unlinks.view (cut : Unlinks s s' id) (h : SweepInv s lay p) (h' : SweepInv s' lay p)
    (member : id ∈ s.table) : s'.view lay = (s.view lay).unlink (s.keyAt id) :=
  View.ext cut.journal (cut.lookup h h' member)

theorem Links.view (links : Links s s' id) (h : SweepInv s lay p) (h' : SweepInv s' lay p)
    (hb : b ∈ lay.live) (off : b.off = s.itemOf id) :
    s'.view lay = (s.view lay).link (s.keyAt id) (s.itemOf id) :=
  View.ext (links.effect h h' hb off).1 (links.effect h h' hb off).2

theorem Links.setup (links : Links s s' id) : SameSetup s s' := by
  obtain ⟨cas, log⟩ := links.log
  exact ⟨links.settings, links.clock, by rw [log]; rfl⟩

/-! ## Records and their offsets -/

theorem SweepInv.mem_journal {r : Rec} : r ∈ s.journal lay ↔ ∃ b ∈ lay.live, recOf s.log.mem b = r := by
  rw [Store.journal, List.mem_map]

def Store.recAt (s : Store) (id : ℕ) : Rec := recOf s.log.mem ⟨s.itemOf id, 0⟩

theorem recAt_eq {r : Rec} (mem : r ∈ s.journal lay) (off : r.off = s.itemOf id) :
    s.recAt id = r := by
  obtain ⟨b, -, rfl⟩ := SweepInv.mem_journal.1 mem
  simp only [Store.recAt, recOf, ← off]

theorem SweepInv.recAt_mem (h : SweepInv s lay p) (member : id ∈ s.table) :
    s.recAt id ∈ s.journal lay := by
  obtain ⟨b, hb, off⟩ := h.live id member
  have mem : recOf s.log.mem b ∈ s.journal lay := SweepInv.mem_journal.2 ⟨b, hb, rfl⟩
  rwa [recAt_eq mem off]

def Rec.dataOff (r : Rec) : ℕ :=
  r.off + sizeofItemData + r.key.length + 1 + r.suffix.length + casRoom r.flags

theorem itemData_recAt : itemData s.log.mem (s.itemOf id) = (s.recAt id).dataOff := by
  simp [itemData, Rec.dataOff, Store.recAt, recOf, keyOf, suffixOf]

theorem nbytesOf_recAt : nbytesOf s.log.mem (s.itemOf id) = (s.recAt id).data.length := by
  simp [Store.recAt, recOf, dataOf]

theorem SweepInv.nbytesInt_recAt (h : SweepInv s lay p) {r : Rec} (mem : r ∈ s.journal lay)
    (off : r.off = s.itemOf id) :
    nbytesInt s.log.mem (s.itemOf id) = r.data.length ∧ r.data.length < 2 ^ 31 := by
  obtain ⟨b, hb, rfl⟩ := SweepInv.mem_journal.1 mem
  have small := h.small b hb
  have off : b.off = s.itemOf id := off
  rw [off] at small
  rw [nbytesInt, if_pos small, ← recAt_eq mem off, nbytesOf_recAt]
  rw [nbytesOf_recAt] at small
  exact ⟨rfl, small⟩

theorem SweepInv.rec_inj (h : SweepInv s lay p) {q r : Rec} (hq : q ∈ s.journal lay)
    (hr : r ∈ s.journal lay) (same : q.off = r.off) : q = r := by
  obtain ⟨b, hb, rfl⟩ := SweepInv.mem_journal.1 hq
  obtain ⟨c, hc, rfl⟩ := SweepInv.mem_journal.1 hr
  rw [h.off_inj hb hc same]

theorem SweepInv.view_setMem (h : SweepInv s lay p) {m' : Mem} (hb : b ∈ lay.live)
    (outside : ∀ x, x < b.off ∨ b.stop ≤ x → m' x = s.log.mem x)
    (key : keyOf m' b.off = keyOf s.log.mem b.off) (h' : SweepInv (s.setMem m') lay p) :
    (s.setMem m').view lay = (s.view lay).put (recOf m' b) := by
  refine View.ext ?_ (h.lookup_setMem hb outside key h')
  change lay.live.map (recOf m') = (lay.live.map (recOf s.log.mem)).map fun q =>
    if q.off = b.off then recOf m' b else q
  rw [List.map_map]
  refine List.map_congr_left fun c hc => ?_
  by_cases same : c.off = b.off
  · rw [h.off_inj hc hb same]
    exact (if_pos rfl).symm
  · refine (h.recOf_other hb hc (fun eq => same (by rw [eq])) outside).trans ?_
    exact (if_neg same).symm

/-! ## Lookups -/

/-- The item a lookup returns: the one in the table, unless it is hidden. -/
def Store.find (s : Store) (key : Key) : Option ℕ :=
  (s.assocFind key).filter fun id => !s.itemIsHidden id

theorem find_eq_some : s.find key = some id ↔
    s.assocFind key = some id ∧ s.itemIsHidden id = false := by
  simp [Store.find, Option.filter_eq_some_iff]

theorem StoreInv.get_some (h : StoreInv s lay) (run : s.doItemGet key = .ok (s', some id)) :
    s.find key = some id ∧ id ∈ s'.table ∧ s'.keyAt id = key ∧ StoreInv s' lay ∧
      SameTable s s' := by
  obtain ⟨inv, same, hit, visible, -⟩ := h.doItemGet_some run
  obtain ⟨member, eq⟩ := assocFind_linked hit
  exact ⟨find_eq_some.2 ⟨hit, visible⟩, same.table ▸ member, (same.keyAt id).trans eq, inv, same⟩

theorem StoreInv.get_none (h : StoreInv s lay) (run : s.doItemGet key = .ok (s', none)) :
    s.find key = none ∧ StoreInv s' lay ∧ s'.log = s.log ∧ SameSetup s s' ∧
      (∀ k, s'.itemOf k = s.itemOf k) ∧ s'.view lay = (s.view lay).unlink key := by
  obtain ⟨inv, log, absent, rfl | ⟨id, hit, stale, cut⟩⟩ := h.doItemGet_none run
  · have none : (s'.view lay).table key = none := by simp [Store.view, Store.lookup, absent]
    exact ⟨by simp [Store.find, absent], inv, rfl, .refl s', fun _ => rfl,
      (View.unlink_of_none none).symm⟩
  · obtain ⟨member, rfl⟩ := assocFind_linked hit
    exact ⟨by simp [Store.find, hit, stale], inv, log, cut.setup, cut.item, cut.view h inv member⟩

/-! ## New records -/

/-- The item holds the record `r`, which nobody has completed yet. -/
structure Fresh (s : Store) (lay : Layout) (id : ℕ) (r : Rec) : Prop where
  mem : r ∈ s.journal lay
  off : r.off = s.itemOf id
  flags : r.flags = itemCas ||| itemDirty
  unlinked : (s.metas id).linked = false
  used : (s.metas id).slabbed = false

inductive Logs (s s' : Store) (lay lay' : Layout) (key : Key) (flags exptime : ℕ) (nbytes : ℤ) :
    Option ℕ → Bool → Prop
  | failed (view : s'.view lay' = s.view lay) :
      Logs s s' lay lay' key flags exptime nbytes none false
  | tombstone (r : Rec) (marked : deletedBit flags = true) (hkey : r.key = key)
      (hflags : r.flags = itemDeleted ||| itemStored) (new : ∀ q ∈ s.journal lay, q.off ≠ r.off)
      (view : s'.view lay' = (s.view lay).log r) :
      Logs s s' lay lay' key flags exptime nbytes none true
  | item (id : ℕ) (r : Rec) (plain : deletedBit flags = false) (fresh : Fresh s' lay' id r)
      (new : ∀ q ∈ s.journal lay, q.off ≠ r.off) (hkey : r.key = key)
      (suffix : r.suffix = suffixText flags nbytes) (length : r.data.length = nbytes.toNat)
      (expires : r.exptime = exptime % 2 ^ 32) (view : s'.view lay' = (s.view lay).log r) :
      Logs s s' lay lay' key flags exptime nbytes (some id) true

theorem SweepInv.new_off (h : SweepInv s lay' p) (live : lay'.live = lay.live ++ [b]) {m : Mem}
    {q : Rec} (hq : q ∈ lay.live.map (recOf m)) : q.off ≠ b.off := by
  obtain ⟨c, hc, rfl⟩ := List.mem_map.1 hq
  have apart := List.pairwise_append.1 (live ▸ h.log.pairwise)
  have disjoint : c.Disjoint b := apart.2.2 c hc b (by simp)
  have hc' : c ∈ lay'.live := by rw [live]; exact List.mem_append_left _ hc
  have hb' : b ∈ lay'.live := by rw [live]; simp
  have size := (h.log.sized hc').header
  have size' := (h.log.sized hb').header
  simp only [recOf]
  rcases disjoint with apart | apart <;> simp only [Block.stop] at apart <;> omega

theorem SameRecords.view (same : SameRecords s'.log.mem s.log.mem lay) (h : SweepInv s lay p)
    (lookup : s'.lookup = s.lookup) (live : lay'.live = lay.live ++ [b]) :
    s'.view lay' = (s.view lay).log (recOf s'.log.mem b) := by
  refine View.ext ?_ lookup
  change lay'.live.map _ = lay.live.map _ ++ [_]
  rw [live, List.map_append, List.map_singleton]
  exact congrArg (· ++ _) (List.map_congr_left fun c hc => (h.wholeRec hc).recOf_congr (same c hc))

theorem StoreInv.logs {flags exptime : ℕ} {nbytes : ℤ} {it : Option ℕ} {succeed : Bool}
    (h : StoreInv s lay) (ok : AllocOk s key flags nbytes)
    (run : s.doItemAlloc key flags exptime nbytes = .ok (s', it, succeed)) :
    ∃ lay', StoreInv s' lay' ∧ SameSetup s s' ∧
      (∀ k ∉ s.freelist, s'.metas k = s.metas k) ∧ s'.table = s.table ∧
      Logs s s' lay lay' key flags exptime nbytes it succeed := by
  obtain ⟨lay', inv, lookup, same, limit, alloc⟩ := h.doItemAlloc ok run
  refine ⟨lay', inv, ?_⟩
  cases alloc with
  | failed live shape =>
    refine ⟨⟨by rw [shape], by rw [shape]; rfl, limit⟩, fun k _ => by rw [shape], by rw [shape],
      .failed (View.ext ?_ lookup)⟩
    change lay'.live.map _ = lay.live.map _
    rw [live]
    exact List.map_congr_left fun c hc => (h.wholeRec hc).recOf_congr (same c hc)
  | tombstone o marked live shape written =>
    refine ⟨⟨by rw [shape], by rw [shape]; rfl, limit⟩, fun k _ => by rw [shape], by rw [shape],
      .tombstone _ marked written.key written.flags (fun q hq => inv.new_off live hq)
        (same.view h lookup live)⟩
  | item id o rest plain live free shape written =>
    have head : id ∈ s.freelist := by rw [free]; exact List.mem_cons_self ..
    have item : s'.metas id = ⟨o, (s.metas id).time, 1, 0, (s.metas id).linked, false⟩ := by
      rw [shape]
      exact Function.update_self ..
    refine ⟨⟨by rw [shape], by rw [shape]; rfl, limit⟩, fun k hk => ?_, by rw [shape],
      .item id _ plain ⟨?_, ?_, written.flags, ?_, ?_⟩ (fun q hq => inv.new_off live hq)
        written.key written.suffix ?_ written.exptime (same.view h lookup live)⟩
    · have other : k ≠ id := fun eq => hk (eq ▸ head)
      rw [shape]
      exact Function.update_of_ne other _ _
    · refine SweepInv.mem_journal.2 ⟨_, ?_, rfl⟩
      rw [live]
      simp
    · rw [Store.itemOf, item]
      rfl
    · rw [item]
      exact h.unlinked id head
    · rw [item]
    · simp only [recOf, dataOf, length_slice]
      exact written.nbytes

theorem SweepInv.busy (inv : SweepInv s lay p) (member : id ∈ s.table) : id ∉ s.freelist := by
  intro free
  have unlinked := inv.unlinked id free
  rw [(inv.linked id).1 member] at unlinked
  cases unlinked

theorem find_congr (h : StoreInv s lay) (h' : StoreInv s' lay')
    (table : ∀ k, k ∈ s'.table ↔ k ∈ s.table)
    (kept : ∀ k ∈ s.table, s'.keyAt k = s.keyAt k ∧ s'.itemIsHidden k = s.itemIsHidden k) :
    s'.find key = s.find key := by
  refine Option.ext fun id => ?_
  rw [find_eq_some, find_eq_some, h.assocFind_iff, h'.assocFind_iff, table]
  refine ⟨fun ⟨⟨member, eq⟩, visible⟩ => ?_, fun ⟨⟨member, eq⟩, visible⟩ => ?_⟩
  · obtain ⟨key, hidden⟩ := kept id member
    exact ⟨⟨member, key ▸ eq⟩, hidden ▸ visible⟩
  · obtain ⟨key, hidden⟩ := kept id member
    exact ⟨⟨member, key.trans eq⟩, hidden.trans visible⟩

theorem SweepInv.kept_record (h : SweepInv s lay p) (same : SameRecords s'.log.mem s.log.mem lay)
    (clock : s'.clock = s.clock) {k : ℕ} (member : k ∈ s.table) (metas : s'.metas k = s.metas k) :
    s'.keyAt k = s.keyAt k ∧ s'.itemIsHidden k = s.itemIsHidden k ∧
      itemGetCas s'.log.mem (s'.itemOf k) = itemGetCas s.log.mem (s.itemOf k) := by
  obtain ⟨b, hb, off⟩ := h.live k member
  have item : s'.itemOf k = s.itemOf k := congrArg ItemMeta.item metas
  have decoded := (h.wholeRec hb).recOf_congr (same b hb)
  have cas := (h.wholeRec hb).itemGetCas_congr (same b hb)
  have key : keyOf s'.log.mem b.off = keyOf s.log.mem b.off := congrArg Rec.key decoded
  have exptime : exptimeOf s'.log.mem b.off = exptimeOf s.log.mem b.off :=
    congrArg Rec.exptime decoded
  rw [off] at cas key exptime
  simp only [Store.clock, Prod.mk.injEq] at clock
  obtain ⟨now, live, oldest⟩ := clock
  refine ⟨?_, ?_, by rw [item, cas]⟩
  · rw [Store.keyAt, Store.keyAt, item, key]
  · simp only [Store.itemIsHidden, Store.itemIsFlushed, Store.itemIsExpired, item, cas, exptime, metas,
      now, live, oldest]

theorem StoreInv.find_get (h : StoreInv s lay) (run : s.doItemGet key = .ok (s', some id)) {k : Key} :
    s'.find k = s.find k := by
  obtain ⟨inv, same, -, -, rfl⟩ := h.doItemGet_some run
  refine find_congr h inv (fun k => by rw [same.table]) fun k _ => ⟨same.keyAt k, ?_⟩
  by_cases other : k = id
  · rw [other]
    exact itemIsHidden_refcountIncr
  · have metas : (s.refcountIncr id).metas k = s.metas k := Function.update_of_ne other ..
    simp only [Store.itemIsHidden, Store.itemIsFlushed, Store.itemIsExpired, Store.itemOf, metas]
    rfl

theorem StoreInv.find_alloc {flags exptime : ℕ} {nbytes : ℤ} {it : Option ℕ} {succeed : Bool}
    (h : StoreInv s lay) (ok : AllocOk s key flags nbytes)
    (run : s.doItemAlloc key flags exptime nbytes = .ok (s', it, succeed)) (k : Key) :
    s'.find k = s.find k := by
  obtain ⟨lay', inv, -, same, -, -⟩ := h.doItemAlloc ok run
  obtain ⟨-, -, setup, metas, table, -⟩ := h.logs ok run
  refine find_congr h inv (fun k => by rw [table]) fun k hk => ?_
  obtain ⟨key, hidden, -⟩ := h.kept_record same setup.clock hk (metas k (h.busy hk))
  exact ⟨key, hidden⟩

/-! ## Completing a record -/

section Complete

variable {r : Rec}

theorem Fresh.block (fresh : Fresh s lay id r) :
    ∃ b ∈ lay.live, b.off = s.itemOf id ∧ recOf s.log.mem b = r ∧
      flagsOf s.log.mem b.off = itemCas ||| itemDirty := by
  obtain ⟨b, hb, rfl⟩ := SweepInv.mem_journal.1 fresh.mem
  exact ⟨b, hb, fresh.off, rfl, fresh.flags⟩

theorem Fresh.keyAt (fresh : Fresh s lay id r) : s.keyAt id = r.key := by
  obtain ⟨b, -, off, rfl, -⟩ := fresh.block
  rw [Store.keyAt, ← off]
  rfl

theorem Fresh.intact (fresh : Fresh s lay id r) : Intact s.log.mem (s.itemOf id) := by
  obtain ⟨b, -, off, -, flags⟩ := fresh.block
  rw [← off]
  exact ⟨by rw [flags]; decide, by rw [flags]; decide⟩

/-- The record `r` is found again in a store that put it into its place. -/
theorem View.mem_put {v : View} {q : Rec} (hq : q ∈ v.recs) (off : q.off = r.off) :
    r ∈ (v.put r).recs :=
  List.mem_map.2 ⟨q, hq, if_pos off⟩

/-- Bytes have been written into the data of a record under upload. -/
structure Fills (s s' : Store) (lay : Layout) (id : ℕ) (r r' : Rec) : Prop where
  shape : ∃ m, s' = s.setMem m
  inv : StoreInv s' lay
  fresh : Fresh s' lay id r'
  view : s'.view lay = (s.view lay).put r'
  same : r' = { r with data := r'.data }
  length : r'.data.length = r.data.length

theorem Fills.trans {r' r'' : Rec} (h : Fills s s' lay id r r') (h' : Fills s' s'' lay id r' r'') :
    Fills s s'' lay id r r'' := by
  obtain ⟨m, rfl⟩ := h.shape
  obtain ⟨m', rfl⟩ := h'.shape
  refine ⟨⟨m', rfl⟩, h'.inv, h'.fresh, ?_, ?_, h'.length.trans h.length⟩
  · rw [h'.view, h.view, View.put_put (by rw [h'.same])]
  · rw [h'.same, h.same]

theorem Fills.mem {r' q : Rec} (h : Fills s s' lay id r r') (mem : q ∈ s.journal lay)
    (other : q.off ≠ r.off) : q ∈ s'.journal lay := by
  rw [journal_of_view h.view]
  refine List.mem_map.2 ⟨q, mem, if_neg ?_⟩
  rw [h.same]
  exact other

theorem Fills.recAt {r' : Rec} {k : ℕ} (h : Fills s s' lay id r r')
    (mem : s.recAt k ∈ s.journal lay) (other : s.itemOf k ≠ r.off) : s'.recAt k = s.recAt k := by
  obtain ⟨m, eq⟩ := h.shape
  exact recAt_eq (h.mem mem other) (by rw [eq]; rfl)

theorem Fills.setup {r' : Rec} (h : Fills s s' lay id r r') : SameSetup s s' := by
  obtain ⟨m, rfl⟩ := h.shape
  exact ⟨rfl, rfl, rfl⟩

theorem Fresh.write_data (fresh : Fresh s lay id r) (h : StoreInv s lay) (a : ℕ)
    (bytes : List UInt8) (low : itemData s.log.mem (s.itemOf id) ≤ a)
    (high : a + bytes.length ≤ itemData s.log.mem (s.itemOf id) + r.data.length) :
    Fills s (s.setMem (write s.log.mem a bytes)) lay id r { r with
      data := slice (write s.log.mem a bytes) (itemData s.log.mem (s.itemOf id)) r.data.length } := by
  obtain ⟨b, hb, off, eq, flags⟩ := fresh.block
  have nbytes : nbytesOf s.log.mem b.off = r.data.length := by
    rw [off, nbytesOf_recAt, recAt_eq fresh.mem fresh.off]
  rw [← off] at low high ⊢
  have whole := h.wholeRec hb
  have within := whole.data_le
  rw [nbytes] at within
  have header : Agree (write s.log.mem a bytes) s.log.mem b.off (b.off + 16) :=
    agree_write (Or.inl (by simp only [itemData, sizeofItemData] at low; omega))
  have outside : ∀ x, x < b.off ∨ b.stop ≤ x → write s.log.mem a bytes x = s.log.mem x := by
    intro x hx
    have base : b.off ≤ itemData s.log.mem b.off := by simp only [itemData]; omega
    exact write_outside (by omega)
  have data : dataOf (write s.log.mem a bytes) b.off =
      slice (write s.log.mem a bytes) (itemData s.log.mem b.off) r.data.length := by
    rw [dataOf, itemData_congr header, nbytesOf_congr header, nbytes]
  have decoded := recOf_write_data bytes low
  rw [eq, data] at decoded
  have key : keyOf (write s.log.mem a bytes) b.off = keyOf s.log.mem b.off :=
    (congrArg Rec.key decoded).trans (congrArg Rec.key eq).symm
  have inv : StoreInv (s.setMem (write s.log.mem a bytes)) lay :=
    h.setMem hb outside (whole.write_data low) key (fun k hk item =>
      (item ▸ h.intact k hk : Intact s.log.mem b.off).congr (flagsOf_congr header))
      fun _ _ _ => measureOf_write_data bytes low
  have view := h.view_setMem hb outside key inv
  rw [decoded] at view
  exact ⟨⟨_, rfl⟩, inv, ⟨SweepInv.mem_journal.2 ⟨b, hb, decoded⟩, fresh.off, fresh.flags,
    fresh.unlinked, fresh.used⟩, view, rfl, length_slice ..⟩

theorem Fresh.replace {oldId : ℕ} (fresh : Fresh s lay id r) (h : StoreInv s lay)
    (linked : oldId ∈ s.table) (key : s.keyAt oldId = r.key)
    (run : s.doItemReplace oldId id = .ok s') :
    StoreInv s' lay ∧ SameSetup s s' ∧ (∀ k, s'.itemOf k = s.itemOf k) ∧
      s'.view lay = (s.view lay).link r.key r.off := by
  obtain ⟨b, hb, off, -, -⟩ := fresh.block
  have replaces := h.doItemReplace ((h.linked oldId).1 linked) hb off fresh.intact
    (fresh.keyAt.trans key.symm) run
  have view := View.ext (x := s'.view lay) (y := (s.view lay).link r.key r.off) replaces.journal
    (by rw [← fresh.keyAt, fresh.off]; exact replaces.lookup)
  exact ⟨replaces.inv, ⟨replaces.settings, replaces.clock, replaces.limit⟩, replaces.item, view⟩

theorem Fresh.link (fresh : Fresh s lay id r) (h : StoreInv s lay)
    (absent : s.assocFind r.key = none) (run : s.doItemLink id = .ok s') :
    StoreInv s' lay ∧ SameSetup s s' ∧ (∀ k, s'.itemOf k = s.itemOf k) ∧
      s'.view lay = (s.view lay).link r.key r.off := by
  obtain ⟨b, hb, off, -, -⟩ := fresh.block
  obtain ⟨inv, links⟩ := h.doItemLink hb off fresh.intact (by rw [fresh.keyAt, absent]) run
  have view := links.view h inv hb off
  rw [fresh.keyAt, ← fresh.off] at view
  exact ⟨inv, links.setup, links.item, view⟩

def storedFlags : UInt8 := itemCas ||| itemStored

def corruptedFlags : UInt8 := itemCas ||| itemCorrupted ||| itemStored

theorem StoreInv.setFlags (h : StoreInv s lay) (mem : r ∈ s.journal lay)
    (flags : r.flags = itemCas ||| itemDirty) {f : UInt8} (cas : has f itemCas = true)
    (plain : has f itemCycle = false)
    (intact : ∀ k ∈ s.table, s.itemOf k = r.off →
      has f itemDeleted = false ∧ has f itemCorrupted = false) :
    StoreInv (s.setMem (setFlags s.log.mem r.off f)) lay ∧
      (s.setMem (setFlags s.log.mem r.off f)).view lay = (s.view lay).put { r with flags := f } := by
  obtain ⟨b, hb, rfl⟩ := SweepInv.mem_journal.1 mem
  have old : flagsOf s.log.mem b.off = itemCas ||| itemDirty := flags
  have whole := h.wholeRec hb
  have outside : ∀ x, x < b.off ∨ b.stop ≤ x →
      LogMemcached.setFlags s.log.mem b.off f x = s.log.mem x := by
    intro x hx
    have := whole.header
    exact setFlags_outside (by omega)
  have decoded : recOf (LogMemcached.setFlags s.log.mem b.off f) b =
      { recOf s.log.mem b with flags := f } :=
    recOf_setFlags (by rw [old, cas]; decide)
  have key : keyOf (LogMemcached.setFlags s.log.mem b.off f) b.off = keyOf s.log.mem b.off :=
    congrArg Rec.key decoded
  have whole' : Whole (LogMemcached.setFlags s.log.mem b.off f) b := by
    refine whole.setFlags ?_ plain
    rw [old]
    simp only [ntotalCasRoom, cas]
    rfl
  have inv : StoreInv (s.setMem (LogMemcached.setFlags s.log.mem b.off f)) lay := by
    refine h.setMem hb outside whole' key (fun k hk item => ?_) fun _ _ _ =>
      whole.measureOf_setFlags whole' (by rw [old, cas]; decide)
    obtain ⟨deleted, corrupted⟩ := intact k hk item
    exact ⟨by rw [flagsOf_setFlags, deleted], by rw [flagsOf_setFlags, corrupted]⟩
  exact ⟨inv, decoded ▸ h.view_setMem hb outside key inv⟩

theorem StoreInv.markItemStored (h : StoreInv s lay) (mem : r ∈ s.journal lay)
    (off : r.off = s.itemOf id) (flags : r.flags = itemCas ||| itemDirty) :
    StoreInv (s.markItemStored id) lay ∧
      (s.markItemStored id).view lay = (s.view lay).put { r with flags := storedFlags } := by
  obtain ⟨b, -, rfl⟩ := SweepInv.mem_journal.1 mem
  have next : (flagsOf s.log.mem (s.itemOf id) &&& ~~~itemDirty) ||| itemStored = storedFlags := by
    rw [← off, show flagsOf s.log.mem (recOf s.log.mem b).off = _ from flags]
    decide
  have := h.setFlags mem flags (f := storedFlags) (by decide) (by decide)
    fun _ _ _ => ⟨by decide, by decide⟩
  rwa [Store.markItemStored, markStored, next, ← off]

theorem Fresh.markCorrupted (fresh : Fresh s lay id r) (h : StoreInv s lay)
    (alone : ∀ k ∈ s.table, s.itemOf k ≠ r.off) :
    StoreInv (s.setMem (markCorrupted s.log.mem (s.itemOf id))) lay ∧
      (s.setMem (markCorrupted s.log.mem (s.itemOf id))).view lay =
        (s.view lay).put { r with flags := corruptedFlags } := by
  obtain ⟨b, -, off, -, old⟩ := fresh.block
  have next : ((flagsOf s.log.mem (s.itemOf id) ||| itemCorrupted) &&& ~~~itemDirty) ||| itemStored =
      corruptedFlags := by
    rw [← off, old]
    decide
  have := h.setFlags fresh.mem fresh.flags (f := corruptedFlags) (by decide) (by decide)
    fun k hk item => absurd item (alone k hk)
  rwa [LogMemcached.markCorrupted, next, ← fresh.off]

end Complete

end LogMemcached

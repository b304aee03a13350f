import LogMemcached.Tally
import LogMemcached.LogSteps
import LogMemcached.Lib.Chains

/-!
# The invariant of the store

`StoreInv s lay` ties the metadata and the hash table to the log: the records of `lay` are whole,
the linked items are the items of the table, each with a record of its own in the log and a key of
its own, the counters agree with the table, and the freelist holds the items that are free.
Reference counts are not part of it; they are treated in `LogMemcached.RefCount`.
-/

namespace LogMemcached

open ByteMem Tiling Fallible

/-- The store and the layout of its log fit together, with `p` bytes swept and not yet settled. -/
structure SweepInv (s : Store) (lay : Layout) (p : ℕ) : Prop where
  log : LogInv s.log lay p
  limit : s.log.memLimit < 2 ^ 32
  useCas : s.settings.useCas = true
  bounded : ∀ b ∈ lay.live, 16 * b.size ≤ s.log.memLimit
  small : ∀ b ∈ lay.live, nbytesOf s.log.mem b.off < 2 ^ 31
  nodup : s.table.Nodup
  linked : ∀ id, id ∈ s.table ↔ (s.metas id).linked = true
  live : ∀ id ∈ s.table, ∃ b ∈ lay.live, b.off = s.itemOf id
  intact : ∀ id ∈ s.table, Intact s.log.mem (s.itemOf id)
  keys : ∀ id ∈ s.table, ∀ id' ∈ s.table, s.keyAt id = s.keyAt id' → id = id'
  freeNodup : s.freelist.Nodup
  free : ∀ id, id ∈ s.freelist ↔ (s.metas id).slabbed = true
  unlinked : ∀ id ∈ s.freelist, (s.metas id).linked = false
  tally : Tally s

abbrev StoreInv (s : Store) (lay : Layout) : Prop := SweepInv s lay 0

def Store.journal (s : Store) (lay : Layout) : List Rec := lay.live.map (recOf s.log.mem)

def Store.blockOf (s : Store) (id : ℕ) : Block := ⟨s.itemOf id, itemNtotal s.log.mem (s.itemOf id)⟩

def Store.lookup (s : Store) (key : Key) : Option ℕ := (s.assocFind key).map s.itemOf

section Facts

variable {s s' : Store} {lay lay' : Layout} {p q : ℕ} {id id' : ℕ} {key : Key} {b : Block}

theorem SweepInv.wholeRec (h : SweepInv s lay p) (hb : b ∈ lay.live) : Whole s.log.mem b :=
  ⟨h.log.sized hb, h.small b hb⟩

theorem SweepInv.toFree (h : SweepInv s lay p) : s.log.toFree = s.log.memLimit / 8 :=
  Nat.mod_eq_of_lt (by have := h.limit; omega)

theorem mem_down {n k : ℕ} : k ∈ down n ↔ k < n := by
  induction n with
  | zero => simp [down]
  | succ n ih =>
    rw [down, List.mem_cons, ih]
    omega

theorem length_down (n : ℕ) : (down n).length = n := by
  induction n with
  | zero => rfl
  | succ n ih => rw [down, List.length_cons, ih]

theorem nodup_down (n : ℕ) : (down n).Nodup := by
  induction n with
  | zero => exact List.nodup_nil
  | succ n ih => exact List.nodup_cons.2 ⟨fun h => absurd (mem_down.1 h) (lt_irrefl n), ih⟩

theorem Store.init_inv {settings : Settings} {limit now : ℕ} (large : 35 ≤ limit)
    (small : limit < 2 ^ 32) (cas : settings.useCas = true) :
    StoreInv (Store.init settings limit now) (.flat []) where
  log := memlogInit_inv large
  limit := small
  useCas := cas
  bounded := by simp [Layout.live]
  small := by simp [Layout.live]
  nodup := List.nodup_nil
  linked := by simp [Store.init]
  live := by simp [Store.init]
  intact := by simp [Store.init]
  keys := by simp [Store.init]
  freeNodup := nodup_down _
  free := fun id => by simp [Store.init, mem_down]
  unlinked := by simp [Store.init]
  tally := ⟨rfl, rfl, rfl, rfl, rfl, fun _ => nofun⟩

/-! ## Lookups -/

def Store.KeysApart (s : Store) : Prop :=
  ∀ id ∈ s.table, ∀ id' ∈ s.table, s.keyAt id = s.keyAt id' → id = id'

theorem Store.KeysApart.assocFind_iff (apart : s.KeysApart) :
    s.assocFind key = some id ↔ id ∈ s.table ∧ s.keyAt id = key := by
  unfold Store.assocFind
  constructor
  · intro found
    exact ⟨List.mem_of_find?_eq_some found, by simpa using List.find?_some found⟩
  · rintro ⟨member, rfl⟩
    have found : (s.table.find? fun i => s.keyAt i == s.keyAt id).isSome :=
      List.find?_isSome.2 ⟨id, member, by simp⟩
    obtain ⟨other, eq⟩ := Option.isSome_iff_exists.1 found
    have same : s.keyAt other = s.keyAt id := by simpa using List.find?_some eq
    rw [eq, apart other (List.mem_of_find?_eq_some eq) id member same]

theorem SweepInv.assocFind_iff (h : SweepInv s lay p) :
    s.assocFind key = some id ↔ id ∈ s.table ∧ s.keyAt id = key :=
  Store.KeysApart.assocFind_iff h.keys

theorem SweepInv.assocFind_none (h : SweepInv s lay p) :
    s.assocFind key = none ↔ ∀ id ∈ s.table, s.keyAt id ≠ key := by
  rw [← not_iff_not, Option.eq_none_iff_forall_ne_some]
  push Not
  simp only [h.assocFind_iff]

theorem assocFind_linked (found : s.assocFind key = some id) : id ∈ s.table ∧ s.keyAt id = key :=
  ⟨List.mem_of_find?_eq_some found, by simpa using List.find?_some found⟩

theorem lookup_congr (h : SweepInv s lay p) (h' : SweepInv s' lay' q) (table : s'.table = s.table)
    (items : ∀ id ∈ s.table, s'.itemOf id = s.itemOf id ∧ s'.keyAt id = s.keyAt id) :
    s'.lookup = s.lookup := by
  funext key
  unfold Store.lookup
  rcases found : s.assocFind key with _ | id
  · have missing : s'.assocFind key = none := by
      rw [h'.assocFind_none, table]
      intro id hid
      rw [(items id hid).2]
      exact h.assocFind_none.1 found id hid
    rw [missing]
    rfl
  · obtain ⟨member, eq⟩ := assocFind_linked found
    have found' : s'.assocFind key = some id :=
      h'.assocFind_iff.2 ⟨table ▸ member, (items id member).2.trans eq⟩
    simp [found', (items id member).1]

/-! ## Changes that keep the table -/

/-- The clock and the marks `flush_all` leaves. -/
def Store.clock (s : Store) : ℕ × ℕ × ℕ := (s.currentTime, s.oldestLive, s.oldestCas)

structure SameTable (s s' : Store) : Prop where
  settings : s'.settings = s.settings
  clock : s'.clock = s.clock
  log : s'.log = s.log
  table : s'.table = s.table
  item : ∀ id, s'.itemOf id = s.itemOf id
  linked : ∀ id, (s'.metas id).linked = (s.metas id).linked

theorem SameTable.refl (s : Store) : SameTable s s :=
  ⟨rfl, rfl, rfl, rfl, fun _ => rfl, fun _ => rfl⟩

theorem SameTable.trans {s'' : Store} (h : SameTable s s') (h' : SameTable s' s'') :
    SameTable s s'' :=
  ⟨h'.settings.trans h.settings, h'.clock.trans h.clock, h'.log.trans h.log,
    h'.table.trans h.table, fun id => (h'.item id).trans (h.item id),
    fun id => (h'.linked id).trans (h.linked id)⟩

theorem SameTable.keyAt (h : SameTable s s') (id : ℕ) : s'.keyAt id = s.keyAt id := by
  rw [Store.keyAt, Store.keyAt, h.log, h.item]

theorem SameTable.assocFind (h : SameTable s s') : s'.assocFind = s.assocFind := by
  funext key
  simp only [Store.assocFind, h.table, h.keyAt]

theorem SameTable.lookup (h : SameTable s s') : s'.lookup = s.lookup := by
  funext key
  simp only [Store.lookup, h.assocFind]
  exact congrArg (Option.map · _) (funext h.item)

theorem SameTable.journal (h : SameTable s s') : s'.journal lay = s.journal lay := by
  rw [Store.journal, Store.journal, h.log]

theorem SameTable.measure (h : SameTable s s') (id : ℕ) : s'.measure id = s.measure id := by
  rw [Store.measure, Store.measure, h.log, h.item]

theorem SameTable.inv (same : SameTable s s') (h : SweepInv s lay p) (stats : s'.stats = s.stats)
    (nodup : s'.freelist.Nodup)
    (free : ∀ id, id ∈ s'.freelist ↔ (s'.metas id).slabbed = true)
    (unlinked : ∀ id ∈ s'.freelist, (s.metas id).linked = false) : SweepInv s' lay p where
  log := same.log ▸ h.log
  limit := same.log ▸ h.limit
  useCas := same.settings ▸ h.useCas
  bounded := same.log ▸ h.bounded
  small := same.log ▸ h.small
  nodup := same.table ▸ h.nodup
  linked := fun id => by rw [same.table, same.linked, h.linked]
  live := fun id hid => by rw [same.item]; exact h.live id (same.table ▸ hid)
  intact := fun id hid => by rw [same.item, same.log]; exact h.intact id (same.table ▸ hid)
  keys := fun id hid id' hid' eq => h.keys id (same.table ▸ hid) id' (same.table ▸ hid')
    (by rwa [same.keyAt, same.keyAt] at eq)
  freeNodup := nodup
  free := free
  unlinked := fun id hid => by rw [same.linked]; exact unlinked id hid
  tally := h.tally.congr stats same.table fun id _ => same.measure id

theorem sameTable_updateMeta {f : ItemMeta → ItemMeta}
    (kept : ∀ it, (f it).item = it.item ∧ (f it).linked = it.linked) :
    SameTable s (s.updateMeta id f) := by
  have field {α : Type} (g : ItemMeta → α) (hg : ∀ it, g (f it) = g it) (k : ℕ) :
      g ((s.updateMeta id f).metas k) = g (s.metas k) := by
    simp only [Store.updateMeta, Function.update_apply]
    split_ifs with eq
    · rw [hg, eq]
    · rfl
  exact ⟨rfl, rfl, rfl, rfl, field ItemMeta.item fun it => (kept it).1,
    field ItemMeta.linked fun it => (kept it).2⟩

theorem SweepInv.updateMeta (h : SweepInv s lay p) {f : ItemMeta → ItemMeta}
    (kept : ∀ it, (f it).item = it.item ∧ (f it).linked = it.linked ∧ (f it).slabbed = it.slabbed) :
    SweepInv (s.updateMeta id f) lay p := by
  refine (sameTable_updateMeta fun it => ⟨(kept it).1, (kept it).2.1⟩).inv h rfl h.freeNodup
    (fun k => ?_) h.unlinked
  rw [show (s.updateMeta id f).freelist = s.freelist from rfl, h.free]
  simp only [Store.updateMeta, Function.update_apply]
  split_ifs with eq
  · rw [(kept _).2.2, eq]
  · rfl

theorem sameTable_refcountIncr : SameTable s (s.refcountIncr id) :=
  sameTable_updateMeta fun _ => ⟨rfl, rfl⟩

theorem SweepInv.refcountIncr (h : SweepInv s lay p) : SweepInv (s.refcountIncr id) lay p :=
  h.updateMeta fun _ => ⟨rfl, rfl, rfl⟩

/-! ## Releasing a reference -/

theorem doItemRemove_ran (run : s.doItemRemove id = .ok s') :
    (s.metas id).slabbed = false ∧ 0 < (s.metas id).refcount ∧
      (((s.metas id).refcount + (2 ^ 16 - 1)) % 2 ^ 16 ≠ 0 ∧ s' = s.refcountDecr id ∨
        ((s.metas id).refcount + (2 ^ 16 - 1)) % 2 ^ 16 = 0 ∧ (s.metas id).linked = false ∧
          s' = (s.refcountDecr id).freelistFree id) := by
  simp only [Store.doItemRemove, check_bind_ran, Bool.not_eq_true', decide_eq_true_eq] at run
  obtain ⟨slabbed, positive, run⟩ := run
  have count : ((s.refcountDecr id).metas id).refcount =
      ((s.metas id).refcount + (2 ^ 16 - 1)) % 2 ^ 16 := by
    simp [Store.refcountDecr, Store.updateMeta]
  have linked : ((s.refcountDecr id).metas id).linked = (s.metas id).linked := by
    simp [Store.refcountDecr, Store.updateMeta]
  refine ⟨slabbed, positive, ?_⟩
  rw [count] at run
  split_ifs at run with zero
  · simp only [Store.itemFree, check_bind_ran, pure_ran, linked, Bool.not_eq_true'] at run
    exact Or.inr ⟨zero, run.1, run.2.2.symm⟩
  · exact Or.inl ⟨zero, (pure_ran.1 run).symm⟩

theorem sameTable_freelistFree (unlinked : (s.metas id).linked = false) :
    SameTable s (s.freelistFree id) := by
  refine ⟨rfl, rfl, rfl, rfl, fun k => ?_, fun k => ?_⟩
  · simp only [Store.itemOf, Store.freelistFree, Store.updateMeta, Function.update_apply]
    split_ifs with eq
    · rw [eq]
    · rfl
  · simp only [Store.freelistFree, Store.updateMeta, Function.update_apply]
    split_ifs with eq
    · rw [eq, unlinked]
    · rfl

theorem sameTable_doItemRemove (run : s.doItemRemove id = .ok s') : SameTable s s' := by
  obtain ⟨-, -, ⟨-, rfl⟩ | ⟨-, unlinked, rfl⟩⟩ := doItemRemove_ran run
  · exact sameTable_updateMeta fun _ => ⟨rfl, rfl⟩
  · have first : SameTable s (s.refcountDecr id) := sameTable_updateMeta fun _ => ⟨rfl, rfl⟩
    exact first.trans (sameTable_freelistFree ((first.linked id).trans unlinked))

theorem SweepInv.freelistFree (h : SweepInv s lay p) (slabbed : (s.metas id).slabbed = false)
    (unlinked : (s.metas id).linked = false) : SweepInv (s.freelistFree id) lay p := by
  refine (sameTable_freelistFree unlinked).inv h rfl ?_ (fun k => ?_) fun k hk => ?_
  · exact List.nodup_cons.2 ⟨fun hid => by simp [(h.free id).1 hid] at slabbed, h.freeNodup⟩
  · change k ∈ id :: s.freelist ↔ _
    rw [List.mem_cons, h.free]
    simp only [Store.freelistFree, Store.updateMeta, Function.update_apply]
    split_ifs with eq <;> simp [eq]
  · rcases List.mem_cons.1 hk with rfl | hk
    · exact unlinked
    · exact h.unlinked k hk

theorem SweepInv.doItemRemove (h : SweepInv s lay p) (run : s.doItemRemove id = .ok s') :
    SweepInv s' lay p := by
  obtain ⟨slabbed, -, ⟨-, rfl⟩ | ⟨-, unlinked, rfl⟩⟩ := doItemRemove_ran run
  · exact h.updateMeta fun _ => ⟨rfl, rfl, rfl⟩
  · have first : SweepInv (s.refcountDecr id) lay p := h.updateMeta fun _ => ⟨rfl, rfl, rfl⟩
    refine first.freelistFree ?_ ?_ <;> simpa [Store.refcountDecr, Store.updateMeta]

/-! ## Stores into a record -/

theorem SweepInv.off_inj (h : SweepInv s lay p) {c : Block} (hb : b ∈ lay.live) (hc : c ∈ lay.live)
    (same : b.off = c.off) : b = c := by
  by_contra different
  have hb' := (h.log.sized hb).header
  have hc' := (h.log.sized hc).header
  rcases h.log.disjoint hb hc different with apart | apart <;> simp only [Block.stop] at apart <;>
    omega

theorem SweepInv.agree_other (h : SweepInv s lay p) {m' : Mem} {c : Block} (hb : b ∈ lay.live)
    (hc : c ∈ lay.live) (other : c ≠ b)
    (outside : ∀ x, x < b.off ∨ b.stop ≤ x → m' x = s.log.mem x) :
    Agree m' s.log.mem c.off c.stop :=
  agree_of_disjoint outside (h.log.disjoint hc hb other)

theorem SweepInv.recOf_other (h : SweepInv s lay p) {m' : Mem} {c : Block} (hb : b ∈ lay.live)
    (hc : c ∈ lay.live) (other : c ≠ b)
    (outside : ∀ x, x < b.off ∨ b.stop ≤ x → m' x = s.log.mem x) :
    recOf m' c = recOf s.log.mem c :=
  (h.wholeRec hc).recOf_congr (h.agree_other hb hc other outside)

theorem SweepInv.keyOf_setMem (h : SweepInv s lay p) {m' : Mem} (hb : b ∈ lay.live)
    (outside : ∀ x, x < b.off ∨ b.stop ≤ x → m' x = s.log.mem x)
    (key : keyOf m' b.off = keyOf s.log.mem b.off) {c : Block} (hc : c ∈ lay.live) :
    keyOf m' c.off = keyOf s.log.mem c.off := by
  by_cases same : c = b
  · rw [same, key]
  · exact congrArg Rec.key (h.recOf_other hb hc same outside)

theorem SweepInv.measure_setMem (h : SweepInv s lay p) {m' : Mem} (hb : b ∈ lay.live)
    (outside : ∀ x, x < b.off ∨ b.stop ≤ x → m' x = s.log.mem x)
    (measure : ∀ id ∈ s.table, s.itemOf id = b.off → measureOf m' b.off = measureOf s.log.mem b.off) :
    ∀ id ∈ s.table, measureOf m' (s.itemOf id) = s.measure id := by
  intro id hid
  obtain ⟨c, hc, off⟩ := h.live id hid
  rw [Store.measure, ← off]
  by_cases same : c = b
  · rw [same]
    exact measure id hid (by rw [← off, same])
  · exact (h.wholeRec hc).measureOf_congr (h.agree_other hb hc same outside)

/-- A store into a record that keeps it whole and keeps its key; only the record of an unlinked
item may be marked or change what the counters read. -/
theorem SweepInv.setMem (h : SweepInv s lay p) {m' : Mem} (hb : b ∈ lay.live)
    (outside : ∀ x, x < b.off ∨ b.stop ≤ x → m' x = s.log.mem x) (whole : Whole m' b)
    (key : keyOf m' b.off = keyOf s.log.mem b.off)
    (intact : ∀ id ∈ s.table, s.itemOf id = b.off → Intact m' b.off)
    (measure : ∀ id ∈ s.table, s.itemOf id = b.off → measureOf m' b.off = measureOf s.log.mem b.off) :
    SweepInv (s.setMem m') lay p := by
  have keyAt : ∀ id ∈ s.table, (s.setMem m').keyAt id = s.keyAt id := by
    intro id hid
    obtain ⟨c, hc, off⟩ := h.live id hid
    have := h.keyOf_setMem hb outside key hc
    rwa [off] at this
  refine { h with
    log := h.log.write_block hb outside whole.sized
    small := fun c hc => ?_
    intact := fun id hid => ?_
    keys := fun id hid id' hid' eq => h.keys id hid id' hid' ?_
    tally := h.tally.congr rfl rfl (h.measure_setMem hb outside measure) }
  · by_cases same : c = b
    · exact same ▸ whole.small
    · exact ((h.wholeRec hc).congr (h.agree_other hb hc same outside)).small
  · obtain ⟨c, hc, off⟩ := h.live id hid
    by_cases same : c = b
    · have := intact id hid (by rw [← off, same])
      rwa [← same, off] at this
    · have agree := (h.wholeRec hc).agree_header (h.agree_other hb hc same outside)
      exact (h.intact id hid).congr (flagsOf_congr (off ▸ agree))
  · rwa [keyAt id hid, keyAt id' hid'] at eq

theorem SweepInv.lookup_setMem (h : SweepInv s lay p) {m' : Mem} (hb : b ∈ lay.live)
    (outside : ∀ x, x < b.off ∨ b.stop ≤ x → m' x = s.log.mem x)
    (key : keyOf m' b.off = keyOf s.log.mem b.off) (h' : SweepInv (s.setMem m') lay p) :
    (s.setMem m').lookup = s.lookup := by
  refine lookup_congr h h' rfl fun id hid => ⟨rfl, ?_⟩
  obtain ⟨c, hc, off⟩ := h.live id hid
  have := h.keyOf_setMem hb outside key hc
  rwa [off] at this

theorem Whole.setCas_outside {m : Mem} (h : Whole m b) (v : ℕ) {x : ℕ}
    (outside : x < b.off ∨ b.stop ≤ x) : itemSetCas m b.off v x = m x := by
  unfold itemSetCas
  split_ifs with cas
  · have size := h.size_eq
    have room := casRoom_le (flagsOf m b.off)
    rw [casRoom, if_pos cas] at room
    simp only [Block.stop, sizeofItemData] at *
    exact write_outside (by simp only [length_le64]; omega)
  · rfl

/-! ## Unlinking -/

def Store.cut (s : Store) (id : ℕ) (stats : ItemStats) : Store :=
  { s with
    metas := Function.update s.metas id { s.metas id with linked := false }
    table := s.table.erase id
    stats := stats }

theorem itemOf_cut (stats : ItemStats) (k : ℕ) : (s.cut id stats).itemOf k = s.itemOf k := by
  simp only [Store.itemOf, Store.cut, Function.update_apply]
  split_ifs with eq
  · rw [eq]
  · rfl

theorem keyAt_cut (stats : ItemStats) (k : ℕ) : (s.cut id stats).keyAt k = s.keyAt k := by
  rw [Store.keyAt, Store.keyAt, itemOf_cut]
  rfl

theorem measure_cut (stats : ItemStats) (k : ℕ) : (s.cut id stats).measure k = s.measure k := by
  rw [Store.measure, Store.measure, itemOf_cut]
  rfl

theorem Store.KeysApart.eraseP_key (apart : s.KeysApart) (member : id ∈ s.table) :
    (s.table.eraseP fun k => s.keyAt k == s.keyAt id) = s.table.erase id := by
  rw [List.erase_eq_eraseP]
  refine Chains.eraseP_congr fun k hk => ?_
  by_cases eq : k = id
  · simp [eq]
  · have other : s.keyAt k ≠ s.keyAt id := fun contra => eq (apart k hk id member contra)
    simp [other, Ne.symm eq]

theorem SweepInv.eraseP_key (h : SweepInv s lay p) (member : id ∈ s.table) :
    (s.table.eraseP fun k => s.keyAt k == s.keyAt id) = s.table.erase id :=
  Store.KeysApart.eraseP_key h.keys member

theorem doItemUnlink_eq (linked : (s.metas id).linked = true)
    (present : (s.assocFind (s.keyAt id)).isSome = true)
    (same : (s.table.eraseP fun k => s.keyAt k == s.keyAt id) = s.table.erase id) :
    s.doItemUnlink id = (s.cut id (s.stats.unlink (s.measure id))).doItemRemove id := by
  set u := s.updateMeta id fun it => { it with linked := false } with hu
  have keyAt (k : ℕ) : ((u.statsUnlink id).itemStatsSizesRemove id).keyAt k = s.keyAt k := by
    change (s.cut id s.stats).keyAt k = s.keyAt k
    exact keyAt_cut s.stats k
  have measure : u.measure id = s.measure id := by
    apply measure_updateMeta
    exact fun _ => rfl
  have table : ((u.statsUnlink id).itemStatsSizesRemove id).table = s.table := rfl
  rw [Store.assocFind] at present
  rw [Store.doItemUnlink, if_pos linked, ← hu]
  simp only [Store.assocDelete, Store.assocFind, keyAt, table, present, same, check, if_true]
  refine congrArg (Store.doItemRemove · id) (Store.ext rfl rfl rfl rfl rfl rfl rfl rfl rfl ?_)
  rw [← measure]
  exact stats_unlinked u _ id _ rfl

theorem SweepInv.doItemUnlink_ran (h : SweepInv s lay p) (linked : (s.metas id).linked = true)
    (run : s.doItemUnlink id = .ok s') :
    (s.cut id (s.stats.unlink (s.measure id))).doItemRemove id = .ok s' := by
  have member := (h.linked id).2 linked
  have present : (s.assocFind (s.keyAt id)).isSome = true := by
    rw [Store.assocFind, List.find?_isSome]
    exact ⟨id, member, by simp⟩
  exact doItemUnlink_eq linked present (h.eraseP_key member) ▸ run

/-- The store `s'` is `s` without the item `id` in its table. -/
structure Unlinks (s s' : Store) (id : ℕ) : Prop where
  settings : s'.settings = s.settings
  clock : s'.clock = s.clock
  log : s'.log = s.log
  table : s'.table = s.table.erase id
  item : ∀ k, s'.itemOf k = s.itemOf k
  linked : ∀ k, (s'.metas k).linked = if k = id then false else (s.metas k).linked

theorem unlinks_cut (stats : ItemStats) : Unlinks s (s.cut id stats) id := by
  refine ⟨rfl, rfl, rfl, rfl, itemOf_cut stats, fun k => ?_⟩
  simp only [Store.cut, Function.update_apply]
  split_ifs <;> rfl

theorem Unlinks.trans_same {s'' : Store} (h : Unlinks s s' id) (h' : SameTable s' s'') :
    Unlinks s s'' id :=
  ⟨h'.settings.trans h.settings, h'.clock.trans h.clock, h'.log.trans h.log,
    h'.table.trans h.table, fun k => (h'.item k).trans (h.item k),
    fun k => (h'.linked k).trans (h.linked k)⟩

theorem SameTable.trans_unlinks {s'' : Store} (h : SameTable s s') (h' : Unlinks s' s'' id) :
    Unlinks s s'' id :=
  ⟨h'.settings.trans h.settings, h'.clock.trans h.clock, h'.log.trans h.log,
    h'.table.trans (by rw [h.table]), fun k => (h'.item k).trans (h.item k),
    fun k => (h'.linked k).trans (by rw [h.linked])⟩

theorem Unlinks.keyAt (h : Unlinks s s' id) (k : ℕ) : s'.keyAt k = s.keyAt k := by
  rw [Store.keyAt, Store.keyAt, h.log, h.item]

theorem Unlinks.journal (h : Unlinks s s' id) : s'.journal lay = s.journal lay := by
  rw [Store.journal, Store.journal, h.log]

theorem Unlinks.mem_table (h : Unlinks s s' id) (inv : SweepInv s lay p) (k : ℕ) :
    k ∈ s'.table ↔ k ≠ id ∧ k ∈ s.table := by
  rw [h.table, inv.nodup.mem_erase_iff]

theorem Tally.cut (h : Tally s) (member : id ∈ s.table) :
    Tally (s.cut id (s.stats.unlink (s.measure id))) := by
  have same : (s.table.map s.measure).Perm (s.measure id :: (s.table.erase id).map s.measure) :=
    (List.perm_cons_erase member).map s.measure
  rw [Tally, funext (measure_cut (s.stats.unlink (s.measure id)))]
  exact (h.perm same).unlink

theorem SweepInv.cut (h : SweepInv s lay p) (stats : ItemStats) (tally : Tally (s.cut id stats)) :
    SweepInv (s.cut id stats) lay p := by
  have cut : Unlinks s (s.cut id stats) id := unlinks_cut stats
  refine { h with
    nodup := h.nodup.erase id
    linked := fun k => ?_
    live := fun k hk => ?_
    intact := fun k hk => ?_
    keys := fun k hk k' hk' eq => ?_
    free := fun k => ?_
    unlinked := fun k hk => ?_
    tally := tally }
  · rw [cut.mem_table h, cut.linked, h.linked]
    split_ifs with eq <;> simp [eq]
  · rw [cut.item]
    exact h.live k ((cut.mem_table h k).1 hk).2
  · rw [cut.item]
    exact h.intact k ((cut.mem_table h k).1 hk).2
  · rw [cut.keyAt, cut.keyAt] at eq
    exact h.keys k ((cut.mem_table h k).1 hk).2 k' ((cut.mem_table h k').1 hk').2 eq
  · rw [show (s.cut id stats).freelist = s.freelist from rfl, h.free]
    simp only [Store.cut, Function.update_apply]
    split_ifs with eq <;> simp [eq]
  · rw [cut.linked]
    split_ifs
    · rfl
    · exact h.unlinked k hk

theorem Unlinks.assocFind (cut : Unlinks s s' id) (h : SweepInv s lay p) (h' : SweepInv s' lay' q)
    (member : id ∈ s.table) (key : Key) :
    s'.assocFind key = if key = s.keyAt id then none else s.assocFind key := by
  split_ifs with eq
  · rw [h'.assocFind_none]
    intro k hk same
    obtain ⟨other, hk⟩ := (cut.mem_table h k).1 hk
    rw [cut.keyAt, eq] at same
    exact other (h.keys k hk id member same)
  · rcases found : s.assocFind key with _ | k
    · rw [h'.assocFind_none]
      intro k hk
      rw [cut.keyAt]
      exact h.assocFind_none.1 found k ((cut.mem_table h k).1 hk).2
    · obtain ⟨hk, same⟩ := assocFind_linked found
      refine h'.assocFind_iff.2 ⟨(cut.mem_table h k).2 ⟨?_, hk⟩, (cut.keyAt k).trans same⟩
      rintro rfl
      exact eq same.symm

theorem Unlinks.lookup (cut : Unlinks s s' id) (h : SweepInv s lay p) (h' : SweepInv s' lay' q)
    (member : id ∈ s.table) : s'.lookup = Function.update s.lookup (s.keyAt id) none := by
  funext key
  rw [Store.lookup, cut.assocFind h h' member, Function.update_apply]
  split_ifs
  · rfl
  · exact congrArg (Option.map · _) (funext cut.item)

theorem SweepInv.doItemUnlink (h : SweepInv s lay p) (linked : (s.metas id).linked = true)
    (run : s.doItemUnlink id = .ok s') : SweepInv s' lay p ∧ Unlinks s s' id := by
  have run := h.doItemUnlink_ran linked run
  exact ⟨(h.cut _ (h.tally.cut ((h.linked id).2 linked))).doItemRemove run,
    (unlinks_cut _).trans_same (sameTable_doItemRemove run)⟩

theorem doItemUnlink_unlinked (unlinked : (s.metas id).linked = false)
    (run : s.doItemUnlink id = .ok s') : s' = s := by
  rw [Store.doItemUnlink, unlinked, if_neg (by decide)] at run
  exact (pure_ran.1 run).symm

/-! ## Linking -/

def Store.join (s : Store) (id cas casId : ℕ) (stats : ItemStats) : Store :=
  { s.setMem (itemSetCas s.log.mem (s.itemOf id) cas) with
    metas := Function.update s.metas id { s.metas id with
      linked := true
      time := s.currentTime
      refcount := ((s.metas id).refcount + 1) % 2 ^ 16 }
    table := id :: s.table
    casId := casId
    stats := stats }

/-- The id that `get_cas_id` draws next. -/
def Store.nextCas (s : Store) : ℕ := if s.settings.useCas then (s.casId + 1) % 2 ^ 64 else 0

/-- The store after `do_item_link`. -/
def Store.linkedIn (s : Store) (id : ℕ) : Store :=
  s.join id s.nextCas
    (if has (flagsOf s.log.mem (s.itemOf id)) itemCas && s.settings.useCas then s.nextCas
      else s.casId)
    (s.stats.link (measureOf (itemSetCas s.log.mem (s.itemOf id) s.nextCas) (s.itemOf id)))

theorem doItemLink_eq (run : s.doItemLink id = .ok s') :
    (s.metas id).linked = false ∧ (s.metas id).slabbed = false ∧ s' = s.linkedIn id := by
  rw [Store.doItemLink, check_bind_ran, Bool.and_eq_true, Bool.not_eq_true',
    Bool.not_eq_true'] at run
  obtain ⟨⟨linked, slabbed⟩, run⟩ := run
  obtain ⟨_, linkQ, run⟩ := bind_ran.1 run
  rw [Store.doItemLinkQ, check_bind_ran] at linkQ
  obtain rfl := pure_ran.1 linkQ.2
  obtain rfl := pure_ran.1 run
  have item : (s.updateMeta id fun it => { it with linked := true, time := s.currentTime }).itemOf
      id = s.itemOf id := by simp [Store.itemOf, Store.updateMeta]
  refine ⟨linked, slabbed, Store.ext rfl ?_ ?_ rfl rfl ?_ rfl rfl rfl ?_⟩
  · simp [Store.itemStatsSizesAdd, Store.refcountIncr, Store.assocInsert, Store.setNewCas,
      Store.statsLink, Store.updateMeta, Store.setMem, Store.join, Store.itemOf, Store.linkedIn,
      Store.nextCas]
  · simp [Store.itemStatsSizesAdd, Store.refcountIncr, Store.assocInsert, Store.setNewCas,
      Store.statsLink, Store.updateMeta, Store.setMem, Store.join, Function.update_idem,
      Store.linkedIn]
  · rw [Store.linkedIn, ← item]
    rfl
  · refine (stats_linked _ _ id rfl).trans ?_
    simp only [Store.setNewCas, item]
    rfl

theorem doItemLink_ok (unlinked : (s.metas id).linked = false)
    (slabbed : (s.metas id).slabbed = false) : s.doItemLink id = .ok (s.linkedIn id) := by
  have ran : ∃ s', s.doItemLink id = .ok s' := by
    simp only [Store.doItemLink, bind_ran, Store.doItemLinkQ, pure_ran, check_ran]
    simp [unlinked, slabbed, Store.assocInsert, Store.setNewCas, Store.statsLink, Store.updateMeta,
      Store.setMem]
  obtain ⟨s', run⟩ := ran
  rw [run, (doItemLink_eq run).2.2]

theorem doItemLink_ran (run : s.doItemLink id = .ok s') :
    (s.metas id).linked = false ∧ (s.metas id).slabbed = false ∧
      ∃ cas casId, s' = s.join id cas casId
        (s.stats.link (measureOf (itemSetCas s.log.mem (s.itemOf id) cas) (s.itemOf id))) := by
  obtain ⟨linked, slabbed, eq⟩ := doItemLink_eq run
  exact ⟨linked, slabbed, _, _, eq⟩

/-- The store `s'` is `s` with the item `id` in its table, under a new CAS id. -/
structure Links (s s' : Store) (id : ℕ) : Prop where
  settings : s'.settings = s.settings
  clock : s'.clock = s.clock
  log : ∃ cas, s'.log = (s.setMem (itemSetCas s.log.mem (s.itemOf id) cas)).log
  table : s'.table = id :: s.table
  item : ∀ k, s'.itemOf k = s.itemOf k
  linked : ∀ k, (s'.metas k).linked = if k = id then true else (s.metas k).linked

theorem itemOf_join (cas casId : ℕ) (stats : ItemStats) (k : ℕ) :
    (s.join id cas casId stats).itemOf k = s.itemOf k := by
  simp only [Store.itemOf, Store.join, Function.update_apply]
  split_ifs with eq
  · rw [eq]
  · rfl

theorem links_join (cas casId : ℕ) (stats : ItemStats) :
    Links s (s.join id cas casId stats) id := by
  refine ⟨rfl, rfl, ⟨cas, rfl⟩, rfl, itemOf_join cas casId stats, fun k => ?_⟩
  simp only [Store.join, Function.update_apply]
  split_ifs <;> rfl

theorem SweepInv.join (h : SweepInv s lay p) (slabbed : (s.metas id).slabbed = false)
    (unlinked : (s.metas id).linked = false) (hb : b ∈ lay.live) (off : b.off = s.itemOf id)
    (intact : Intact s.log.mem (s.itemOf id)) (fresh : s.assocFind (s.keyAt id) = none)
    (cas casId : ℕ) (stats : ItemStats) (tally : Tally (s.join id cas casId stats)) :
    SweepInv (s.join id cas casId stats) lay p := by
  have whole := (h.wholeRec hb).setCas cas
  have key : keyOf (itemSetCas s.log.mem b.off cas) b.off = keyOf s.log.mem b.off :=
    congrArg Rec.key (recOf_itemSetCas cas)
  have flags : flagsOf (itemSetCas s.log.mem b.off cas) b.off = flagsOf s.log.mem b.off :=
    itemSetCas_outside (by omega)
  have base : SweepInv (s.setMem (itemSetCas s.log.mem b.off cas)) lay p :=
    h.setMem hb (fun _ hx => (h.wholeRec hb).setCas_outside cas hx) whole key
      (fun k hk eq => (eq ▸ h.intact k hk : Intact s.log.mem b.off).congr flags)
      fun k hk eq => absurd (congrArg (keyOf s.log.mem) (eq.trans off))
        (h.assocFind_none.1 fresh k hk)
  have outside := fun x hx => (h.wholeRec hb).setCas_outside (x := x) cas hx
  have keyAt : ∀ k, (k = id ∨ k ∈ s.table) → (s.join id cas casId stats).keyAt k = s.keyAt k := by
    intro k hk
    have live : ∃ c ∈ lay.live, c.off = s.itemOf k := by
      rcases hk with rfl | hk
      · exact ⟨b, hb, off⟩
      · exact h.live k hk
    obtain ⟨c, hc, eq⟩ := live
    rw [Store.keyAt, Store.keyAt, itemOf_join, ← eq]
    have := h.keyOf_setMem hb outside key hc
    rw [off] at this
    exact this
  have notMem : id ∉ s.table := fun hid => by
    have := (h.linked id).1 hid
    rw [unlinked] at this
    cases this
  have links : Links s (s.join id cas casId stats) id := links_join cas casId stats
  rw [off] at base
  refine { base with
    nodup := List.nodup_cons.2 ⟨notMem, h.nodup⟩
    linked := fun k => ?_
    live := fun k hk => ?_
    intact := fun k hk => ?_
    keys := fun k hk k' hk' eq => ?_
    free := fun k => ?_
    unlinked := fun k hk => ?_
    tally := tally }
  · rw [links.linked, links.table, List.mem_cons, h.linked]
    split_ifs with eq <;> simp [eq]
  · rw [links.item]
    rcases List.mem_cons.1 hk with rfl | hk
    · exact ⟨b, hb, off⟩
    · exact h.live k hk
  · rw [links.item]
    rcases List.mem_cons.1 hk with rfl | hk
    · rw [off] at flags
      exact intact.congr flags
    · exact base.intact k hk
  · have hk : k = id ∨ k ∈ s.table := List.mem_cons.1 hk
    have hk' : k' = id ∨ k' ∈ s.table := List.mem_cons.1 hk'
    rw [keyAt k hk, keyAt k' hk'] at eq
    rcases hk with first | old <;> rcases hk' with first' | old'
    · rw [first, first']
    · exact absurd (eq.symm.trans (by rw [first])) (h.assocFind_none.1 fresh k' old')
    · exact absurd (eq.trans (by rw [first'])) (h.assocFind_none.1 fresh k old)
    · exact h.keys k old k' old' eq
  · rw [show (s.join id cas casId stats).freelist = s.freelist from rfl, h.free]
    simp only [Store.join, Function.update_apply]
    split_ifs with eq <;> simp [eq]
  · rw [links.linked]
    split_ifs with eq
    · have hk : k ∈ s.freelist := hk
      rw [(h.free id).1 (eq ▸ hk)] at slabbed
      cases slabbed
    · exact h.unlinked k hk

theorem Links.effect (links : Links s s' id) (h : SweepInv s lay p) (h' : SweepInv s' lay p)
    (hb : b ∈ lay.live) (off : b.off = s.itemOf id) :
    s'.journal lay = s.journal lay ∧
      s'.lookup = Function.update s.lookup (s.keyAt id) (some (s.itemOf id)) := by
  obtain ⟨cas, log⟩ := links.log
  have outside := fun x hx => (h.wholeRec hb).setCas_outside (x := x) cas hx
  have mem : s'.log.mem = itemSetCas s.log.mem b.off cas := by rw [log, off]; rfl
  have recs : ∀ c ∈ lay.live, recOf s'.log.mem c = recOf s.log.mem c := by
    intro c hc
    rw [mem]
    by_cases same : c = b
    · rw [same, recOf_itemSetCas]
    · exact h.recOf_other hb hc same outside
  have keyAt : ∀ k, (k = id ∨ k ∈ s.table) → s'.keyAt k = s.keyAt k := by
    intro k hk
    have live : ∃ c ∈ lay.live, c.off = s.itemOf k := by
      rcases hk with rfl | hk
      · exact ⟨b, hb, off⟩
      · exact h.live k hk
    obtain ⟨c, hc, eq⟩ := live
    rw [Store.keyAt, Store.keyAt, links.item, ← eq]
    exact congrArg Rec.key (recs c hc)
  refine ⟨List.map_congr_left recs, funext fun key => ?_⟩
  have member (k : ℕ) : k ∈ s'.table ↔ k = id ∨ k ∈ s.table := by rw [links.table, List.mem_cons]
  rw [Function.update_apply, Store.lookup]
  split_ifs with eq
  · have found : s'.assocFind key = some id :=
      h'.assocFind_iff.2 ⟨(member id).2 (Or.inl rfl), (keyAt id (Or.inl rfl)).trans eq.symm⟩
    simp [found, links.item]
  · rcases found : s.assocFind key with _ | k
    · have missing : s'.assocFind key = none := by
        rw [h'.assocFind_none]
        intro k hk
        rw [member] at hk
        rw [keyAt k hk]
        rcases hk with rfl | hk
        · exact fun contra => eq contra.symm
        · exact h.assocFind_none.1 found k hk
      simp [missing, Store.lookup, found]
    · obtain ⟨hk, same⟩ := assocFind_linked found
      have found' : s'.assocFind key = some k :=
        h'.assocFind_iff.2 ⟨(member k).2 (Or.inr hk), (keyAt k (Or.inr hk)).trans same⟩
      simp [found', Store.lookup, found, links.item]

theorem SweepInv.tally_join (h : SweepInv s lay p) (hb : b ∈ lay.live) (off : b.off = s.itemOf id)
    (fresh : s.assocFind (s.keyAt id) = none) (cas casId : ℕ) :
    Tally (s.join id cas casId
      (s.stats.link (measureOf (itemSetCas s.log.mem (s.itemOf id) cas) (s.itemOf id)))) := by
  have others : ∀ k ∈ s.table,
      measureOf (itemSetCas s.log.mem (s.itemOf id) cas) (s.itemOf k) = s.measure k := by
    rw [← off]
    exact h.measure_setMem hb (fun _ hx => (h.wholeRec hb).setCas_outside cas hx)
      fun k hk eq => absurd (congrArg (keyOf s.log.mem) (eq.trans off))
        (h.assocFind_none.1 fresh k hk)
  have measure (stats : ItemStats) : (s.join id cas casId stats).measure =
      fun k => measureOf (itemSetCas s.log.mem (s.itemOf id) cas) (s.itemOf k) := by
    funext k
    rw [Store.measure, itemOf_join]
    rfl
  rw [Tally, measure]
  change Tallies _ (_ :: s.table.map _)
  rw [List.map_congr_left others]
  exact h.tally.link _

theorem SweepInv.doItemLink (h : SweepInv s lay p) (hb : b ∈ lay.live) (off : b.off = s.itemOf id)
    (intact : Intact s.log.mem (s.itemOf id))
    (fresh : s.assocFind (s.keyAt id) = none) (run : s.doItemLink id = .ok s') :
    SweepInv s' lay p ∧ Links s s' id := by
  obtain ⟨unlinked, slabbed, cas, casId, rfl⟩ := doItemLink_ran run
  exact ⟨h.join slabbed unlinked hb off intact fresh cas casId _ (h.tally_join hb off fresh cas casId),
    links_join cas casId _⟩

/-! ## Replacing -/

/-- What replacing a linked item by another of the same key does. -/
structure Replaces (s s' : Store) (lay : Layout) (p id newId : ℕ) : Prop where
  inv : SweepInv s' lay p
  settings : s'.settings = s.settings
  clock : s'.clock = s.clock
  limit : s'.log.memLimit = s.log.memLimit
  item : ∀ k, s'.itemOf k = s.itemOf k
  linked : ∀ k, (s'.metas k).linked = true ↔ k = newId ∨ k ≠ id ∧ (s.metas k).linked = true
  journal : s'.journal lay = s.journal lay
  lookup : s'.lookup = Function.update s.lookup (s.keyAt newId) (some (s.itemOf newId))

theorem SweepInv.doItemReplace {newId : ℕ} (h : SweepInv s lay p)
    (linked : (s.metas id).linked = true) (hb : b ∈ lay.live) (off : b.off = s.itemOf newId)
    (intact : Intact s.log.mem (s.itemOf newId)) (key : s.keyAt newId = s.keyAt id)
    (run : s.doItemReplace id newId = .ok s') :
    Replaces s s' lay p id newId := by
  rw [Store.doItemReplace, check_bind_ran] at run
  obtain ⟨s₁, unlink, link⟩ := bind_ran.1 run.2
  obtain ⟨inv₁, cut⟩ := h.doItemUnlink linked unlink
  have gone : s₁.assocFind (s₁.keyAt newId) = none := by
    rw [cut.keyAt, cut.assocFind h inv₁ ((h.linked id).2 linked), if_pos key]
  have off₁ : b.off = s₁.itemOf newId := off.trans (cut.item newId).symm
  obtain ⟨inv', links⟩ := inv₁.doItemLink hb off₁ (by rw [cut.item, cut.log]; exact intact) gone link
  obtain ⟨journal, lookup⟩ := links.effect inv₁ inv' hb off₁
  refine ⟨inv', links.settings.trans cut.settings, links.clock.trans cut.clock, ?_,
    fun k => (links.item k).trans (cut.item k), fun k => ?_, journal.trans cut.journal, ?_⟩
  · obtain ⟨cas, log⟩ := links.log
    rw [log, ← cut.log]
    rfl
  · rw [links.linked, cut.linked]
    split_ifs with eq eq' <;> simp_all
  · rw [lookup, cut.lookup h inv₁ ((h.linked id).2 linked), cut.keyAt, cut.item, key,
      Function.update_idem]

/-! ## Growing and shrinking the log -/

theorem SweepInv.relog {l : Memlog} (h : SweepInv s lay p) (log : LogInv l lay' q)
    (limit : l.memLimit = s.log.memLimit)
    (same : ∀ b ∈ lay.live, b ∈ lay'.live → Agree l.mem s.log.mem b.off b.stop)
    (kept : ∀ id ∈ s.table, ∀ b ∈ lay.live, b.off = s.itemOf id → b ∈ lay'.live)
    (new : ∀ b ∈ lay'.live,
      b ∈ lay.live ∨ 16 * b.size ≤ l.memLimit ∧ nbytesOf l.mem b.off < 2 ^ 31) :
    SweepInv { s with log := l } lay' q ∧ Store.lookup { s with log := l } = s.lookup := by
  have keyAt : ∀ id ∈ s.table, Store.keyAt { s with log := l } id = s.keyAt id := by
    intro id hid
    obtain ⟨c, hc, off⟩ := h.live id hid
    have key := congrArg Rec.key ((h.wholeRec hc).recOf_congr (same c hc (kept id hid c hc off)))
    simp only [recOf, off] at key
    exact key
  have inv : SweepInv { s with log := l } lay' q := by
    refine { h with
      log := log
      limit := by rw [limit]; exact h.limit
      bounded := fun b hb => ?_
      small := fun b hb => ?_
      live := fun id hid => ?_
      intact := fun id hid => ?_
      keys := fun id hid id' hid' eq => ?_
      tally := h.tally.congr rfl rfl fun id hid => ?_ }
    · rcases new b hb with old | ⟨bound, -⟩
      · rw [limit]
        exact h.bounded b old
      · exact bound
    · rcases new b hb with old | ⟨-, small⟩
      · exact ((h.wholeRec old).congr (same b old hb)).small
      · exact small
    · obtain ⟨c, hc, off⟩ := h.live id hid
      exact ⟨c, kept id hid c hc off, off⟩
    · obtain ⟨c, hc, off⟩ := h.live id hid
      have agree := (h.wholeRec hc).agree_header (same c hc (kept id hid c hc off))
      exact (h.intact id hid).congr (flagsOf_congr (off ▸ agree))
    · rw [keyAt id hid, keyAt id' hid'] at eq
      exact h.keys id hid id' hid' eq
    · obtain ⟨c, hc, off⟩ := h.live id hid
      have := (h.wholeRec hc).measureOf_congr (same c hc (kept id hid c hc off))
      rwa [off] at this
  exact ⟨inv, lookup_congr h inv rfl fun id hid => ⟨rfl, keyAt id hid⟩⟩

end Facts

end LogMemcached

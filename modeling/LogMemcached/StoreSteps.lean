import LogMemcached.StoreInv

/-!
# The store operations keep the invariant

Lookups with lazy unlinking, allocation, and cleaning, each with its effect on the journal of
records and on the table.
-/

namespace LogMemcached

open ByteMem Tiling Fallible

variable {s s' : Store} {lay lay' : Layout} {id : ℕ} {key : Key} {flags exptime : ℕ} {nbytes : ℤ}

/-! ## Lookups -/

/-- The item is hidden by `flush_all` or by its expiry. -/
def Store.itemIsHidden (s : Store) (id : ℕ) : Bool := s.itemIsFlushed id || s.itemIsExpired id

/-- What a lookup does: nothing, a reference to the item found, or the removal of a hidden item. -/
inductive Looks (s s' : Store) (key : Key) : Option ℕ → Prop
  | missing (absent : s.assocFind key = none) (same : s' = s) : Looks s s' key none
  | found (id : ℕ) (hit : s.assocFind key = some id) (visible : s.itemIsHidden id = false)
      (same : s' = s.refcountIncr id) : Looks s s' key (some id)
  | hidden (id : ℕ) (s₁ : Store) (hit : s.assocFind key = some id)
      (stale : s.itemIsHidden id = true) (unlink : (s.refcountIncr id).doItemUnlink id = .ok s₁)
      (remove : s₁.doItemRemove id = .ok s') : Looks s s' key none

theorem itemIsHidden_refcountIncr : (s.refcountIncr id).itemIsHidden id = s.itemIsHidden id := by
  have item : (s.refcountIncr id).metas id =
      { s.metas id with refcount := ((s.metas id).refcount + 1) % 2 ^ 16 } :=
    Function.update_self ..
  simp only [Store.itemIsHidden, Store.itemIsFlushed, Store.itemIsExpired, Store.itemOf, item]
  rfl

theorem doItemGet_ran {it : Option ℕ} (run : s.doItemGet key = .ok (s', it)) :
    Looks s s' key it := by
  unfold Store.doItemGet at run
  rcases hit : s.assocFind key with _ | id
  · rw [hit] at run
    obtain ⟨rfl, rfl⟩ := pair_ran.1 run
    exact .missing hit rfl
  · simp only [hit] at run
    have hidden : ((s.refcountIncr id).itemIsFlushed id || (s.refcountIncr id).itemIsExpired id) =
        s.itemIsHidden id := itemIsHidden_refcountIncr
    rw [hidden] at run
    cases stale : s.itemIsHidden id with
    | true =>
      rw [stale, if_pos rfl] at run
      obtain ⟨s₁, unlink, run⟩ := bind_ran.1 run
      obtain ⟨s₂, remove, run⟩ := bind_ran.1 run
      obtain ⟨rfl, rfl⟩ := pair_ran.1 run
      exact .hidden id s₁ hit stale unlink remove
    | false =>
      rw [stale, if_neg (by decide)] at run
      obtain ⟨rfl, rfl⟩ := pair_ran.1 run
      exact .found id hit stale rfl

theorem StoreInv.doItemGet_some (h : StoreInv s lay) (run : s.doItemGet key = .ok (s', some id)) :
    StoreInv s' lay ∧ SameTable s s' ∧ s.assocFind key = some id ∧ s.itemIsHidden id = false ∧
      s' = s.refcountIncr id := by
  cases doItemGet_ran run with
  | found _ hit visible same =>
    subst same
    exact ⟨h.refcountIncr, sameTable_refcountIncr, hit, visible, rfl⟩

theorem StoreInv.doItemGet_none (h : StoreInv s lay) (run : s.doItemGet key = .ok (s', none)) :
    StoreInv s' lay ∧ s'.log = s.log ∧ s'.assocFind key = none ∧
      (s' = s ∨ ∃ id, s.assocFind key = some id ∧ s.itemIsHidden id = true ∧ Unlinks s s' id) := by
  cases doItemGet_ran run with
  | missing absent same =>
    subst same
    exact ⟨h, rfl, absent, Or.inl rfl⟩
  | hidden id s₁ hit stale unlink remove =>
    obtain ⟨member, eq⟩ := assocFind_linked hit
    have linked : ((s.refcountIncr id).metas id).linked = true := by
      rw [sameTable_refcountIncr.linked]
      exact (h.linked id).1 member
    obtain ⟨inv₁, cut₁⟩ := h.refcountIncr.doItemUnlink linked unlink
    have inv' := inv₁.doItemRemove remove
    have cut := (sameTable_refcountIncr.trans_unlinks cut₁).trans_same
      (sameTable_doItemRemove remove)
    refine ⟨inv', cut.log, ?_, Or.inr ⟨id, hit, stale, cut⟩⟩
    rw [cut.assocFind h inv' member, if_pos eq.symm]

/-! ## Allocation -/

/-- A request that the log can serve or refuse without losing track of its records. -/
structure AllocOk (s : Store) (key : Key) (flags : ℕ) (nbytes : ℤ) : Prop where
  short : key.length ≤ 250
  word : flags < 2 ^ 32
  nonneg : 0 ≤ nbytes
  bounded : nbytes < 2 ^ 31
  size : 16 * allocTotal true key.length flags nbytes ≤ s.log.memLimit
  wrap : WrapOk s.log (allocTotal true key.length flags nbytes)

inductive Allocates (s s' : Store) (lay lay' : Layout) (key : Key) (flags exptime : ℕ) (nbytes : ℤ) :
    Option ℕ → Bool → Prop
  | failed (live : lay'.live = lay.live) (shape : s' = { s with log := s'.log }) :
      Allocates s s' lay lay' key flags exptime nbytes none false
  | tombstone (o : ℕ) (marked : deletedBit flags = true)
      (live : lay'.live = lay.live ++ [⟨o, allocTotal true key.length flags nbytes⟩])
      (shape : s' = { s with log := s'.log })
      (written : Written s'.log.mem o (itemDeleted ||| itemStored) key (suffixText flags nbytes) 0
        nbytes.toNat) : Allocates s s' lay lay' key flags exptime nbytes none true
  | item (id o : ℕ) (rest : List ℕ) (plain : deletedBit flags = false)
      (live : lay'.live = lay.live ++ [⟨o, allocTotal true key.length flags nbytes⟩])
      (free : s.freelist = id :: rest)
      (shape : s' = { s with
        log := s'.log
        freelist := rest
        metas := Function.update s.metas id
          ⟨o, (s.metas id).time, 1, 0, (s.metas id).linked, false⟩ })
      (written : Written s'.log.mem o (itemCas ||| itemDirty) key (suffixText flags nbytes)
        (exptime % 2 ^ 32) nbytes.toNat) :
      Allocates s s' lay lay' key flags exptime nbytes (some id) true

theorem StoreInv.reserve (h : StoreInv s lay) {l : Memlog} {o size : ℕ} {m' : Mem}
    (cut : Reserved l lay lay' o size) (same : SameRecords l.mem s.log.mem lay)
    (limit : l.memLimit = s.log.memLimit) (bound : 16 * size ≤ s.log.memLimit)
    (outside : ∀ x, x < o ∨ o + size ≤ x → m' x = l.mem x) (whole : Whole m' ⟨o, size⟩) :
    StoreInv { s with log := { l with mem := m' } } lay' ∧
      Store.lookup { s with log := { l with mem := m' } } = s.lookup ∧
      SameRecords m' s.log.mem lay := by
  have kept : SameRecords m' s.log.mem lay := fun b hb =>
    (agree_of_disjoint (b := ⟨o, size⟩) outside (cut.apart b hb)).trans (same b hb)
  have grown := h.relog (l := { l with mem := m' }) (cut.filled m' outside whole.sized) limit
    (fun b hb _ => kept b hb) (fun _ _ b hb _ => by
      rw [cut.live]
      exact List.mem_append_left _ hb) (fun b hb => by
      rw [cut.live] at hb
      rcases List.mem_append.1 hb with old | new
      · exact Or.inl old
      · rw [List.mem_singleton.1 new]
        exact Or.inr ⟨by rw [limit]; exact bound, whole.small⟩)
  exact ⟨grown.1, grown.2, kept⟩

theorem StoreInv.freelistPop (h : StoreInv s lay) {rest : List ℕ} (free : s.freelist = id :: rest)
    (it : ItemMeta) (linked : it.linked = (s.metas id).linked) (slabbed : it.slabbed = false) :
    StoreInv { s with freelist := rest, metas := Function.update s.metas id it } lay ∧
      Store.lookup { s with freelist := rest, metas := Function.update s.metas id it } =
        s.lookup := by
  have head : id ∈ s.freelist := by rw [free]; exact List.mem_cons_self ..
  have unlinked := h.unlinked id head
  have nodup : id ∉ rest ∧ rest.Nodup := List.nodup_cons.1 (free ▸ h.freeNodup)
  have other : ∀ k ∈ s.table, k ≠ id := fun k hk eq => by
    have := (h.linked k).1 hk
    rw [eq, unlinked] at this
    cases this
  have keep : ∀ k ∈ s.table,
      Store.itemOf { s with freelist := rest, metas := Function.update s.metas id it } k =
        s.itemOf k := fun k hk => by
    simp only [Store.itemOf, Function.update_apply, if_neg (other k hk)]
  have keyAt : ∀ k ∈ s.table,
      Store.keyAt { s with freelist := rest, metas := Function.update s.metas id it } k =
        s.keyAt k := fun k hk => by
    rw [Store.keyAt, keep k hk]
    rfl
  have inv : StoreInv { s with freelist := rest, metas := Function.update s.metas id it } lay := by
    refine { h with
      linked := fun k => ?_
      live := fun k hk => by rw [keep k hk]; exact h.live k hk
      intact := fun k hk => by rw [keep k hk]; exact h.intact k hk
      keys := fun k hk k' hk' eq => h.keys k hk k' hk' (by rwa [keyAt k hk, keyAt k' hk'] at eq)
      freeNodup := nodup.2
      free := fun k => ?_
      unlinked := fun k hk => ?_
      tally := h.tally.congr rfl rfl fun k hk => by rw [Store.measure, keep k hk]; rfl }
    · rw [h.linked]
      simp only [Function.update_apply]
      split_ifs with eq
      · rw [eq, linked]
      · rfl
    · simp only [Function.update_apply]
      split_ifs with eq
      · simp [eq, slabbed, nodup.1]
      · rw [← h.free, free, List.mem_cons]
        simp [eq]
    · simp only [Function.update_apply]
      split_ifs with eq
      · rw [linked, unlinked]
      · exact h.unlinked k (by rw [free]; exact List.mem_cons_of_mem _ hk)
  exact ⟨inv, lookup_congr h inv rfl fun k hk => ⟨keep k hk, keyAt k hk⟩⟩

/-- How `do_item_alloc` goes on with the log and the record it got. -/
inductive AllocRan (s : Store) (key : Key) (flags exptime : ℕ) (nbytes : ℤ) (l : Memlog) :
    Option ℕ → Store → Option ℕ → Bool → Prop
  | full : AllocRan s key flags exptime nbytes l none { s with log := l } none false
  | tombstone {o : ℕ} (marked : deletedBit flags = true) :
      AllocRan s key flags exptime nbytes l (some o)
        { s with log := { l with mem := writeTombstone l.mem o key flags nbytes } } none true
  | item {s' : Store} {o id : ℕ} {rest : List ℕ} (plain : deletedBit flags = false)
      (free : s.freelist = id :: rest)
      (shape : s' = { s with
        log := { l with mem := writeItem s.settings.useCas l.mem o key flags exptime nbytes }
        freelist := rest
        metas := Function.update s.metas id
          ⟨o, (s.metas id).time, 1, 0, (s.metas id).linked, false⟩ }) :
      AllocRan s key flags exptime nbytes l (some o) s' (some id) true

theorem doItemAlloc_ran {it : Option ℕ} {succeed : Bool}
    (run : s.doItemAlloc key flags exptime nbytes = .ok (s', it, succeed)) :
    ∃ l got, memlogAllocRetry 3 s.log (allocTotal s.settings.useCas key.length flags nbytes) =
      (l, got) ∧ AllocRan s key flags exptime nbytes l got s' it succeed := by
  unfold Store.doItemAlloc at run
  rcases alloc : memlogAllocRetry 3 s.log (allocTotal s.settings.useCas key.length flags nbytes) with
    ⟨l, _ | o⟩ <;> refine ⟨l, _, rfl, ?_⟩ <;> simp only [alloc] at run
  · cases run
    exact .full
  · cases marked : deletedBit flags with
    | true =>
      simp only [marked, if_true] at run
      cases run
      exact .tombstone marked
    | false =>
      simp only [marked, Bool.false_eq_true, if_false, Store.freelistAlloc] at run
      rcases free : s.freelist with _ | ⟨id, rest⟩
      · simp [free] at run
      · simp only [free, Except.ok.injEq, Prod.mk.injEq] at run
        obtain ⟨rfl, rfl, rfl⟩ := run
        refine .item marked free (Store.ext rfl ?_ ?_ rfl rfl rfl rfl rfl rfl rfl)
        · simp [Store.setMem, Store.updateMeta]
        · simp [Store.setMem, Store.updateMeta, Function.update_idem]

theorem StoreInv.doItemAlloc {it : Option ℕ} {succeed : Bool} (h : StoreInv s lay)
    (ok : AllocOk s key flags nbytes)
    (run : s.doItemAlloc key flags exptime nbytes = .ok (s', it, succeed)) :
    ∃ lay', StoreInv s' lay' ∧ s'.lookup = s.lookup ∧ SameRecords s'.log.mem s.log.mem lay ∧
      s'.log.memLimit = s.log.memLimit ∧
      Allocates s s' lay lay' key flags exptime nbytes it succeed := by
  have total := allocTotal_eq true ok.short ok.word ok.nonneg ok.bounded
  have room : casRoom (casFlag true) = 8 := by decide
  have suffix := length_suffixText_le ok.word ok.nonneg ok.bounded
  have bound := ok.size
  simp only [sizeofItemData, room] at total
  have fits : allocTotal true key.length flags nbytes + 35 ≤ s.log.memLimit := by omega
  have small := (intBits_of_nonneg ok.nonneg ok.bounded).2
  obtain ⟨l, got, alloc, ran⟩ := doItemAlloc_ran run
  rw [h.useCas] at alloc
  obtain ⟨lay', out, same, limit⟩ :=
    memlogAllocRetry_eq h.log ok.wrap h.limit fits (by omega) alloc
  cases ran with
  | full =>
    obtain ⟨inv, live⟩ := out
    obtain ⟨inv', lookup⟩ := h.relog inv limit (fun b hb _ => same b hb)
      (fun _ _ b hb _ => live ▸ hb) fun b hb => Or.inl (live ▸ hb)
    exact ⟨lay', inv', lookup, same, limit, .failed live rfl⟩
  | @tombstone o marked =>
    have cut : Reserved l lay lay' o _ := out
    have zero : flagsOf l.mem o = 0 := cut.zero _ (by omega) (by omega)
    have written := writeTombstone_written zero ok.short ok.word ok.nonneg ok.bounded
    rw [show exptimeOf l.mem o = 0 from
      u32_of_zero fun x hl hh => cut.zero x hl (by omega)] at written
    have whole := written.whole (by decide) (by decide) small ok.short suffix
      (by simp only [sizeofItemData]; omega)
    obtain ⟨inv', lookup, kept⟩ := h.reserve cut same limit bound
      (fun x hx => writeTombstone_outside zero ok.short (by omega)) whole
    exact ⟨lay', inv', lookup, kept, limit, .tombstone o marked cut.live rfl written⟩
  | @item _ o id rest plain free shape =>
    have cut : Reserved l lay lay' o _ := out
    have zero : flagsOf l.mem o = 0 := cut.zero _ (by omega) (by omega)
    have written : Written (writeItem true l.mem o key flags exptime nbytes) _ _ _ _ _ _ :=
      writeItem_written true zero ok.short ok.word ok.nonneg ok.bounded
    have whole := written.whole (by decide) (by decide) small ok.short suffix
      (by simp only [sizeofItemData]; omega)
    obtain ⟨inv₁, lookup₁, kept⟩ := h.reserve cut same limit bound
      (fun x hx => writeItem_outside true zero ok.short (by omega)) whole
    obtain ⟨inv', lookup⟩ := inv₁.freelistPop free
      ⟨o, (s.metas id).time, 1, 0, (s.metas id).linked, false⟩ rfl rfl
    rw [h.useCas] at shape
    subst shape
    exact ⟨lay', inv', lookup.trans lookup₁, kept, limit,
      .item id o rest plain cut.live free rfl written⟩

/-! ## Cleaning -/

theorem lruMaintainerFree_ran (run : s.lruMaintainerFree = .ok s') :
    (lruMaintainerGuard s.log = true ∧ ∃ n, s.memlogClean = .ok (s', n)) ∨ s = s' := by
  unfold Store.lruMaintainerFree at run
  split_ifs at run with guard
  · obtain ⟨⟨s₁, n⟩, clean, run⟩ := bind_ran.1 run
    obtain rfl := pure_ran.1 run
    exact .inl ⟨guard, n, clean⟩
  · exact .inr (pure_ran.1 run)

theorem SweepInv.memlogEvict {p : ℕ} (h : SweepInv s lay p) (run : s.memlogEvict = .ok s') :
    SweepInv s' lay p ∧ (∀ k ∈ s'.table, s.itemOf k ≠ s.log.memCurrentFreeing) ∧
      (s' = s ∨ ∃ id, s.itemOf id = s.log.memCurrentFreeing ∧ id ∈ s.table ∧
        s.doItemUnlink id = .ok s' ∧ Unlinks s s' id) := by
  have plain : ∀ k ∈ s.table, has (flagsOf s.log.mem (s.itemOf k)) itemCycle = false := by
    intro k hk
    obtain ⟨b, hb, off⟩ := h.live k hk
    exact off ▸ (h.log.sized hb).plain
  unfold Store.memlogEvict at run
  dsimp only at run
  split_ifs at run with skip
  · obtain rfl := pure_ran.1 run
    refine ⟨h, fun k hk eq => ?_, Or.inl rfl⟩
    have intact := h.intact k hk
    have deleted := intact.deleted
    have corrupted := intact.corrupted
    have cycle := plain k hk
    rw [eq] at deleted corrupted cycle
    simp [deleted, corrupted, cycle] at skip
  · have fresh (absent : ∀ id, s.assocFind (keyOf s.log.mem s.log.memCurrentFreeing) = some id →
        s.itemOf id ≠ s.log.memCurrentFreeing) :
        ∀ k ∈ s.table, s.itemOf k ≠ s.log.memCurrentFreeing := fun k hk eq =>
      absent k (h.assocFind_iff.2 ⟨hk, by rw [Store.keyAt, eq]⟩) eq
    rcases found : s.assocFind (keyOf s.log.mem s.log.memCurrentFreeing) with _ | id
    · rw [found] at run
      obtain rfl := pure_ran.1 run
      exact ⟨h, fresh (by simp [found]), Or.inl rfl⟩
    · simp only [found] at run
      split_ifs at run with here
      · obtain ⟨member, -⟩ := assocFind_linked found
        obtain ⟨inv, cut⟩ := h.doItemUnlink ((h.linked id).1 member) run
        refine ⟨inv, fun k hk eq => ?_, Or.inr ⟨id, here, member, run, cut⟩⟩
        obtain ⟨other, hk⟩ := (cut.mem_table h k).1 hk
        exact other (h.keys k hk id member (by rw [Store.keyAt, Store.keyAt, eq, here]))
      · obtain rfl := pure_ran.1 run
        refine ⟨h, fresh fun k hk => ?_, Or.inl rfl⟩
        rw [found] at hk
        exact Option.some.inj hk ▸ here

/-- The store after a step of the cleaner that freed `n` bytes and the records `gone`. -/
structure StoreSwept (s s' : Store) (lay lay' : Layout) (gone : List Block) (n : ℕ) : Prop where
  settings : s'.settings = s.settings
  clock : s'.clock = s.clock
  log : Swept s.log s'.log lay lay' gone n
  item : ∀ k, s'.itemOf k = s.itemOf k
  linked : ∀ k, (s'.metas k).linked = true ↔
    (s.metas k).linked = true ∧ ∀ b ∈ gone, b.off ≠ s.itemOf k

theorem StoreSwept.refl (s : Store) (lay : Layout) : StoreSwept s s lay lay [] 0 :=
  ⟨rfl, rfl, .refl _ _, fun _ => rfl, by simp⟩

theorem StoreSwept.trans {s'' : Store} {lay'' : Layout} {gone gone' : List Block} {n k : ℕ}
    (h : StoreSwept s s' lay lay' gone n) (h' : StoreSwept s' s'' lay' lay'' gone' k) :
    StoreSwept s s'' lay lay'' (gone ++ gone') (n + k) := by
  refine ⟨h'.settings.trans h.settings, h'.clock.trans h.clock, h.log.trans h'.log,
    fun k => (h'.item k).trans (h.item k), fun k => ?_⟩
  rw [h'.linked, h.linked, h.item, and_assoc, List.forall_mem_append]

theorem SweepInv.memlogFreeItem {p n : ℕ} (h : SweepInv s lay p) (short : Short s.log)
    (more : p < s.log.memLimit / 8) (before : s.log.memCurrentFreeing < s.log.memLimit)
    (run : s.memlogFreeItem = .ok (s', n)) :
    ∃ lay' gone, SweepInv s' lay' (p + n) ∧ StoreSwept s s' lay lay' gone n ∧ 0 < n ∧
      ∀ b ∈ gone, b.off = s.log.memCurrentFreeing := by
  obtain ⟨s₁, evict, run⟩ := bind_ran.1 run
  obtain ⟨rfl, rfl⟩ := pair_ran.1 run
  obtain ⟨inv₁, clear, cases⟩ := h.memlogEvict evict
  have frame : s₁.settings = s.settings ∧ s₁.clock = s.clock ∧ s₁.log = s.log ∧
      (∀ k, s₁.itemOf k = s.itemOf k) ∧ ∀ k, (s₁.metas k).linked = true ↔
        (s.metas k).linked = true ∧ s.itemOf k ≠ s.log.memCurrentFreeing := by
    rcases cases with rfl | ⟨id, here, member, -, cut⟩
    · refine ⟨rfl, rfl, rfl, fun _ => rfl, fun k => ⟨fun hk => ⟨hk, ?_⟩, And.left⟩⟩
      exact clear k ((h.linked k).2 hk)
    · refine ⟨cut.settings, cut.clock, cut.log, cut.item, fun k => ?_⟩
      rw [← inv₁.linked, ← h.linked]
      refine ⟨fun hk => ⟨((cut.mem_table h k).1 hk).2, clear k hk⟩, fun ⟨hk, away⟩ => ?_⟩
      exact (cut.mem_table h k).2 ⟨fun eq => away (eq ▸ here), hk⟩
  obtain ⟨settings, clock, log, item, linked⟩ := frame
  rw [log]
  obtain ⟨lay', gone, inv, swept, positive, what⟩ :=
    h.log.freeItem short more before h.limit h.bounded
  have heads : ∀ b ∈ gone, b.off = s.log.memCurrentFreeing := by
    intro b hb
    rcases what with rfl | ⟨rfl, -⟩
    · rw [List.mem_singleton.1 hb]
    · simp at hb
  obtain ⟨inv', -⟩ := inv₁.relog (l := s.log.freeItem.1) inv
    (swept.cursors.limit.trans (by rw [log])) (fun b _ hb => by rw [log]; exact swept.same b hb)
    (fun k hk b hb off => by
      rw [swept.live] at hb
      rcases List.mem_append.1 hb with hb | hb
      · exact absurd ((item k).symm.trans (off.symm.trans (heads b hb))) (clear k hk)
      · exact hb)
    fun b hb => Or.inl (by rw [swept.live]; exact List.mem_append_right _ hb)
  refine ⟨lay', gone, inv', ⟨settings, clock, swept, item, fun k => ?_⟩, positive, heads⟩
  rw [show (({ s₁ with log := s.log.freeItem.1 } : Store).metas k).linked = (s₁.metas k).linked
    from rfl, linked]
  refine and_congr_right fun hk => ?_
  rcases what with rfl | ⟨rfl, cycle⟩
  · simp [eq_comm]
  · refine ⟨fun _ => by simp, fun _ eq => ?_⟩
    obtain ⟨b, hb, off⟩ := h.live k ((h.linked k).2 hk)
    have plain := (h.log.sized hb).plain
    rw [off, eq, cycle.flags] at plain
    exact absurd plain (by decide)

/-- `memlog_free_chunk` keeps the invariant; it frees records that begin within an eighth of the
log from where it started. -/
theorem SweepInv.memlogFreeChunk {p q fuel : ℕ} (h : SweepInv s lay p) (short : Short s.log)
    (run : s.memlogFreeChunk fuel p = .ok (s', q)) :
    ∃ lay' gone n, q = p + n ∧ SweepInv s' lay' q ∧ StoreSwept s s' lay lay' gone n ∧
      ∀ b ∈ gone, b.off + p < s.log.memCurrentFreeing + s.log.memLimit / 8 := by
  induction fuel generalizing s lay p with
  | zero => simp [Store.memlogFreeChunk] at run
  | succ fuel ih =>
    have limit := h.limit
    have toFree := h.toFree
    have here := h.log.swept_le.2
    rw [Store.memlogFreeChunk, toFree, Nat.mod_eq_of_lt (by omega)] at run
    have stay (eq : (pure (s, p) : Except Abort (Store × ℕ)) = .ok (s', q)) :
        ∃ lay' gone n, q = p + n ∧ SweepInv s' lay' q ∧ StoreSwept s s' lay lay' gone n ∧
          ∀ b ∈ gone, b.off + p < s.log.memCurrentFreeing + s.log.memLimit / 8 := by
      obtain ⟨rfl, rfl⟩ := pair_ran.1 eq
      exact ⟨lay, [], 0, rfl, h, .refl s lay, by simp⟩
    split_ifs at run with more stop
    · exact stay run
    · obtain ⟨⟨s₁, n⟩, first, rest⟩ := bind_ran.1 run
      obtain ⟨lay₁, gone₁, inv₁, swept₁, -, heads⟩ := h.memlogFreeItem short more (by omega) first
      have cursors := swept₁.log.cursors
      have small : (p + n) % 2 ^ 32 = p + n := by
        have := inv₁.log.swept_le.1
        rw [cursors.limit] at this
        exact Nat.mod_eq_of_lt (by omega)
      simp only [small] at rest
      obtain ⟨lay', gone, k, total, inv', swept, near⟩ := ih inv₁ (short.congr cursors) rest
      refine ⟨lay', gone₁ ++ gone, n + k, by omega, inv', swept₁.trans swept, fun b hb => ?_⟩
      rcases List.mem_append.1 hb with hb | hb
      · have := heads b hb
        omega
      · have bound := near b hb
        have freeing := swept₁.log.freeing
        rw [cursors.limit] at bound
        omega
    · exact stay run

/-- What every turn of `memlog_free_chunk` does to the store, its loop does. -/
theorem SweepInv.freeChunk_rule {R : Store → Store → Prop} {p q fuel : ℕ} (h : SweepInv s lay p)
    (short : Short s.log) (refl : ∀ s, R s s) (trans : ∀ {a b c}, R a b → R b c → R a c)
    (turn : ∀ {s s₁ lay p n}, SweepInv s lay p → s₁.log.memLimit = s.log.memLimit →
      s.memlogFreeItem = .ok (s₁, n) → R s s₁)
    (run : s.memlogFreeChunk fuel p = .ok (s', q)) : R s s' := by
  induction fuel generalizing s lay p with
  | zero => simp [Store.memlogFreeChunk] at run
  | succ fuel ih =>
    have limit := h.limit
    have toFree := h.toFree
    have here := h.log.swept_le.2
    rw [Store.memlogFreeChunk, toFree, Nat.mod_eq_of_lt (by omega)] at run
    split_ifs at run with more stop
    · obtain ⟨rfl, -⟩ := pair_ran.1 run
      exact refl s
    · obtain ⟨⟨s₁, n⟩, first, rest⟩ := bind_ran.1 run
      obtain ⟨lay₁, gone, inv₁, swept, -, -⟩ := h.memlogFreeItem short more (by omega) first
      have cursors := swept.log.cursors
      have small : (p + n) % 2 ^ 32 = p + n := by
        have := inv₁.log.swept_le.1
        rw [cursors.limit] at this
        exact Nat.mod_eq_of_lt (by omega)
      simp only [small] at rest
      exact trans (turn h cursors.limit first) (ih inv₁ (short.congr cursors) rest)
    · obtain ⟨rfl, -⟩ := pair_ran.1 run
      exact refl s

/-- What one call of the cleaner does: the oldest records `gone` leave the log, and with them their
items the table. -/
structure Cleans (s s' : Store) (lay lay' : Layout) (gone : List Block) : Prop where
  settings : s'.settings = s.settings
  clock : s'.clock = s.clock
  limit : s'.log.memLimit = s.log.memLimit
  live : lay.live = gone ++ lay'.live
  same : SameRecords s'.log.mem s.log.mem lay'
  item : ∀ k, s'.itemOf k = s.itemOf k
  linked : ∀ k, (s'.metas k).linked = true ↔
    (s.metas k).linked = true ∧ ∀ b ∈ gone, b.off ≠ s.itemOf k
  near : ∀ b ∈ gone, s.log.memCurrentFreeing ≤ b.off ∧
    b.off < s.log.memCurrentFreeing + s.log.memLimit / 8

theorem StoreInv.memlogClean {n : ℕ} (h : StoreInv s lay) (guard : lruMaintainerGuard s.log = true)
    (run : s.memlogClean = .ok (s', n)) :
    ∃ lay' gone, StoreInv s' lay' ∧ Cleans s s' lay lay' gone := by
  obtain ⟨⟨s₁, q⟩, chunk, run⟩ := bind_ran.1 run
  obtain ⟨rfl, rfl⟩ := pair_ran.1 run
  obtain ⟨lay₁, gone, k, rfl, inv₁, swept, near⟩ :=
    h.memlogFreeChunk (h.log.short h.limit guard) chunk
  obtain ⟨lay', inv', live, mem, limit⟩ := inv₁.log.settle
  obtain ⟨inv'', -⟩ := inv₁.relog inv' limit (fun b _ _ => by rw [mem]; exact Agree.refl _ _ _)
    (fun _ _ b hb _ => live ▸ hb) fun b hb => Or.inl (live ▸ hb)
  refine ⟨lay', gone, inv'', swept.settings, swept.clock, limit.trans swept.log.cursors.limit,
    by rw [live]; exact swept.log.live, ?_, swept.item, swept.linked,
    fun b hb => ⟨(swept.log.passed b hb).1, near b hb⟩⟩
  intro b hb
  rw [mem]
  exact swept.log.same b (live ▸ hb)

theorem Cleans.journal {gone : List Block} (c : Cleans s s' lay lay' gone) (h : StoreInv s lay) :
    s.journal lay = gone.map (recOf s.log.mem) ++ s'.journal lay' := by
  rw [Store.journal, Store.journal, c.live, List.map_append]
  refine congrArg _ (List.map_congr_left fun b hb => ?_)
  have member : b ∈ lay.live := by rw [c.live]; exact List.mem_append_right _ hb
  exact ((h.wholeRec member).recOf_congr (c.same b hb)).symm

theorem Cleans.lookup {gone : List Block} (c : Cleans s s' lay lay' gone) (h : StoreInv s lay)
    (h' : StoreInv s' lay') (key : Key) :
    s'.lookup key = (s.lookup key).filter fun o => ∀ b ∈ gone, b.off ≠ o := by
  have keyAt : ∀ k ∈ s'.table, s'.keyAt k = s.keyAt k := by
    intro k hk
    obtain ⟨b, hb, off⟩ := h'.live k hk
    have member : b ∈ lay.live := by rw [c.live]; exact List.mem_append_right _ hb
    have eq := congrArg Rec.key ((h.wholeRec member).recOf_congr (c.same b hb))
    simp only [recOf, off, c.item] at eq
    rw [Store.keyAt, Store.keyAt, c.item]
    exact eq
  have table (k : ℕ) : k ∈ s'.table ↔ k ∈ s.table ∧ ∀ b ∈ gone, b.off ≠ s.itemOf k := by
    rw [h'.linked, c.linked, h.linked]
  rcases found : s.assocFind key with _ | k
  · have missing : s'.assocFind key = none := by
      rw [h'.assocFind_none]
      intro k hk
      rw [keyAt k hk]
      exact h.assocFind_none.1 found k ((table k).1 hk).1
    simp [Store.lookup, found, missing]
  · obtain ⟨hk, eq⟩ := assocFind_linked found
    by_cases kept : ∀ b ∈ gone, b.off ≠ s.itemOf k
    · have member := (table k).2 ⟨hk, kept⟩
      have found' : s'.assocFind key = some k := h'.assocFind_iff.2 ⟨member, (keyAt k member).trans eq⟩
      simp only [Store.lookup, found, found', Option.map_some, c.item]
      rw [Option.filter_some, if_pos (by simpa using kept)]
    · have missing : s'.assocFind key = none := by
        rw [h'.assocFind_none]
        intro i hi same
        obtain ⟨old, away⟩ := (table i).1 hi
        rw [keyAt i hi] at same
        exact kept (h.keys i old k hk (same.trans eq.symm) ▸ away)
      simp only [Store.lookup, found, missing, Option.map_some, Option.map_none]
      rw [Option.filter_some, if_neg (by simpa using kept)]

end LogMemcached

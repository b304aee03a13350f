import LogMemcached.ReplicaSteps
import LogMemcached.Lib.Run

/-!
# Replaying a log once

The rounds of a fresh replica over one lap of the master's log.  Whatever the windows are in which
the log is read, and however far its records are complete in each round, the rounds do to the
replica what one pass over the records does.  The pass needs metadata: a store takes one and gives
none back, not even when it replaces an item, since the reference that comes with the metadata is
kept.
-/

namespace LogMemcached

open ByteMem Fallible Tiling Transition

/-! ## The log and the pass over it -/

/-- Where the `i`th record of a log begins. -/
def boundary (m : Mem) : ℕ → ℕ
  | 0 => 0
  | i + 1 => boundary m i + replicationNtotal m (boundary m i)

/-- The first `count` records of a log of `limit` bytes are complete and well formed. -/
structure LogPrefix (m : Mem) (count limit : ℕ) : Prop where
  word : limit < 2 ^ 32
  complete : ∀ i < count, Store.completeAt m (boundary m i) = true
  plain : ∀ i < count, has (flagsOf m (boundary m i)) itemCycle = false
  small : ∀ i < count, nbytesOf m (boundary m i) < 2 ^ 31
  inside : boundary m count ≤ limit

/-- One pass over the first `k` records of the log `m`. -/
def Store.onePass (s : Store) (m : Mem) : ℕ → Except Abort Store
  | 0 => pure (s.setMem m)
  | k + 1 => do
      let s ← s.onePass m k
      let s ← s.replayRecord (boundary m k)
      pure (s.replayAdvance (replicationNtotal m (boundary m k)))

instance : LawfulBEq Key := inferInstance

/-- The live keys and the number of free metadata after one more record: a tombstone gives back the
metadata of the item it finds, a store takes new ones. -/
def ledgerStep (m : Mem) (o : ℕ) (account : List Key × ℕ) : Option (List Key × ℕ) :=
  if has (flagsOf m o) itemCorrupted then some account
  else if has (flagsOf m o) itemDeleted then
    if keyOf m o ∈ account.1 then some (account.1.erase (keyOf m o), account.2 + 1)
    else some account
  else if account.2 = 0 then none
  else some (keyOf m o :: account.1.erase (keyOf m o), account.2 - 1)

/-- The account of the first `k` records, if `free` metadata suffice for them. -/
def ledger (m : Mem) (free : ℕ) : ℕ → Option (List Key × ℕ)
  | 0 => some ([], free)
  | k + 1 => (ledger m free k).bind (ledgerStep m (boundary m k))

/-- The metadata suffice for all records that a window can reach. -/
def Affords (m : Mem) (count limit free : ℕ) : Prop :=
  ∀ k < count, boundary m k + minReplicationSize ≤ limit → (ledger m free (k + 1)).isSome = true

section Log

variable {m m' : Mem} {count limit free i j k : ℕ}

theorem ledger_isSome_of_le (le : j ≤ k) (some : (ledger m free k).isSome = true) :
    (ledger m free j).isSome = true := by
  induction k with
  | zero =>
    obtain rfl : j = 0 := Nat.le_zero.1 le
    exact some
  | succ k ih =>
    by_cases eq : j = k + 1
    · rw [eq]
      exact some
    · apply ih (by omega)
      rw [ledger] at some
      exact Option.isSome_of_isSome_bind some

theorem ledgerStep_congr {b : Block} (whole : Whole m b) (same : Agree m' m b.off b.stop)
    (account : List Key × ℕ) : ledgerStep m' b.off account = ledgerStep m b.off account := by
  have key : keyOf m' b.off = keyOf m b.off := congrArg Rec.key (whole.recOf_congr same)
  rw [ledgerStep, ledgerStep, flagsOf_congr (whole.agree_header same), key]

theorem LogPrefix.whole (h : LogPrefix m count limit) (lt : i < count) :
    Whole m ⟨boundary m i, replicationNtotal m (boundary m i)⟩ := by
  have small := h.small i lt
  have nkey : nkeyOf m (boundary m i) < 256 := UInt8.toNat_lt _
  have nsuffix : nsuffixOf m (boundary m i) < 256 := UInt8.toNat_lt _
  have room := ntotalCasRoom_le (flagsOf m (boundary m i))
  have least := replicationNtotal_ge small
  refine ⟨⟨show 16 ≤ replicationNtotal m (boundary m i) by omega, ?_, h.plain i lt⟩, small⟩
  have total : itemNtotal m (boundary m i) < 2 ^ 32 := by
    rw [itemNtotal, intToSize, if_pos small, sizeofItemData]
    omega
  exact (Nat.mod_eq_of_lt total).symm

theorem boundary_le (le : i ≤ j) : boundary m i ≤ boundary m j := by
  induction j with
  | zero =>
    obtain rfl : i = 0 := Nat.le_zero.1 le
    exact le_rfl
  | succ j ih =>
    by_cases eq : i = j + 1
    · rw [eq]
    · exact (ih (by omega)).trans (Nat.le_add_right ..)

theorem LogPrefix.boundary_lt (h : LogPrefix m count limit) (lt : i < j) (le : j ≤ count) :
    boundary m i < boundary m j := by
  have least := replicationNtotal_ge (h.small i (by omega))
  have next : boundary m (i + 1) ≤ boundary m j := boundary_le lt
  rw [boundary] at next
  omega

end Log

/-! ## What a record does to the replica -/

/-- A replica that has replayed the log up to `top`: the items of `live` with two references each,
and `free` metadata left. -/
structure Stocked (s : Store) (top : ℕ) (live : List Key) (free : ℕ) : Prop where
  fed : Fed s free
  two : ∀ id ∈ s.table, (s.metas id).refcount = 2
  length : s.freelist.length = free
  inside : ∀ id ∈ s.table, ∃ size, Whole s.log.mem ⟨s.itemOf id, size⟩ ∧ s.itemOf id + size ≤ top
  keys : s.table.map s.keyAt = live

section Records

variable {s s' : Store} {m' : Mem} {id o size top free : ℕ} {live : List Key} {rest : List ℕ}
  {key : Key}

theorem Stocked.same_record (h : Stocked s top live free) (same : Agree m' s.log.mem 0 top)
    (member : id ∈ s.table) :
    keyOf m' (s.itemOf id) = s.keyAt id ∧ measureOf m' (s.itemOf id) = s.measure id := by
  obtain ⟨size, whole, stop⟩ := h.inside id member
  have block : Agree m' s.log.mem (s.itemOf id) (s.itemOf id + size) :=
    same.mono (Nat.zero_le _) stop
  exact ⟨congrArg Rec.key (whole.recOf_congr block), whole.measureOf_congr block⟩

theorem Stocked.assocFind_setMem (h : Stocked s top live free) (same : Agree m' s.log.mem 0 top)
    (key : Key) : (s.setMem m').assocFind key = s.assocFind key := by
  refine List.find?_congr fun id member => ?_
  rw [← (h.same_record same member).1]
  rfl

theorem Stocked.setMem (h : Stocked s top live free) (same : Agree m' s.log.mem 0 top) :
    Stocked (s.setMem m') top live free where
  fed := { h.fed with }
  two := h.two
  length := h.length
  inside id member := by
    obtain ⟨size, whole, stop⟩ := h.inside id member
    exact ⟨size, whole.congr (same.mono (Nat.zero_le _) stop), stop⟩
  keys := by
    rw [← h.keys]
    exact List.map_congr_left fun id member => (h.same_record same member).1

theorem Stocked.found_iff (h : Stocked s top live free) (key : Key) :
    (s.assocFind key).isSome = true ↔ key ∈ live := by
  rw [Store.assocFind, List.find?_isSome, ← h.keys, List.mem_map]
  simp only [beq_iff_eq]

theorem Stocked.erase_keys (h : Stocked s top live free) (found : s.assocFind key = some id) :
    (s.table.erase id).map s.keyAt = live.erase key := by
  rw [← Chains.eraseP_of_find? found, ← h.keys, List.erase_eq_eraseP, List.eraseP_map]
  congr 2
  funext k
  exact BEq.comm

theorem itemOf_unlinked (s : Store) (id k : ℕ) : (s.unlinked id).itemOf k = s.itemOf k := by
  by_cases eq : k = id
  · rw [Store.itemOf, eq, metas_unlinked_self]
    rfl
  · rw [Store.itemOf, metas_unlinked_other eq]
    rfl

theorem Stocked.unlink (h : Stocked s top live free) (found : s.assocFind key = some id) :
    Stocked (s.unlinked id) top (live.erase key) free := by
  obtain ⟨-, fed⟩ := h.fed.unlink found
  have gone {k : ℕ} (hk : k ∈ s.table.erase id) : k ≠ id ∧ k ∈ s.table :=
    (h.fed.nodup.mem_erase_iff).1 hk
  refine ⟨fed, fun k hk => ?_, h.length, fun k hk => ?_, ?_⟩
  · rw [metas_unlinked_other (gone hk).1]
    exact h.two k (gone hk).2
  · rw [itemOf_unlinked]
    exact h.inside k (gone hk).2
  · refine Eq.trans ?_ (h.erase_keys found)
    refine List.map_congr_left fun k _ => ?_
    rw [Store.keyAt, itemOf_unlinked]
    rfl

theorem unlinked_setMem (same : measureOf m' (s.itemOf id) = s.measure id) :
    (s.setMem m').unlinked id = (s.unlinked id).setMem m' := by
  have measure : (s.setMem m').measure id = s.measure id := same
  rw [Store.unlinked, measure]
  rfl

theorem Stocked.replayDelete (h : Stocked s top live free) (key : Key) :
    ∃ s', s'.log = s.log ∧
      Stocked s' top (live.erase key) (if key ∈ live then free + 1 else free) ∧
      ∀ m', Agree m' s.log.mem 0 top → (s.setMem m').replayDelete key = .ok (s'.setMem m') := by
  cases found : s.assocFind key with
  | none =>
    have absent : key ∉ live := fun mem => by
      have := (h.found_iff key).2 mem
      rw [found] at this
      cases this
    rw [if_neg absent, List.erase_of_not_mem absent]
    refine ⟨s, rfl, h, fun m' same => ?_⟩
    rw [Store.replayDelete, h.assocFind_setMem same, found]
    rfl
  | some id =>
    have member : id ∈ s.table := List.mem_of_find?_eq_some found
    have present : key ∈ live := (h.found_iff key).1 (by rw [found]; rfl)
    have two := h.two id member
    have unlink := h.unlink found
    obtain ⟨-, fed⟩ := h.fed.replayDelete_two found two
    have out {k : ℕ} (hk : k ∈ s.table.erase id) : k ≠ id := ((h.fed.nodup.mem_erase_iff).1 hk).1
    rw [if_pos present]
    refine ⟨(s.unlinked id).released id, rfl, ⟨fed, fun k hk => ?_, ?_, fun k hk => ?_, ?_⟩,
      fun m' same => ?_⟩
    · rw [metas_released_other (out hk)]
      exact unlink.two k hk
    · exact congrArg (· + 1) h.length
    · rw [Store.itemOf, metas_released_other (out hk)]
      exact unlink.inside k hk
    · rw [← unlink.keys]
      refine List.map_congr_left fun k hk => ?_
      rw [Store.keyAt, Store.itemOf, metas_released_other (out hk)]
      rfl
    · have again := (h.setMem same).fed.replayDelete_two
        ((h.assocFind_setMem same key).trans found) two
      rw [again.1, unlinked_setMem (h.same_record same member).2]
      rfl

theorem Stocked.pop (h : Stocked s top live (free + 1)) (freelist : s.freelist = id :: rest)
    (o : ℕ) : Stocked (s.pop id rest o) top live free := by
  obtain ⟨fed, out, -⟩ := h.fed.pop freelist o
  have ne {k : ℕ} (hk : k ∈ s.table) : k ≠ id := fun eq => out (eq ▸ hk)
  have item {k : ℕ} (hk : k ∈ s.table) : (s.pop id rest o).itemOf k = s.itemOf k := by
    rw [Store.itemOf, metas_pop_other (ne hk)]
    rfl
  refine ⟨fed, fun k hk => ?_, ?_, fun k hk => ?_, ?_⟩
  · rw [metas_pop_other (ne hk)]
    exact h.two k hk
  · have length := h.length
    rw [freelist, List.length_cons] at length
    exact Nat.succ.inj length
  · rw [item hk]
    exact h.inside k hk
  · rw [← h.keys]
    refine List.map_congr_left fun k hk => ?_
    rw [Store.keyAt, item hk]
    rfl

theorem itemOf_linkedIn (s : Store) (id k : ℕ) : (s.linkedIn id).itemOf k = s.itemOf k := by
  by_cases eq : k = id
  · rw [Store.itemOf, eq, metas_linkedIn_self]
    rfl
  · rw [Store.itemOf, metas_linkedIn_other eq]
    rfl

theorem agree_itemSetCas {m : Mem} {v lo hi : ℕ} (flags : flagsOf m' o = flagsOf m o)
    (same : Agree m' m lo hi) : Agree (itemSetCas m' o v) (itemSetCas m o v) lo hi := by
  intro x low high
  unfold itemSetCas
  rw [flags]
  split_ifs
  · simp only [write, same x low high]
  · exact same x low high

theorem Stocked.link (h : Stocked s top live free) (item : s.itemOf id = o)
    (whole : Whole s.log.mem ⟨o, size⟩) (above : top ≤ o) (out : id ∉ s.table)
    (notFree : id ∉ s.freelist) (unlinked : (s.metas id).linked = false)
    (slabbed : (s.metas id).slabbed = false) (one : (s.metas id).refcount = 1) :
    Stocked (s.linkedIn id) (o + size) (keyOf s.log.mem o :: live) free := by
  have mem : (s.linkedIn id).log.mem = itemSetCas s.log.mem o s.nextCas := by
    rw [← item]
    rfl
  have below : Agree (s.linkedIn id).log.mem s.log.mem 0 top := fun x _ hx => by
    rw [mem]
    exact itemSetCas_outside (by omega)
  have ne {k : ℕ} (hk : k ∈ s.table) : k ≠ id := fun eq => out (eq ▸ hk)
  have old := h.setMem below
  refine ⟨(h.fed.link out notFree unlinked slabbed one).2, fun k hk => ?_, h.length,
    fun k hk => ?_, ?_⟩
  · rcases List.mem_cons.1 hk with rfl | hk
    · rw [metas_linkedIn_self]
      dsimp only
      omega
    · rw [metas_linkedIn_other (ne hk)]
      exact h.two k hk
  · rw [itemOf_linkedIn]
    rcases List.mem_cons.1 hk with rfl | hk
    · rw [item, mem]
      exact ⟨size, whole.setCas _, le_rfl⟩
    · obtain ⟨size', whole', stop⟩ := old.inside k hk
      exact ⟨size', whole', stop.trans (above.trans (Nat.le_add_right ..))⟩
  · have self : (s.linkedIn id).keyAt id = keyOf s.log.mem o := by
      rw [Store.keyAt, itemOf_linkedIn, item, mem]
      exact congrArg Rec.key (recOf_itemSetCas (b := ⟨o, size⟩) s.nextCas)
    change (s.linkedIn id).keyAt id :: s.table.map (s.linkedIn id).keyAt = _
    rw [self, ← old.keys]
    congr 1
    refine List.map_congr_left fun k _ => ?_
    rw [Store.keyAt, itemOf_linkedIn]
    rfl

theorem linkedIn_setMem (item : s.itemOf id = o) (whole : Whole s.log.mem ⟨o, size⟩)
    (same : Agree m' s.log.mem o (o + size)) :
    (s.setMem m').linkedIn id = (s.linkedIn id).setMem (itemSetCas m' o s.nextCas) := by
  subst item
  have flags : flagsOf m' (s.itemOf id) = flagsOf s.log.mem (s.itemOf id) :=
    flagsOf_congr (whole.agree_header same)
  have measure : measureOf (itemSetCas m' (s.itemOf id) s.nextCas) (s.itemOf id) =
      measureOf (itemSetCas s.log.mem (s.itemOf id) s.nextCas) (s.itemOf id) :=
    (whole.setCas s.nextCas).measureOf_congr (agree_itemSetCas flags same)
  have casId : (if has (flagsOf m' (s.itemOf id)) itemCas && s.settings.useCas then s.nextCas
      else s.casId) = (s.linkedIn id).casId := by
    rw [flags]
    rfl
  have stats : s.stats.link (measureOf (itemSetCas m' (s.itemOf id) s.nextCas) (s.itemOf id)) =
      (s.linkedIn id).stats := by
    rw [measure]
    rfl
  exact Store.ext rfl rfl rfl rfl rfl casId rfl rfl rfl stats

theorem Stocked.replayStore (h : Stocked s top live (free + 1)) (whole : Whole s.log.mem ⟨o, size⟩)
    (above : top ≤ o) :
    ∃ s', s'.log = (s.setMem (itemSetCas s.log.mem o s.nextCas)).log ∧
      Stocked s' (o + size) (keyOf s.log.mem o :: live.erase (keyOf s.log.mem o)) free ∧
      ∀ m', Agree m' s.log.mem 0 (o + size) →
        (s.setMem m').replayStore o = .ok (s'.setMem (itemSetCas m' o s.nextCas)) := by
  rcases freelist : s.freelist with _ | ⟨id, rest⟩
  · have length := h.length
    rw [freelist] at length
    cases length
  obtain ⟨-, out, notRest⟩ := h.fed.pop freelist o
  have unlinked : (s.metas id).linked = false :=
    h.fed.unlinked id (by rw [freelist]; exact List.mem_cons_self)
  have popped := h.pop freelist o
  have self := metas_pop_self s id rest o
  have item : (s.pop id rest o).itemOf id = o := by rw [Store.itemOf, self]
  obtain ⟨-, -, log⟩ := h.fed.replayStore freelist o
  refine ⟨s.replayed id rest o, log, ?_, fun m' same => ?_⟩
  · rw [Store.replayed]
    cases found : (s.pop id rest o).assocFind (keyOf s.log.mem o) with
    | none =>
      have absent : keyOf s.log.mem o ∉ live := fun mem => by
        have := (popped.found_iff _).2 mem
        rw [found] at this
        cases this
      rw [List.erase_of_not_mem absent]
      exact popped.link item whole above out notRest (by rw [self]; exact unlinked) (by rw [self])
        (by rw [self])
    | some oldId =>
      have ne : id ≠ oldId := fun eq => out (eq ▸ List.mem_of_find?_eq_some found)
      have self₂ := (metas_unlinked_other ne).trans self
      exact (popped.unlink found).link ((itemOf_unlinked _ _ _).trans item) whole above
        (fun hid => out (List.mem_of_mem_erase hid)) notRest (by rw [self₂]; exact unlinked)
        (by rw [self₂]) (by rw [self₂])
  · have below : Agree m' s.log.mem 0 top := same.mono le_rfl (by omega)
    have block : Agree m' s.log.mem o (o + size) := same.mono (Nat.zero_le _) le_rfl
    have key : keyOf m' o = keyOf s.log.mem o := congrArg Rec.key (whole.recOf_congr block)
    have find := popped.assocFind_setMem below (keyOf s.log.mem o)
    have run := ((h.setMem below).fed.replayStore freelist o).1
    rw [run, Store.replayed, Store.replayed]
    have pop : (s.setMem m').pop id rest o = (s.pop id rest o).setMem m' := rfl
    have mem : (s.setMem m').log.mem = m' := rfl
    rw [pop, mem, key, find]
    cases found : (s.pop id rest o).assocFind (keyOf s.log.mem o) with
    | none =>
      dsimp only
      rw [linkedIn_setMem item whole block]
      rfl
    | some oldId =>
      have member := List.mem_of_find?_eq_some found
      dsimp only
      rw [unlinked_setMem (popped.same_record below member).2,
        linkedIn_setMem ((itemOf_unlinked _ _ _).trans item) whole block]
      rfl

/-- A completed record, on any memory that agrees with that of the replica: without metadata for it
the server aborts. -/
theorem Stocked.replayRecord (h : Stocked s top live free) (whole : Whole s.log.mem ⟨o, size⟩)
    (above : top ≤ o) :
    (ledgerStep s.log.mem o (live, free) = none ∧
      ∀ m', Agree m' s.log.mem 0 (o + size) →
        (s.setMem m').replayRecord o = .error .outOfMetadata) ∨
    ∃ s' account, ledgerStep s.log.mem o (live, free) = some account ∧
      Stocked s' (o + size) account.1 account.2 ∧ s'.log.memCurrent = s.log.memCurrent ∧
      (∀ x, o + size ≤ x → s'.log.mem x = s.log.mem x) ∧
      ∀ m', Agree m' s.log.mem 0 (o + size) → ∃ m'', Agree m'' s'.log.mem 0 (o + size) ∧
        (∀ x, o + size ≤ x → m'' x = m' x) ∧
        (s.setMem m').replayRecord o = .ok (s'.setMem m'') := by
  have flags {m' : Mem} (same : Agree m' s.log.mem 0 (o + size)) :
      flagsOf m' o = flagsOf s.log.mem o :=
    flagsOf_congr (whole.agree_header (same.mono (Nat.zero_le _) le_rfl))
  have mono {t : Store} {live : List Key} {free : ℕ} (stocked : Stocked t top live free) :
      Stocked t (o + size) live free :=
    { stocked with
      inside := fun id member => by
        obtain ⟨size', whole', stop⟩ := stocked.inside id member
        exact ⟨size', whole', by omega⟩ }
  by_cases corrupted : has (flagsOf s.log.mem o) itemCorrupted = true
  · refine .inr ⟨s, (live, free), if_pos corrupted, mono h, rfl, fun _ _ => rfl, fun m' same =>
      ⟨m', same, fun _ _ => rfl, ?_⟩⟩
    exact if_pos ((congrArg (has · itemCorrupted) (flags same)).trans corrupted)
  have plain {m' : Mem} (same : Agree m' s.log.mem 0 (o + size)) :
      ¬has (flagsOf m' o) itemCorrupted = true := by rwa [flags same]
  by_cases deleted : has (flagsOf s.log.mem o) itemDeleted = true
  · obtain ⟨s', log, stocked, run⟩ := h.replayDelete (keyOf s.log.mem o)
    refine .inr ⟨s', (live.erase (keyOf s.log.mem o),
      if keyOf s.log.mem o ∈ live then free + 1 else free), ?_, mono stocked, by rw [log],
      fun x _ => by rw [log], fun m' same => ⟨m', by rw [log]; exact same, fun _ _ => rfl, ?_⟩⟩
    · rw [ledgerStep, if_neg corrupted, if_pos deleted]
      dsimp only
      by_cases present : keyOf s.log.mem o ∈ live
      · rw [if_pos present, if_pos present]
      · rw [if_neg present, if_neg present, List.erase_of_not_mem present]
    · have key : keyOf m' o = keyOf s.log.mem o :=
        congrArg Rec.key (whole.recOf_congr (same.mono (Nat.zero_le _) le_rfl))
      refine ((if_neg (plain same)).trans (if_pos ?_)).trans ?_
      · exact (congrArg (has · itemDeleted) (flags same)).trans deleted
      · rw [← run m' (same.mono le_rfl (by omega)), ← key]
        rfl
  have store {m' : Mem} (same : Agree m' s.log.mem 0 (o + size)) :
      (s.setMem m').replayRecord o = (s.setMem m').replayStore o := by
    refine (if_neg (plain same)).trans (if_neg ?_)
    change ¬has (flagsOf m' o) itemDeleted = true
    rwa [flags same]
  rcases free with _ | free
  · refine .inl ⟨?_, fun m' same => ?_⟩
    · rw [ledgerStep, if_neg corrupted, if_neg deleted, if_pos rfl]
    · have none : (s.setMem m').freelistAlloc = none := by
        have empty : (s.setMem m').freelist = [] := List.eq_nil_of_length_eq_zero h.length
        rw [Store.freelistAlloc, empty]
      rw [store same, Store.replayStore, none]
  · obtain ⟨s', log, stocked, run⟩ := h.replayStore whole above
    refine .inr ⟨s', (_, _), ?_, stocked, by rw [log]; rfl, fun x hx => ?_, fun m' same => ?_⟩
    · rw [ledgerStep, if_neg corrupted, if_neg deleted, if_neg (Nat.succ_ne_zero free)]
      rfl
    · rw [log]
      exact whole.setCas_outside (b := ⟨o, size⟩) _ (.inr hx)
    · have whole' : Whole m' ⟨o, size⟩ := whole.congr (same.mono (Nat.zero_le _) le_rfl)
      refine ⟨itemSetCas m' o s.nextCas, ?_, fun x hx => ?_, (store same).trans (run m' same)⟩
      · rw [log]
        exact agree_itemSetCas (flags same) same
      · exact whole'.setCas_outside (b := ⟨o, size⟩) _ (.inr hx)

end Records

/-! ## The pass -/

/-- The pass over the first `k` records ends in `t`. -/
structure PassedTo (s₀ : Store) (m : Mem) (free k : ℕ) (t : Store) (account : List Key × ℕ) :
    Prop where
  run : s₀.onePass m k = .ok t
  kept : ledger m free k = some account
  stocked : Stocked t (boundary m k) account.1 account.2
  ahead : ∀ x, boundary m k ≤ x → t.log.mem x = m x
  cursor : t.log.memCurrent = boundary m k

section Pass

variable {s₀ t : Store} {m m' master : Mem} {count limit free k point : ℕ} {account : List Key × ℕ}

theorem passedTo_init (settings : Settings) (limit now : ℕ) (m : Mem) :
    PassedTo (.init settings limit now) m (freelistSize limit) 0
      ((Store.init settings limit now).setMem m) ([], freelistSize limit) where
  run := rfl
  kept := rfl
  stocked := ⟨{ Fed.init settings limit now le_rfl with }, (fun _ hid => nomatch hid), length_down _,
    (fun _ hid => nomatch hid), rfl⟩
  ahead _ _ := rfl
  cursor := rfl

theorem Stocked.advance {s : Store} {top : ℕ} {live : List Key} (h : Stocked s top live free)
    (n : ℕ) : Stocked (s.replayAdvance n) top live free :=
  ⟨{ h.fed with }, h.two, h.length, h.inside, h.keys⟩

/-- The next record of the pass, and the same record in a round whose memory agrees so far. -/
theorem PassedTo.step (h : LogPrefix m count limit) (p : PassedTo s₀ m free k t account)
    (lt : k < count) :
    (ledger m free (k + 1) = none ∧ s₀.onePass m (k + 1) = .error .outOfMetadata ∧
      ∀ m', Agree m' t.log.mem 0 (boundary m (k + 1)) →
        (t.setMem m').replayRecord (boundary m k) = .error .outOfMetadata) ∨
    ∃ t' account', PassedTo s₀ m free (k + 1) t' account' ∧
      ∀ m', Agree m' t.log.mem 0 (boundary m (k + 1)) → ∃ s' m'',
        (t.setMem m').replayRecord (boundary m k) = .ok s' ∧
        s'.replayAdvance (replicationNtotal m (boundary m k)) = t'.setMem m'' ∧
        Agree m'' t'.log.mem 0 (boundary m (k + 1)) ∧
        ∀ x, boundary m (k + 1) ≤ x → m'' x = m' x := by
  have block : Agree t.log.mem m (boundary m k) (boundary m (k + 1)) := fun x low _ => p.ahead x low
  have whole := (h.whole lt).congr block
  have next : ledger m free (k + 1) = ledgerStep t.log.mem (boundary m k) account := by
    rw [ledger, p.kept]
    exact (ledgerStep_congr (h.whole lt) block account).symm
  have pass : s₀.onePass m (k + 1) = (do
      let s ← t.replayRecord (boundary m k)
      pure (s.replayAdvance (replicationNtotal m (boundary m k)))) := by
    rw [Store.onePass, p.run]
    rfl
  rcases p.stocked.replayRecord whole le_rfl with ⟨none, aborts⟩ |
    ⟨s', account', some, stocked, cursor, kept, alike⟩
  · have abort : t.replayRecord (boundary m k) = .error .outOfMetadata :=
      aborts t.log.mem (.refl _ _ _)
    exact .inl ⟨next.trans none, by rw [pass, abort]; rfl, aborts⟩
  · obtain ⟨m₁, same, above, run⟩ := alike t.log.mem (.refl _ _ _)
    have mem : m₁ = s'.log.mem := by
      funext x
      by_cases low : x < boundary m (k + 1)
      · exact same x (Nat.zero_le _) low
      · rw [above x (not_lt.1 low), kept x (not_lt.1 low)]
    subst mem
    have run : t.replayRecord (boundary m k) = .ok s' := run
    refine .inr ⟨s'.replayAdvance (replicationNtotal m (boundary m k)), account', ⟨?_,
      next.trans some, stocked.advance _, fun x low => ?_, ?_⟩, fun m' same => ?_⟩
    · rw [pass, run]
      rfl
    · have begins : boundary m k ≤ x := (boundary_le (Nat.le_succ k)).trans low
      exact (kept x low).trans (p.ahead x begins)
    · exact congrArg (· + _) (cursor.trans p.cursor)
    · obtain ⟨m'', same', above', run'⟩ := alike m' same
      exact ⟨_, m'', run', rfl, same', above'⟩

theorem passes (h : LogPrefix m count limit) (start : ∃ t account, PassedTo s₀ m free 0 t account)
    (le : k ≤ count) :
    (∃ t account, PassedTo s₀ m free k t account) ∨
      ledger m free k = none ∧ s₀.onePass m k = .error .outOfMetadata := by
  induction k with
  | zero => exact .inl start
  | succ k ih =>
    rcases ih (by omega) with ⟨t, account, p⟩ | ⟨none, abort⟩
    · rcases p.step h (by omega) with ⟨none, abort, -⟩ | ⟨t', account', p', -⟩
      · exact .inr ⟨none, abort⟩
      · exact .inl ⟨t', account', p'⟩
    · exact .inr ⟨by rw [ledger, none]; rfl, by rw [Store.onePass, abort]; rfl⟩

end Pass

/-! ## Rounds -/

/-- In the log `master` the first `point` of the `count` records of `m` are complete, and the next
one is not, or is the cycle record behind all of them. -/
structure CompletedTo (m : Mem) (count : ℕ) (master : Mem) (point : ℕ) : Prop where
  le : point ≤ count
  agree : Agree master m 0 (boundary m point)
  stop : Store.completeAt master (boundary m point) = false ∨
    point = count ∧ Store.completeAt master (boundary m point) = true ∧
      has (flagsOf master (boundary m point)) itemCycle = true

/-- The replica between two rounds has replayed the first `k` records: it is the store after one
pass over them, apart from the memory behind them, and after a cycle record its cursors. -/
structure Replayed (s₀ : Store) (m : Mem) (count k : ℕ) (s : Store) (e : RoundEnd) : Prop where
  cursor : s.log.memCurrent = e.offset
  pass : ∃ t, s₀.onePass m k = .ok t ∧ Agree s.log.mem t.log.mem 0 (boundary m k) ∧
    (e = .waiting (boundary m k) ∧ s = t.setMem s.log.mem ∨
      e = .restarted ∧ k = count ∧ s = (t.setMem s.log.mem).replayRestart)

section Rounds

variable {s₀ t : Store} {m m' master : Mem} {count limit free k point remaining : ℕ}
  {account : List Key × ℕ}

theorem PassedTo.waiting (p : PassedTo s₀ m free k t account)
    (same : Agree m' t.log.mem 0 (boundary m k)) :
    Replayed s₀ m count k (t.setMem m') (.waiting (boundary m k)) :=
  ⟨p.cursor, t, p.run, same, .inl ⟨rfl, rfl⟩⟩

/-- The loop of `do_store_replication` from the end of the first `k` records on: it stops at the
first record that is not complete or that the window cuts off, and aborts when there are no metadata
for a record. -/
theorem PassedTo.loop (h : LogPrefix m count limit) (done : CompletedTo m count master point)
    (fuel : ℕ) (p : PassedTo s₀ m free k t account) (le : k ≤ point)
    (same : Agree m' t.log.mem 0 (boundary m k))
    (read : Agree m' master (boundary m k) (boundary m k + remaining))
    (inside : boundary m k + remaining ≤ limit) (enough : remaining < fuel) :
    ((t.setMem m').doStoreReplication fuel remaining (boundary m k) = .error .outOfMetadata ∧
      ∃ j < point, boundary m j + minReplicationSize ≤ limit ∧ ledger m free (j + 1) = none) ∨
    ∃ s' e k', (t.setMem m').doStoreReplication fuel remaining (boundary m k) = .ok (s', e) ∧
      k ≤ k' ∧ k' ≤ point ∧ Replayed s₀ m count k' s' e ∧
      (k' = point ∨ boundary m k + remaining < boundary m k' + minReplicationSize ∨
        boundary m k + remaining < boundary m (k' + 1)) := by
  induction fuel generalizing k t account m' remaining with
  | zero => omega
  | succ fuel ih =>
    rw [Store.doStoreReplication]
    by_cases more : minReplicationSize ≤ remaining
    swap
    · rw [if_neg more]
      exact .inr ⟨_, _, k, rfl, le_rfl, le, p.waiting same, .inr (.inl (by omega))⟩
    rw [if_pos more]
    have header : Agree m' master (boundary m k) (boundary m k + 16) := by
      refine read.mono le_rfl ?_
      unfold minReplicationSize at more
      omega
    have flags : flagsOf (t.setMem m').log.mem (boundary m k) = flagsOf master (boundary m k) :=
      flagsOf_congr header
    have complete : Store.completeAt (t.setMem m').log.mem (boundary m k) =
        Store.completeAt master (boundary m k) := by
      rw [Store.completeAt, Store.completeAt, flags]
    rw [Store.replayTurn, complete, flags]
    rcases lt_or_eq_of_le le with lt | rfl
    · have lt' : k < count := lt_of_lt_of_le lt done.le
      have next : boundary m (k + 1) ≤ boundary m point := boundary_le lt
      have record : Agree master m (boundary m k) (boundary m (k + 1)) :=
        done.agree.mono (Nat.zero_le _) next
      have whole := h.whole lt'
      have head := whole.agree_header record
      have total : replicationNtotal (t.setMem m').log.mem (boundary m k) =
          replicationNtotal m (boundary m k) :=
        congrArg (· % 2 ^ 32) (itemNtotal_congr (header.trans head))
      have doneHere : Store.completeAt master (boundary m k) = true := by
        rw [← h.complete k lt', Store.completeAt, Store.completeAt, flagsOf_congr head]
      have plain : has (flagsOf master (boundary m k)) itemCycle = false := by
        rw [flagsOf_congr head]
        exact h.plain k lt'
      rw [if_pos doneHere, if_neg (by rw [plain]; decide)]
      dsimp only
      rw [total]
      by_cases cut : replicationNtotal m (boundary m k) > remaining
      · rw [if_pos cut]
        exact .inr ⟨_, _, k, rfl, le_rfl, le, p.waiting same, .inr (.inr (by rw [boundary]; omega))⟩
      rw [if_neg cut]
      have same' : Agree m' t.log.mem 0 (boundary m (k + 1)) := by
        intro x _ high
        by_cases low : x < boundary m k
        · exact same x (Nat.zero_le _) low
        · rw [boundary] at high
          rw [read x (not_lt.1 low) (by omega), p.ahead x (not_lt.1 low)]
          exact record x (not_lt.1 low) (by rw [boundary]; omega)
      rcases p.step h lt' with ⟨none, -, aborts⟩ | ⟨t', account', p', alike⟩
      · refine .inl ⟨?_, k, lt, by omega, none⟩
        rw [aborts m' same']
        rfl
      · obtain ⟨s', m'', run, advance, same'', above⟩ := alike m' same'
        rw [run, ok_bind, advance]
        have step : boundary m (k + 1) = boundary m k + replicationNtotal m (boundary m k) := rfl
        have least := replicationNtotal_ge (h.small k lt')
        have word := h.word
        have read' : Agree m'' master (boundary m (k + 1)) (boundary m (k + 1) +
            (remaining - replicationNtotal m (boundary m k))) := fun x low high =>
          (above x low).trans (read x (by omega) (by omega))
        have tail := ih p' lt same'' read' (by omega) (by omega)
        have fit : boundary m (k + 1) + (remaining - replicationNtotal m (boundary m k)) =
            boundary m k + remaining := by omega
        rw [fit] at tail
        change ((t'.setMem m'').doStoreReplication fuel
            (remaining - replicationNtotal m (boundary m k))
            ((boundary m k + replicationNtotal m (boundary m k)) % 2 ^ 32) = _ ∧ _) ∨ ∃ s' e k',
          (t'.setMem m'').doStoreReplication fuel (remaining - replicationNtotal m (boundary m k))
            ((boundary m k + replicationNtotal m (boundary m k)) % 2 ^ 32) = _ ∧ _
        rw [Nat.mod_eq_of_lt (by omega)]
        rcases tail with abort | ⟨s', e, k', run, low, rest⟩
        · exact .inl abort
        · exact .inr ⟨s', e, k', run, by omega, rest⟩
    · rcases done.stop with stop | ⟨all, stop, cycle⟩
      · rw [if_neg (by rw [stop]; decide)]
        exact .inr ⟨_, _, k, rfl, le_rfl, le, p.waiting same, .inl rfl⟩
      · rw [if_pos stop, if_pos cycle]
        exact .inr ⟨_, _, k, rfl, le_rfl, le, ⟨rfl, t, p.run, same, .inr ⟨rfl, all, rfl⟩⟩, .inl rfl⟩

end Rounds

/-- One round: the master's log as it is read, how many of its records are complete by then, and the
number of bytes that are read. -/
structure Round where
  master : Mem
  point : ℕ
  window : ℕ

/-- A round at `offset`; `replicationRound` is the one with the window `sizeToReplicate`. -/
def Store.round (s : Store) (offset : ℕ) (r : Round) : Except Abort (Store × RoundEnd) :=
  (s.rdmaRead r.master offset r.window).doStoreReplication (r.window + 1) r.window offset

/-- The window lies in the log, has at least 35 bytes and holds the next record. -/
structure Round.Fits (r : Round) (m : Mem) (count limit offset : ℕ) : Prop where
  guard : minReplicationSize ≤ r.window
  next : ∀ i < count, offset = boundary m i → replicationNtotal m offset ≤ r.window
  inside : offset + r.window ≤ limit
  completed : CompletedTo m count r.master r.point

/-- The replica between two rounds, and how far the records were complete in the last one. -/
structure RoundState where
  store : Store
  ended : RoundEnd
  point : ℕ

/-- A round that returns.  More records are complete than in the round before, or as many. -/
def RoundStep (m : Mem) (count limit : ℕ) (st : RoundState) (r : Round) (st' : RoundState) : Prop :=
  ∃ offset, st.ended = .waiting offset ∧ r.Fits m count limit offset ∧ st.point ≤ r.point ∧
    st.store.round offset r = .ok (st'.store, st'.ended) ∧ st'.point = r.point

/-- The replica has replayed complete records only, each once and in order, and every next round
returns, replays on from there and gets past the next record if it is complete. -/
def ReplaysOnce (s₀ : Store) (m : Mem) (count limit : ℕ) (st : RoundState) : Prop :=
  ∃ k ≤ st.point, Replayed s₀ m count k st.store st.ended ∧
    ∀ offset r, st.ended = .waiting offset → r.Fits m count limit offset → st.point ≤ r.point →
      ∃ s' e k', st.store.round offset r = .ok (s', e) ∧ Replayed s₀ m count k' s' e ∧
        k ≤ k' ∧ k' ≤ r.point ∧ (k < r.point → k < k')

section Runs

variable {s₀ s : Store} {m : Mem} {count limit free k offset : ℕ} {r : Round}

theorem Replayed.round (h : LogPrefix m count limit) (affords : Affords m count limit free)
    (start : ∃ t account, PassedTo s₀ m free 0 t account)
    (replayed : Replayed s₀ m count k s (.waiting offset)) (fits : r.Fits m count limit offset)
    (le : k ≤ r.point) :
    ∃ s' e k', s.round offset r = .ok (s', e) ∧ Replayed s₀ m count k' s' e ∧ k ≤ k' ∧
      k' ≤ r.point ∧ (k < r.point → k < k') := by
  obtain ⟨t, pass, same, ⟨ended, eq⟩ | ⟨contra, -⟩⟩ := replayed.pass
  swap
  · cases contra
  obtain rfl : offset = boundary m k := RoundEnd.waiting.inj ended
  have completed := fits.completed
  obtain ⟨t', account, p⟩ | ⟨-, abort⟩ := passes h start (le.trans completed.le)
  swap
  · rw [pass] at abort
    cases abort
  obtain rfl : t = t' := Except.ok.inj (pass.symm.trans p.run)
  have read : s.rdmaRead r.master (boundary m k) r.window = t.setMem fun x =>
      if boundary m k ≤ x ∧ x < boundary m k + r.window then r.master x else s.log.mem x := by
    rw [eq]
    rfl
  have below : Agree (fun x => if boundary m k ≤ x ∧ x < boundary m k + r.window then r.master x
      else s.log.mem x) t.log.mem 0 (boundary m k) := fun x low high =>
    (if_neg fun inside => absurd inside.1 (not_le.2 high)).trans (same x low high)
  have window : Agree (fun x => if boundary m k ≤ x ∧ x < boundary m k + r.window then r.master x
      else s.log.mem x) r.master (boundary m k) (boundary m k + r.window) := fun x low high =>
    if_pos ⟨low, high⟩
  rw [Store.round, read]
  rcases p.loop h completed (r.window + 1) le below window fits.inside (Nat.lt_succ_self _) with
    ⟨-, j, lt, room, none⟩ | ⟨s', e, k', run, low, high, replayed, stop⟩
  · have some := affords j (lt_of_lt_of_le lt completed.le) room
    rw [none] at some
    cases some
  · refine ⟨s', e, k', run, replayed, low, high, fun more => lt_of_le_of_ne low ?_⟩
    rintro rfl
    rcases stop with all | short | cut
    · omega
    · have := fits.guard
      omega
    · have := fits.next k (lt_of_lt_of_le more completed.le) rfl
      rw [boundary] at cut
      omega

/-- The log once all records are complete, and nothing is written behind them. -/
def finished (m : Mem) (count : ℕ) : Mem := fun x => if x < boundary m count then m x else 0

theorem completedTo_finished (m : Mem) (count : ℕ) : CompletedTo m count (finished m count) count := by
  refine ⟨le_rfl, fun x _ high => if_pos high, .inl ?_⟩
  have flags : flagsOf (finished m count) (boundary m count) = 0 :=
    if_neg (not_lt.2 (Nat.le_add_right ..))
  rw [Store.completeAt, flags]
  decide

theorem reaches_record (h : LogPrefix m count limit)
    (good : ∀ rs st, Run (RoundStep m count limit) ⟨s₀, .waiting 0, 0⟩ rs st →
      ReplaysOnce s₀ m count limit st)
    (lt : k < count) (room : boundary m k + minReplicationSize ≤ limit) {j : ℕ} (le : j ≤ k + 1) :
    ∃ rs st i, Run (RoundStep m count limit) ⟨s₀, .waiting 0, 0⟩ rs st ∧ st.point ≤ count ∧
      Replayed s₀ m count i st.store st.ended ∧ j ≤ i ∧ i ≤ count := by
  induction j with
  | zero =>
    obtain ⟨i, low, replayed, -⟩ := good [] _ (.nil _)
    exact ⟨[], _, i, .nil _, Nat.zero_le _, replayed, Nat.zero_le _, low.trans (Nat.zero_le _)⟩
  | succ j ih =>
    obtain ⟨rs, st, i, run, point, replayed, low, high⟩ := ih (by omega)
    by_cases past : j + 1 ≤ i
    · exact ⟨rs, st, i, run, point, replayed, past, high⟩
    obtain rfl : i = j := by omega
    have lt' : i < count := by omega
    have ended : st.ended = .waiting (boundary m i) := by
      obtain ⟨t, -, -, ⟨ended, -⟩ | ⟨-, contra, -⟩⟩ := replayed.pass
      · exact ended
      · omega
    obtain ⟨i', low', replayed', next⟩ := good rs st run
    -- the state tells how many records were replayed
    have same : i' = i := by
      obtain ⟨t, -, -, ⟨ended', -⟩ | ⟨contra, -⟩⟩ := replayed'.pass
      · have at' : boundary m i = boundary m i' := RoundEnd.waiting.inj (ended.symm.trans ended')
        rcases lt_trichotomy i' i with before | eq | after
        · have := h.boundary_lt before lt'.le
          omega
        · exact eq
        · have := h.boundary_lt after (low'.trans point)
          omega
      · rw [ended] at contra
        cases contra
    subst same
    have begins : boundary m i' ≤ boundary m k := boundary_le (by omega)
    have ends : boundary m (i' + 1) ≤ boundary m count := boundary_le lt'
    have inside := h.inside
    have fits : Round.Fits ⟨finished m count, count, limit - boundary m i'⟩ m count limit
        (boundary m i') := by
      refine ⟨?_, fun n hn eq => ?_, ?_, completedTo_finished m count⟩
      · dsimp only
        omega
      · dsimp only
        rw [boundary] at ends
        omega
      · dsimp only
        omega
    obtain ⟨s', e, i'', round, replayed'', -, most, more⟩ := next _ _ ended fits point
    have step : RoundStep m count limit st _ ⟨s', e, count⟩ :=
      ⟨_, ended, fits, point, round, rfl⟩
    exact ⟨_, _, i'', run.append (.one step), le_rfl, replayed'', more lt', most⟩

end Runs

section Once

variable {m : Mem} {count limit : ℕ}

/-- On a fresh replica, the rounds over a log replay each complete record once and in order, whatever
the windows are and however completion grows, if and only if the metadata suffice. -/
theorem replay_once_iff (h : LogPrefix m count limit) (settings : Settings) (now : ℕ) :
    (∀ rs st, Run (RoundStep m count limit) ⟨.init settings limit now, .waiting 0, 0⟩ rs st →
        ReplaysOnce (.init settings limit now) m count limit st) ↔
      Affords m count limit (freelistSize limit) := by
  have start : ∃ t account, PassedTo (.init settings limit now) m (freelistSize limit) 0 t account :=
    ⟨_, _, passedTo_init settings limit now m⟩
  constructor
  · intro good k lt room
    obtain ⟨-, st, i, -, -, replayed, low, high⟩ := reaches_record h good lt room le_rfl
    obtain ⟨t, pass, -⟩ := replayed.pass
    rcases passes h start high with ⟨t', account, p⟩ | ⟨-, abort⟩
    · exact ledger_isSome_of_le low (by rw [p.kept]; rfl)
    · rw [pass] at abort
      cases abort
  · intro affords rs st run
    have invariant : st.point ≤ count ∧
        ∃ k ≤ st.point, Replayed (.init settings limit now) m count k st.store st.ended := by
      refine run.invariant (fun st => st.point ≤ count ∧
        ∃ k ≤ st.point, Replayed (.init settings limit now) m count k st.store st.ended) ?_ ?_
      · rintro st r st' ⟨-, k, low, replayed⟩ ⟨offset, ended, fits, grows, round, point⟩
        rw [ended] at replayed
        obtain ⟨s', e, k', round', replayed', -, most, -⟩ :=
          replayed.round h affords start fits (low.trans grows)
        obtain ⟨store, ends⟩ := Prod.mk.inj (Except.ok.inj (round.symm.trans round'))
        rw [point, store, ends]
        exact ⟨fits.completed.le, k', most, replayed'⟩
      · refine ⟨Nat.zero_le _, 0, le_rfl, ?_⟩
        exact (passedTo_init settings limit now m).waiting (fun x _ high => absurd high (Nat.not_lt_zero x))
    obtain ⟨-, k, low, replayed⟩ := invariant
    refine ⟨k, low, replayed, fun offset r ended fits grows => ?_⟩
    rw [ended] at replayed
    exact replayed.round h affords start fits (low.trans grows)

/-- The log of a master after `set a 0 0 1` and `delete a`. -/
def setAndDelete : Mem :=
  RecordKind.tombstone.write true shortMaster (replicationNtotal shortMaster 0) [97] 128 0 0

theorem replay_once_deleted :
    LogPrefix setAndDelete 2 memlogDefaultSize ∧
      ∀ rs st, Run (RoundStep setAndDelete 2 memlogDefaultSize)
          ⟨.init (settingsInit 1500000000) memlogDefaultSize 2, .waiting 0, 0⟩ rs st →
        ReplaysOnce (.init (settingsInit 1500000000) memlogDefaultSize 2) setAndDelete 2
          memlogDefaultSize st := by
  have log : LogPrefix setAndDelete 2 memlogDefaultSize :=
    ⟨by decide +kernel, by decide +kernel, by decide +kernel, by decide +kernel, by decide +kernel⟩
  have affords : Affords setAndDelete 2 memlogDefaultSize (freelistSize memlogDefaultSize) := by
    unfold Affords
    decide +kernel
  exact ⟨log, (replay_once_iff log _ _).2 affords⟩

/-! ## A log for which the metadata do not suffice -/

theorem ledger_of_stores {free k : ℕ}
    (stores : ∀ i < k, has (flagsOf m (boundary m i)) itemCorrupted = false ∧
      has (flagsOf m (boundary m i)) itemDeleted = false) :
    ∃ live, ledger m free k = if k ≤ free then some (live, free - k) else none := by
  induction k with
  | zero => exact ⟨[], by rw [if_pos (Nat.zero_le _)]; rfl⟩
  | succ k ih =>
    obtain ⟨live, eq⟩ := ih fun i hi => stores i (by omega)
    obtain ⟨corrupted, deleted⟩ := stores k (by omega)
    refine ⟨keyOf m (boundary m k) :: live.erase (keyOf m (boundary m k)), ?_⟩
    rw [ledger, eq]
    by_cases le : k ≤ free
    · rw [if_pos le, Option.bind_some, ledgerStep, if_neg (by rw [corrupted]; decide),
        if_neg (by rw [deleted]; decide)]
      dsimp only
      by_cases last : free - k = 0
      · rw [if_pos last, if_neg (by omega)]
      · rw [if_neg last, if_pos (by omega), Nat.sub_sub]
    · rw [if_neg le, if_neg (by omega)]
      rfl

/-- The record of `set k 0 0 0`, which takes 34 bytes. -/
def smallest : Mem := RecordKind.item.write true (fun _ => 0) 0 [107] 0 0 2

/-- The log of a master after `set k 0 0 0` has been sent once more often than there are metadata. -/
def crowded : Mem := fun x => if x < 34 * 22369622 then smallest (x % 34) else 0

theorem crowded_header {i : ℕ} (lt : i < 22369622) :
    flagsOf crowded (34 * i) = flagsOf smallest 0 ∧
      nbytesOf crowded (34 * i) = nbytesOf smallest 0 ∧
      itemNtotal crowded (34 * i) = itemNtotal smallest 0 := by
  refine header_shift fun d hd => ?_
  rw [crowded, if_pos (by omega), Nat.mul_add_mod, Nat.mod_eq_of_lt (by omega), Nat.zero_add]

theorem boundary_crowded {i : ℕ} (le : i ≤ 22369622) : boundary crowded i = 34 * i := by
  induction i with
  | zero => rfl
  | succ i ih =>
    have size : itemNtotal smallest 0 % 2 ^ 32 = 34 := by decide +kernel
    rw [boundary, ih (by omega), replicationNtotal, (crowded_header (by omega)).2.2, size]
    omega

theorem crowded_record {i : ℕ} (lt : i < 22369622) :
    flagsOf crowded (boundary crowded i) = flagsOf smallest 0 ∧
      nbytesOf crowded (boundary crowded i) = nbytesOf smallest 0 := by
  rw [boundary_crowded lt.le]
  exact ⟨(crowded_header lt).1, (crowded_header lt).2.1⟩

theorem logPrefix_crowded : LogPrefix crowded 22369622 memlogDefaultSize := by
  have flags : flagsOf smallest 0 = itemCas ||| itemStored := by decide +kernel
  refine ⟨by decide, fun i lt => ?_, fun i lt => ?_, fun i lt => ?_, ?_⟩
  · rw [Store.completeAt, (crowded_record lt).1, flags]
    decide
  · rw [(crowded_record lt).1, flags]
    decide
  · rw [(crowded_record lt).2]
    decide +kernel
  · rw [boundary_crowded le_rfl]
    decide

theorem completedTo_crowded : CompletedTo crowded 22369622 crowded 22369622 := by
  refine ⟨le_rfl, .refl _ _ _, .inl ?_⟩
  have flags : flagsOf crowded (boundary crowded 22369622) = 0 := by
    rw [boundary_crowded le_rfl, flagsOf, crowded, if_neg (by omega)]
  rw [Store.completeAt, flags]
  decide

/-- In the 1 GiB log of a fresh replica the round over these records aborts: every record has
replaced the one before it, but none of their metadata have been given back. -/
theorem replay_runs_out_of_metadata :
    LogPrefix crowded 22369622 memlogDefaultSize ∧
      Round.Fits ⟨crowded, 22369622, memlogDefaultSize⟩ crowded 22369622 memlogDefaultSize 0 ∧
      (Store.init (settingsInit 1500000000) memlogDefaultSize 2).round 0
        ⟨crowded, 22369622, memlogDefaultSize⟩ = .error .outOfMetadata := by
  have log := logPrefix_crowded
  have last : boundary crowded 22369622 = 760567148 := boundary_crowded le_rfl
  have size : memlogDefaultSize = 1073741824 := rfl
  have fits : Round.Fits ⟨crowded, 22369622, memlogDefaultSize⟩ crowded 22369622 memlogDefaultSize 0 := by
    refine ⟨by decide, fun i lt eq => ?_, (Nat.zero_add _).le, completedTo_crowded⟩
    have next : boundary crowded (i + 1) ≤ boundary crowded 22369622 := boundary_le lt
    rw [boundary, ← eq] at next
    dsimp only
    omega
  refine ⟨log, fits, ?_⟩
  have p := passedTo_init (settingsInit 1500000000) memlogDefaultSize 2 crowded
  have read : Agree (fun x => if 0 ≤ x ∧ x < 0 + memlogDefaultSize then crowded x else 0) crowded
      (boundary crowded 0) (boundary crowded 0 + memlogDefaultSize) := fun x low high =>
    if_pos ⟨low, high⟩
  rcases p.loop log completedTo_crowded (memlogDefaultSize + 1) (Nat.zero_le _)
    (fun x _ high => absurd high (Nat.not_lt_zero x)) read fits.inside (Nat.lt_succ_self _) with
    ⟨abort, -⟩ | ⟨s', e, k', -, -, most, replayed, stop⟩
  · exact abort
  -- the window reaches beyond the last record, so the round would have to get there
  have all : k' = 22369622 := by
    by_contra other
    have next : boundary crowded (k' + 1) ≤ boundary crowded 22369622 := boundary_le (by omega)
    have here : boundary crowded k' ≤ boundary crowded 22369622 := boundary_le most
    have first : boundary crowded 0 = 0 := rfl
    rw [first] at stop
    unfold minReplicationSize at stop
    omega
  obtain ⟨t, pass, -⟩ := replayed.pass
  rw [all] at pass
  have spent : ledger crowded (freelistSize memlogDefaultSize) 22369622 = none := by
    have flags : flagsOf smallest 0 = itemCas ||| itemStored := by decide +kernel
    obtain ⟨live, eq⟩ := ledger_of_stores (m := crowded) (k := 22369622) fun i lt => by
      rw [(crowded_record lt).1, flags]
      decide
    rw [eq, if_neg (by decide)]
  rcases passes log ⟨_, _, p⟩ le_rfl with ⟨t', account, p'⟩ | ⟨-, abort⟩
  · have kept := p'.kept
    rw [spent] at kept
    cases kept
  · rw [pass] at abort
    cases abort

end Once

end LogMemcached

import LogMemcached.Replica
import LogMemcached.StoreInv

/-!
# Rounds of replication

A round on a replica that is only fed by replication: no assertion fails, and the round ends past
every completed record that it has read as a whole.
-/

namespace LogMemcached

open ByteMem Fallible

/-- The round has got to `offset` or further, or has started over. -/
def RoundEnd.Past (e : RoundEnd) (offset : ℕ) : Prop :=
  match e with
  | .waiting o => offset ≤ o
  | .restarted => True

/-- The offsets a round can get to from `offset` over completed records. -/
inductive Reaches (m : Mem) : ℕ → ℕ → Prop
  | here (offset : ℕ) : Reaches m offset offset
  | step {offset o : ℕ} (complete : Store.completeAt m offset = true)
      (plain : has (flagsOf m offset) itemCycle = false)
      (rest : Reaches m (offset + replicationNtotal m offset) o) : Reaches m offset o

/-- A replica whose items were all linked by replication and have kept the reference of their
metadata, with at least `n` free metadata. -/
structure Fed (s : Store) (n : ℕ) : Prop where
  nodup : s.table.Nodup
  linked : ∀ id ∈ s.table, (s.metas id).linked = true
  slabbed : ∀ id ∈ s.table, (s.metas id).slabbed = false
  held : ∀ id ∈ s.table, 2 ≤ (s.metas id).refcount ∧ (s.metas id).refcount < 2 ^ 16
  freeNodup : s.freelist.Nodup
  unlinked : ∀ id ∈ s.freelist, (s.metas id).linked = false
  enough : n ≤ s.freelist.length

section Store

variable {s s' : Store} {id n : ℕ} {key : Key}

theorem Fed.init (settings : Settings) (limit now : ℕ) (enough : n ≤ freelistSize limit) :
    Fed (Store.init settings limit now) n where
  nodup := List.nodup_nil
  linked _ hid := by cases hid
  slabbed _ hid := by cases hid
  held _ hid := by cases hid
  freeNodup := nodup_down _
  unlinked _ _ := rfl
  enough := by rwa [show (Store.init settings limit now).freelist.length = freelistSize limit from
    length_down _]

/-! ## Releases and unlinks that succeed -/

theorem doItemRemove_of_two (slabbed : (s.metas id).slabbed = false)
    (two : 2 ≤ (s.metas id).refcount) (small : (s.metas id).refcount < 2 ^ 16) :
    s.doItemRemove id = .ok (s.refcountDecr id) := by
  have count : ((s.refcountDecr id).metas id).refcount ≠ 0 := by
    simp only [Store.refcountDecr, Store.updateMeta, Function.update_self]
    omega
  rw [Store.doItemRemove, check_bind_ran, check_bind_ran]
  refine ⟨by simp [slabbed], by simp; omega, ?_⟩
  simp only [if_neg count]
  rfl

theorem doItemRemove_of_one (slabbed : (s.metas id).slabbed = false)
    (one : (s.metas id).refcount = 1) (unlinked : (s.metas id).linked = false) :
    s.doItemRemove id = .ok ((s.refcountDecr id).freelistFree id) := by
  have count : ((s.refcountDecr id).metas id).refcount = 0 := by
    simp [Store.refcountDecr, Store.updateMeta, one]
  have linked : ((s.refcountDecr id).metas id).linked = false := by
    simp [Store.refcountDecr, Store.updateMeta, unlinked]
  rw [Store.doItemRemove, check_bind_ran, check_bind_ran]
  refine ⟨by simp [slabbed], by simp [one], ?_⟩
  simp only [if_pos count]
  rw [Store.itemFree, check_bind_ran, check_bind_ran]
  exact ⟨by simp [linked], by simp [count], rfl⟩

theorem doItemUnlink_found (found : s.assocFind key = some id)
    (linked : (s.metas id).linked = true) :
    s.doItemUnlink id = (s.cut id (s.stats.unlink (s.measure id))).doItemRemove id := by
  have same : (s.table.eraseP fun k => s.keyAt k == s.keyAt id) = s.table.erase id := by
    have key : s.keyAt id = key := by simpa using List.find?_some found
    rw [key]
    exact Chains.eraseP_of_find? found
  have present : (s.assocFind (s.keyAt id)).isSome = true := by
    rw [Store.assocFind, List.find?_isSome]
    exact ⟨id, List.mem_of_find?_eq_some found, by simp⟩
  exact doItemUnlink_eq linked present same

/-! ## What replaying does to the replica -/

theorem Fed.congr (h : Fed s n) (freelist : s'.freelist = s.freelist) (nodup : s'.table.Nodup)
    (table : ∀ k ∈ s'.table, k ∈ s.table ∧ s'.metas k = s.metas k)
    (free : ∀ k ∈ s.freelist, (s'.metas k).linked = false) : Fed s' n where
  nodup := nodup
  linked k hk := by rw [(table k hk).2]; exact h.linked k (table k hk).1
  slabbed k hk := by rw [(table k hk).2]; exact h.slabbed k (table k hk).1
  held k hk := by rw [(table k hk).2]; exact h.held k (table k hk).1
  freeNodup := by rw [freelist]; exact h.freeNodup
  unlinked k hk := free k (freelist ▸ hk)
  enough := by rw [freelist]; exact h.enough

def Store.unlinked (s : Store) (id : ℕ) : Store :=
  (s.cut id (s.stats.unlink (s.measure id))).refcountDecr id

theorem metas_unlinked_self (s : Store) (id : ℕ) : (s.unlinked id).metas id = { s.metas id with
    linked := false, refcount := ((s.metas id).refcount + (2 ^ 16 - 1)) % 2 ^ 16 } := by
  simp [Store.unlinked, Store.refcountDecr, Store.updateMeta, Store.cut]

theorem metas_unlinked_other {k : ℕ} (ne : k ≠ id) : (s.unlinked id).metas k = s.metas k := by
  simp [Store.unlinked, Store.refcountDecr, Store.updateMeta, Store.cut, ne]

theorem Fed.unlink (h : Fed s n) (found : s.assocFind key = some id) :
    s.doItemUnlink id = .ok (s.unlinked id) ∧ Fed (s.unlinked id) n := by
  have member : id ∈ s.table := List.mem_of_find?_eq_some found
  have slabbed := h.slabbed id member
  obtain ⟨two, small⟩ := h.held id member
  constructor
  · rw [doItemUnlink_found found (h.linked id member)]
    have cutMeta : (s.cut id (s.stats.unlink (s.measure id))).metas id =
        { s.metas id with linked := false } := Function.update_self ..
    apply doItemRemove_of_two
    · rw [cutMeta]; exact slabbed
    · rw [cutMeta]; exact two
    · rw [cutMeta]; exact small
  · refine h.congr rfl (h.nodup.erase id) (fun k hk => ?_) fun k hk => ?_
    · obtain ⟨ne, mem⟩ := (h.nodup.mem_erase_iff).1 hk
      exact ⟨mem, metas_unlinked_other ne⟩
    · by_cases eq : k = id
      · rw [eq, metas_unlinked_self]
      · rw [metas_unlinked_other eq]
        exact h.unlinked k hk

def Store.released (s : Store) (id : ℕ) : Store := (s.refcountDecr id).freelistFree id

theorem metas_released_other {k : ℕ} (ne : k ≠ id) : (s.released id).metas k = s.metas k := by
  simp [Store.released, Store.refcountDecr, Store.freelistFree, Store.updateMeta, ne]

theorem metas_released_self (s : Store) (id : ℕ) : ((s.released id).metas id).linked = false := by
  simp [Store.released, Store.refcountDecr, Store.freelistFree, Store.updateMeta]

theorem Fed.notFree (h : Fed s n) (member : id ∈ s.table) : id ∉ s.freelist := fun free => by
  have := h.unlinked id free
  rw [h.linked id member] at this
  cases this

theorem Fed.replayDelete_two (h : Fed s n) (found : s.assocFind key = some id)
    (two : (s.metas id).refcount = 2) :
    s.replayDelete key = .ok ((s.unlinked id).released id) ∧
      Fed ((s.unlinked id).released id) (n + 1) := by
  have member : id ∈ s.table := List.mem_of_find?_eq_some found
  obtain ⟨run, fed⟩ := h.unlink found
  have self := metas_unlinked_self s id
  have inTable : ∀ k ∈ (s.unlinked id).table, k ≠ id := fun k hk =>
    ((h.nodup.mem_erase_iff).1 hk).1
  constructor
  · rw [Store.replayDelete, found]
    dsimp only
    rw [run, ok_bind]
    apply doItemRemove_of_one
    · rw [self]; exact h.slabbed id member
    · rw [self]; dsimp only; omega
    · rw [self]
  · refine ⟨fed.nodup, fun k hk => ?_, fun k hk => ?_, fun k hk => ?_, ?_, fun k hk => ?_, ?_⟩
    · rw [metas_released_other (inTable k hk)]; exact fed.linked k hk
    · rw [metas_released_other (inTable k hk)]; exact fed.slabbed k hk
    · rw [metas_released_other (inTable k hk)]; exact fed.held k hk
    · exact List.nodup_cons.2 ⟨h.notFree member, h.freeNodup⟩
    · by_cases eq : k = id
      · rw [eq]
        exact metas_released_self _ id
      · rw [metas_released_other eq]
        exact fed.unlinked k ((List.mem_cons.1 hk).resolve_left eq)
    · exact Nat.succ_le_succ h.enough

theorem Fed.replayDelete (h : Fed s n) (key : Key) :
    ∃ s', s.replayDelete key = .ok s' ∧ Fed s' n ∧ s'.log = s.log := by
  cases found : s.assocFind key with
  | none =>
    rw [Store.replayDelete, found]
    exact ⟨s, rfl, h, rfl⟩
  | some id =>
    have member : id ∈ s.table := List.mem_of_find?_eq_some found
    obtain ⟨two, small⟩ := h.held id member
    by_cases last : (s.metas id).refcount = 2
    · obtain ⟨run, fed⟩ := h.replayDelete_two found last
      exact ⟨_, run, { fed with enough := Nat.le_of_succ_le fed.enough }, rfl⟩
    obtain ⟨run, fed⟩ := h.unlink found
    have self := metas_unlinked_self s id
    have more : 2 ≤ ((s.unlinked id).metas id).refcount := by
      rw [self]
      dsimp only
      omega
    have less : ((s.unlinked id).metas id).refcount < 2 ^ 16 := by
      rw [self]
      dsimp only
      omega
    refine ⟨(s.unlinked id).refcountDecr id, ?_, ?_, rfl⟩
    · rw [Store.replayDelete, found]
      dsimp only
      rw [run, ok_bind]
      exact doItemRemove_of_two (by rw [self]; exact h.slabbed id member) more less
    · have other : ∀ k, k ≠ id → ((s.unlinked id).refcountDecr id).metas k =
          (s.unlinked id).metas k := by
        intro k ne
        simp [Store.refcountDecr, Store.updateMeta, ne]
      refine fed.congr rfl fed.nodup (fun k hk => ?_) fun k hk => ?_
      · exact ⟨hk, other k ((h.nodup.mem_erase_iff).1 hk).1⟩
      · rw [other k fun eq => h.notFree member (eq ▸ hk)]
        exact fed.unlinked k hk

theorem metas_linkedIn_self (s : Store) (id : ℕ) : (s.linkedIn id).metas id = { s.metas id with
    linked := true, time := s.currentTime, refcount := ((s.metas id).refcount + 1) % 2 ^ 16 } :=
  Function.update_self ..

theorem metas_linkedIn_other {k : ℕ} (ne : k ≠ id) : (s.linkedIn id).metas k = s.metas k :=
  Function.update_of_ne ne ..

theorem Fed.link (h : Fed s n) (out : id ∉ s.table) (notFree : id ∉ s.freelist)
    (unlinked : (s.metas id).linked = false) (slabbed : (s.metas id).slabbed = false)
    (one : (s.metas id).refcount = 1) :
    s.doItemLink id = .ok (s.linkedIn id) ∧ Fed (s.linkedIn id) n := by
  have self := metas_linkedIn_self s id
  refine ⟨doItemLink_ok unlinked slabbed, List.nodup_cons.2 ⟨out, h.nodup⟩, fun k hk => ?_,
    fun k hk => ?_, fun k hk => ?_, h.freeNodup, fun k hk => ?_, h.enough⟩
  · by_cases eq : k = id
    · rw [eq, self]
    · rw [metas_linkedIn_other eq]
      exact h.linked k ((List.mem_cons.1 hk).resolve_left eq)
  · by_cases eq : k = id
    · rw [eq, self]
      exact slabbed
    · rw [metas_linkedIn_other eq]
      exact h.slabbed k ((List.mem_cons.1 hk).resolve_left eq)
  · by_cases eq : k = id
    · rw [eq, self, one]
      exact ⟨le_refl 2, by norm_num⟩
    · rw [metas_linkedIn_other eq]
      exact h.held k ((List.mem_cons.1 hk).resolve_left eq)
  · have ne : k ≠ id := fun eq => notFree (eq ▸ hk)
    rw [metas_linkedIn_other ne]
    exact h.unlinked k hk

/-- The store that hands out the metadata `id` for the record at `offset`. -/
def Store.pop (s : Store) (id : ℕ) (rest : List ℕ) (offset : ℕ) : Store :=
  { s with
    freelist := rest
    metas := Function.update s.metas id { s.metas id with
      item := offset, refcount := 1, getCount := 0, slabbed := false } }

theorem metas_pop_self (s : Store) (id : ℕ) (rest : List ℕ) (offset : ℕ) :
    (s.pop id rest offset).metas id = { s.metas id with
      item := offset, refcount := 1, getCount := 0, slabbed := false } :=
  Function.update_self ..

theorem metas_pop_other {rest : List ℕ} {offset k : ℕ} (ne : k ≠ id) :
    (s.pop id rest offset).metas k = s.metas k :=
  Function.update_of_ne ne ..

theorem Fed.pop {rest : List ℕ} (h : Fed s (n + 1)) (free : s.freelist = id :: rest)
    (offset : ℕ) : Fed (s.pop id rest offset) n ∧ id ∉ s.table ∧ id ∉ rest := by
  have head : id ∈ s.freelist := by rw [free]; exact List.mem_cons_self
  obtain ⟨notRest, restNodup⟩ := List.nodup_cons.1 (free ▸ h.freeNodup)
  have out : id ∉ s.table := fun hid => h.notFree hid head
  have ne : ∀ k ∈ s.table, k ≠ id := fun k hk eq => out (eq ▸ hk)
  refine ⟨⟨h.nodup, fun k hk => ?_, fun k hk => ?_, fun k hk => ?_, restNodup, fun k hk => ?_, ?_⟩,
    out, notRest⟩
  · rw [metas_pop_other (ne k hk)]; exact h.linked k hk
  · rw [metas_pop_other (ne k hk)]; exact h.slabbed k hk
  · rw [metas_pop_other (ne k hk)]; exact h.held k hk
  · have ne : k ≠ id := fun eq => notRest (eq ▸ hk)
    rw [metas_pop_other ne]
    exact h.unlinked k (by rw [free]; exact List.mem_cons_of_mem _ hk)
  · have := h.enough
    rw [free, List.length_cons] at this
    exact Nat.le_of_succ_le_succ this

/-- The store after the record at `offset` has been linked with the metadata `id`. -/
def Store.replayed (s : Store) (id : ℕ) (rest : List ℕ) (offset : ℕ) : Store :=
  match (s.pop id rest offset).assocFind (keyOf s.log.mem offset) with
  | some oldId => ((s.pop id rest offset).unlinked oldId).linkedIn id
  | none => (s.pop id rest offset).linkedIn id

theorem replayStore_eq {rest : List ℕ} {offset : ℕ} (free : s.freelist = id :: rest) :
    s.replayStore offset =
      match (s.pop id rest offset).assocFind (keyOf s.log.mem offset) with
      | some oldId => (s.pop id rest offset).doItemReplace oldId id
      | none => (s.pop id rest offset).doItemLink id := by
  have popped : s.freelistAlloc.map (fun p => (p.1, p.2.updateMeta p.1 fun it =>
      { it with item := offset })) = some (id, s.pop id rest offset) := by
    simp [Store.freelistAlloc, free, Store.updateMeta, Store.pop, Function.update_idem]
  obtain ⟨⟨id', s₁⟩, alloc, eq⟩ := Option.map_eq_some_iff.1 popped
  obtain ⟨idEq, eq⟩ := Prod.mk.inj eq
  dsimp only at idEq eq
  subst idEq
  rw [Store.replayStore, alloc]
  dsimp only
  rw [eq]
  rfl

theorem Fed.replayStore {rest : List ℕ} (h : Fed s (n + 1)) (free : s.freelist = id :: rest)
    (offset : ℕ) :
    s.replayStore offset = .ok (s.replayed id rest offset) ∧ Fed (s.replayed id rest offset) n ∧
      (s.replayed id rest offset).log = (s.setMem (itemSetCas s.log.mem offset s.nextCas)).log := by
  obtain ⟨fed, out, notRest⟩ := h.pop free offset
  have unlinked : (s.metas id).linked = false := h.unlinked id (by rw [free]; exact List.mem_cons_self)
  have self := metas_pop_self s id rest offset
  rw [replayStore_eq free, Store.replayed]
  cases found : (s.pop id rest offset).assocFind (keyOf s.log.mem offset) with
  | none =>
    obtain ⟨run, fed'⟩ := fed.link out notRest (by rw [self]; exact unlinked) (by rw [self])
      (by rw [self])
    refine ⟨run, fed', ?_⟩
    change (((s.pop id rest offset).setMem (itemSetCas s.log.mem
      ((s.pop id rest offset).itemOf id) s.nextCas)).log) = _
    rw [Store.itemOf, self]
    rfl
  | some oldId =>
    obtain ⟨unlink, fed₂⟩ := fed.unlink found
    have member : oldId ∈ s.table := List.mem_of_find?_eq_some found
    have ne : id ≠ oldId := fun eq => out (eq ▸ member)
    have self₂ : ((s.pop id rest offset).unlinked oldId).metas id = _ :=
      (metas_unlinked_other ne).trans self
    obtain ⟨run, fed'⟩ := fed₂.link (fun hid => out (List.mem_of_mem_erase hid)) notRest
      (by rw [self₂]; exact unlinked) (by rw [self₂]) (by rw [self₂])
    refine ⟨?_, fed', ?_⟩
    · dsimp only
      rw [Store.doItemReplace, check_bind_ran]
      exact ⟨by simp [fed.slabbed oldId member], by rw [unlink, ok_bind, run]⟩
    · change ((((s.pop id rest offset).unlinked oldId).setMem (itemSetCas s.log.mem
        (((s.pop id rest offset).unlinked oldId).itemOf id) s.nextCas)).log) = _
      rw [Store.itemOf, self₂]
      rfl

/-- A completed record other than a cycle record is replayed; only its CAS word can change. -/
theorem Fed.replayRecord (h : Fed s (n + 1)) (offset : ℕ) :
    ∃ s', s.replayRecord offset = .ok s' ∧ Fed s' n ∧
      (s'.log = s.log ∨ ∃ cas, s'.log = (s.setMem (itemSetCas s.log.mem offset cas)).log) := by
  have less : Fed s n := { h with enough := Nat.le_of_succ_le h.enough }
  rw [Store.replayRecord]
  by_cases corrupted : has (flagsOf s.log.mem offset) itemCorrupted
  · rw [if_pos corrupted]
    exact ⟨s, rfl, less, Or.inl rfl⟩
  rw [if_neg corrupted]
  by_cases deleted : has (flagsOf s.log.mem offset) itemDeleted
  · rw [if_pos deleted]
    obtain ⟨s', run, fed, log⟩ := less.replayDelete (keyOf s.log.mem offset)
    exact ⟨s', run, fed, Or.inl log⟩
  · rw [if_neg deleted]
    rcases free : s.freelist with _ | ⟨id, rest⟩
    · have := h.enough
      rw [free] at this
      simp at this
    obtain ⟨run, fed, log⟩ := h.replayStore free offset
    exact ⟨_, run, fed, Or.inr ⟨_, log⟩⟩

end Store

/-! ## Rounds -/

section Rounds

variable {s : Store} {m : Mem} {offset remaining : ℕ}

/-- A record whose data length is no negative `int` takes at least 17 bytes, and 25 with a CAS
word. -/
theorem replicationNtotal_ge (small : nbytesOf m offset < 2 ^ 31) :
    17 + ntotalCasRoom (flagsOf m offset) ≤ replicationNtotal m offset := by
  have nkey : nkeyOf m offset < 256 := UInt8.toNat_lt _
  have nsuffix : nsuffixOf m offset < 256 := UInt8.toNat_lt _
  have room := ntotalCasRoom_le (flagsOf m offset)
  rw [replicationNtotal, itemNtotal, intToSize, if_pos small, sizeofItemData]
  omega

theorem Fed.replayTurn {n : ℕ} (h : Fed s (n + 1)) (remaining offset : ℕ)
    (sane : Store.completeAt s.log.mem offset = true → nbytesOf s.log.mem offset < 2 ^ 31) :
    (∃ s', s.replayTurn remaining offset =
        .ok (.next s' (replicationNtotal s.log.mem offset)) ∧
      Store.completeAt s.log.mem offset = true ∧
      has (flagsOf s.log.mem offset) itemCycle = false ∧
      replicationNtotal s.log.mem offset ≤ remaining ∧ Fed s' n ∧
      ∀ x, offset + replicationNtotal s.log.mem offset ≤ x → s'.log.mem x = s.log.mem x) ∨
    (s.replayTurn remaining offset = .ok (.back s.replayRestart) ∧
      has (flagsOf s.log.mem offset) itemCycle = true) ∨
    (s.replayTurn remaining offset = .ok .wait ∧
      (Store.completeAt s.log.mem offset = true →
        has (flagsOf s.log.mem offset) itemCycle = false ∧
          remaining < replicationNtotal s.log.mem offset)) := by
  rw [Store.replayTurn]
  by_cases complete : Store.completeAt s.log.mem offset = true
  swap
  · rw [if_neg complete]
    exact Or.inr (Or.inr ⟨rfl, fun contra => absurd contra complete⟩)
  rw [if_pos complete]
  by_cases cycle : has (flagsOf s.log.mem offset) itemCycle = true
  · rw [if_pos cycle]
    exact Or.inr (Or.inl ⟨rfl, cycle⟩)
  rw [if_neg cycle]
  have plain : has (flagsOf s.log.mem offset) itemCycle = false := by simpa using cycle
  dsimp only
  by_cases cut : replicationNtotal s.log.mem offset > remaining
  · rw [if_pos cut]
    exact Or.inr (Or.inr ⟨rfl, fun _ => ⟨plain, cut⟩⟩)
  rw [if_neg cut]
  obtain ⟨s', run, fed, log⟩ := h.replayRecord offset
  refine Or.inl ⟨s'.replayAdvance (replicationNtotal s.log.mem offset), by rw [run]; rfl, complete,
    plain, by omega, fed.congr rfl fed.nodup (fun k hk => ⟨hk, rfl⟩) fed.unlinked, fun x hx => ?_⟩
  change s'.log.mem x = s.log.mem x
  have size := replicationNtotal_ge (sane complete)
  rcases log with log | ⟨cas, log⟩
  · rw [log]
  · rw [log]
    change itemSetCas s.log.mem offset cas x = s.log.mem x
    -- the CAS word lies inside of the record
    by_cases room : has (flagsOf s.log.mem offset) itemCas = true
    · have wide : ntotalCasRoom (flagsOf s.log.mem offset) = 8 := by simp [ntotalCasRoom, room]
      exact itemSetCas_outside (by omega)
    · rw [itemSetCas, if_neg room]

/-- The loop with `remaining` bytes in front of it gets past the completed record at `offset`. -/
def GetsPast (m : Mem) (offset remaining : ℕ) : Prop :=
  minReplicationSize ≤ remaining ∧
    (has (flagsOf m offset) itemCycle = true ∨ replicationNtotal m offset ≤ remaining)

/-- The loop runs to its end, never falls behind the offset where it starts, and gets past a
completed record there exactly when it has all of it. -/
theorem Fed.doStoreReplication (fuel : ℕ) (fed : Fed s (remaining / 17))
    (same : ∀ x, offset ≤ x → x < offset + remaining → s.log.mem x = m x)
    (sane : ∀ o, Reaches m offset o → Store.completeAt m o = true → nbytesOf m o < 2 ^ 31)
    (enough : remaining < fuel) (word : offset + remaining < 2 ^ 32) :
    ∃ s' e, s.doStoreReplication fuel remaining offset = .ok (s', e) ∧ e.Past offset ∧
      (Store.completeAt m offset = true →
        (e.Past (offset + replicationNtotal m offset) ↔ GetsPast m offset remaining)) := by
  induction fuel generalizing s remaining offset with
  | zero => omega
  | succ fuel ih =>
    have positive (h : Store.completeAt m offset = true) : 17 ≤ replicationNtotal m offset :=
      le_trans (Nat.le_add_right ..) (replicationNtotal_ge (sane offset (.here offset) h))
    rw [Store.doStoreReplication]
    by_cases more : minReplicationSize ≤ remaining
    swap
    · refine ⟨s, .waiting offset, by rw [if_neg more]; rfl, le_refl offset, fun done => ?_⟩
      have := positive done
      exact ⟨fun past => absurd (show _ ≤ offset from past) (by omega), fun gets => absurd gets.1 more⟩
    rw [if_pos more]
    have least : 35 ≤ remaining := more
    have header : Agree s.log.mem m offset (offset + 16) := fun x hl hh => same x hl (by omega)
    have flags := flagsOf_congr header
    have complete : Store.completeAt s.log.mem offset = Store.completeAt m offset := by
      rw [Store.completeAt, Store.completeAt, flags]
    have total : replicationNtotal s.log.mem offset = replicationNtotal m offset := by
      rw [replicationNtotal, replicationNtotal, itemNtotal_congr header]
    have fed' : Fed s ((remaining / 17 - 1) + 1) := by rwa [Nat.sub_add_cancel (by omega)]
    have turn := fed'.replayTurn remaining offset fun done => by
      rw [nbytesOf_congr header]
      exact sane offset (.here offset) (complete ▸ done)
    rw [complete, total, flags] at turn
    rcases turn with ⟨s', run, done, plain, fits, rest, kept⟩ | ⟨run, cycle⟩ | ⟨run, stuck⟩
    · have size := positive done
      have step : ∀ o, Reaches m (offset + replicationNtotal m offset) o → Reaches m offset o :=
        fun o reach => .step done plain reach
      have again : Fed s' ((remaining - replicationNtotal m offset) / 17) :=
        { rest with enough := le_trans (by omega) rest.enough }
      obtain ⟨s'', e, tail, past, -⟩ := ih again (fun x hl hh => (kept x hl).trans
        (same x (by omega) (by omega))) (fun o reach => sane o (step o reach)) (by omega) (by omega)
      rw [run, ok_bind]
      dsimp only
      rw [Nat.mod_eq_of_lt (by omega)]
      refine ⟨s'', e, tail, ?_, fun _ => ⟨fun _ => ⟨more, Or.inr fits⟩, fun _ => past⟩⟩
      cases e with
      | waiting o => exact le_trans (Nat.le_add_right ..) past
      | restarted => trivial
    · exact ⟨_, .restarted, by rw [run, ok_bind]; rfl, trivial, fun _ =>
        ⟨fun _ => ⟨more, Or.inl cycle⟩, fun _ => trivial⟩⟩
    · refine ⟨_, .waiting offset, by rw [run, ok_bind]; rfl, le_refl offset, fun done => ?_⟩
      obtain ⟨plain, cut⟩ := stuck done
      have := positive done
      refine ⟨fun past => absurd (show _ ≤ offset from past) (by omega), fun gets => ?_⟩
      rcases gets.2 with cycle | fits
      · rw [plain] at cycle
        cases cycle
      · omega

theorem sizeToReplicate_le (size offset : ℕ) :
    sizeToReplicate size offset ≤ replicationChunk ∧ sizeToReplicate size offset ≤ size - offset := by
  unfold sizeToReplicate
  split_ifs <;> omega

/-- One round at a completed record returns, and it returns an offset past the record (or starts
over) exactly when the chunk has at least 35 bytes and, for a record other than a cycle record, holds
all of it. -/
theorem replication_progress_iff (fed : Fed s (replicationChunk / 17))
    (word : s.log.memLimit < 2 ^ 32) (inside : offset ≤ s.log.memLimit)
    (complete : Store.completeAt m offset = true)
    (sane : ∀ o, Reaches m offset o → Store.completeAt m o = true → nbytesOf m o < 2 ^ 31) :
    ∃ s' e, s.replicationRound m offset = .ok (s', e) ∧
      (e.Past (offset + replicationNtotal m offset) ↔
        GetsPast m offset (sizeToReplicate s.log.memLimit offset)) := by
  have size := sizeToReplicate_le s.log.memLimit offset
  have read : Fed (s.rdmaRead m offset (sizeToReplicate s.log.memLimit offset))
      (sizeToReplicate s.log.memLimit offset / 17) :=
    { fed with enough := le_trans (Nat.div_le_div_right size.1) fed.enough }
  have same : ∀ x, offset ≤ x → x < offset + sizeToReplicate s.log.memLimit offset →
      (s.rdmaRead m offset (sizeToReplicate s.log.memLimit offset)).log.mem x = m x :=
    fun x hl hh => if_pos ⟨hl, hh⟩
  obtain ⟨s', e, run, -, past⟩ := Fed.doStoreReplication _ read same sane (Nat.lt_succ_self _)
    (by omega)
  exact ⟨s', e, run, past complete⟩

/-- The log of a master after `set a 0 0 1` with the block of one zero byte. -/
def shortMaster : Mem := RecordKind.item.write true (fun _ => 0) 0 [97] 0 0 3

theorem replication_progress_short : ∃ s' e,
    (Store.init (settingsInit 1500000000) memlogDefaultSize 2).replicationRound shortMaster 0 =
      .ok (s', e) ∧ e.Past (0 + replicationNtotal shortMaster 0) := by
  have next : Store.completeAt shortMaster (0 + replicationNtotal shortMaster 0) = false := by
    decide +kernel
  have fed := Fed.init (n := replicationChunk / 17) (settingsInit 1500000000) memlogDefaultSize 2
    (by decide)
  obtain ⟨s', e, run, past⟩ := replication_progress_iff (m := shortMaster) fed (by decide)
    (Nat.zero_le _) (by decide +kernel) (by
      intro o reach complete
      cases reach with
      | here => decide +kernel
      | step _ _ rest =>
        cases rest with
        | here => rw [next] at complete; cases complete
        | step contra => rw [next] at contra; cases contra)
  exact ⟨s', e, run, past.2 ⟨by decide, Or.inr (by decide +kernel)⟩⟩

/-- The log of a master after `set a 0 0 2097200` with a block of zero bytes. -/
def longMaster : Mem := RecordKind.item.write true (fun _ => 0) 0 [97] 0 0 2097202

/-- The record is complete, but longer than a chunk: the replica stays at its start. -/
theorem replication_stalls : Store.completeAt longMaster 0 = true ∧
    ((Store.init (settingsInit 1500000000) memlogDefaultSize 2).replicationRound longMaster
      0).toOption.map (·.2) = some (.waiting 0) := by
  decide +kernel

end Rounds

end LogMemcached

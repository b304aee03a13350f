import LogMemcached.Entries

/-!
# Storage commands run to their end

With exact reference counts no assertion of `do_store_item` fails: what is released was held, what
is unlinked is in the table, and what is linked was not.  Only the freelist can run out.
-/

namespace LogMemcached

open ByteMem Tiling Fallible Store

variable {s s₁ s₂ s' : Store} {lay : Layout} {R : Multiset ℕ} {id newId p : ℕ} {key : Key} {r : Rec}
  {comm : NreadComm}

theorem Counted.doItemRemove_ok (h : Counted s (id ::ₘ R)) : ∃ s', s.doItemRemove id = .ok s' := by
  have slabbed := h.held (Multiset.mem_cons_self id R)
  have count := h.count id slabbed
  have small := h.small id
  rw [Multiset.count_cons_self] at count
  have decr : (s.refcountDecr id).metas id =
      { s.metas id with refcount := ((s.metas id).refcount + (2 ^ 16 - 1)) % 2 ^ 16 } :=
    Function.update_self ..
  simp only [Store.doItemRemove, check_bind_ran, slabbed, decr, Bool.not_false, decide_eq_true_eq,
    true_and]
  split_ifs with last
  · -- the last reference was not the table's
    have unlinked : (s.metas id).linked = false := by
      cases linked : (s.metas id).linked with
      | false => rfl
      | true =>
        rw [linked, Bool.toNat_true] at count
        omega
    refine ⟨(s.refcountDecr id).freelistFree id, by omega, ?_⟩
    simp only [Store.itemFree, check_bind_ran, decr, unlinked, last, pure_ran]
    simp
  · exact ⟨_, by omega, rfl⟩

theorem Counted.removeOpt_ok {it : Option ℕ} (h : Counted s (it.elim 0 ({·}) + R)) :
    ∃ s', s.removeOpt it = .ok s' := by
  cases it with
  | none => exact ⟨s, rfl⟩
  | some id => exact Counted.doItemRemove_ok (Multiset.singleton_add id R ▸ h)

theorem Counted.doItemUnlink_ok (h : Counted s R) (inv : SweepInv s lay p)
    (linked : (s.metas id).linked = true) : ∃ s', s.doItemUnlink id = .ok s' := by
  have member := (inv.linked id).2 linked
  have present : (s.assocFind (s.keyAt id)).isSome = true := by
    rw [inv.assocFind_iff.2 ⟨member, rfl⟩]
    rfl
  rw [doItemUnlink_eq linked present (inv.eraseP_key member)]
  exact (h.cut linked (inv.slabbed_of_linked linked) _).doItemRemove_ok

theorem Counted.doItemGet_ok (h : Counted s R) (inv : StoreInv s lay) (room : s.Roomy 1) :
    ∃ s' it, s.doItemGet key = .ok (s', it) := by
  unfold Store.doItemGet
  cases hit : s.assocFind key with
  | none => exact ⟨s, none, rfl⟩
  | some id =>
    obtain ⟨member, -⟩ := assocFind_linked hit
    have linked := (inv.linked id).1 member
    have held := h.refcountIncr (inv.slabbed_of_linked linked) (room.lt id member)
    have linked' : ((s.refcountIncr id).metas id).linked = true := by
      rw [sameTable_refcountIncr.linked, linked]
    dsimp only
    split_ifs
    · obtain ⟨s₁, unlink⟩ := held.doItemUnlink_ok inv.refcountIncr linked'
      obtain ⟨s₂, remove⟩ :=
        (held.doItemUnlink inv.refcountIncr linked' unlink).doItemRemove_ok
      exact ⟨s₂, none, by rw [unlink, ok_bind, remove, ok_bind]; rfl⟩
    · exact ⟨_, some id, rfl⟩

theorem Counted.doItemReplace_ok (h : Counted s R) (inv : StoreInv s lay)
    (linked : (s.metas id).linked = true) (fresh : Fresh s lay newId r) :
    ∃ s', s.doItemReplace id newId = .ok s' := by
  obtain ⟨s₁, unlink⟩ := h.doItemUnlink_ok inv linked
  have metas := inv.doItemUnlink_metas unlink fresh.unlinked
  refine ⟨s₁.linkedIn newId, ?_⟩
  rw [Store.doItemReplace, check_bind_ran, inv.slabbed_of_linked linked, bind_ran]
  exact ⟨rfl, s₁, unlink, doItemLink_ok (by rw [metas]; exact fresh.unlinked)
    (by rw [metas]; exact fresh.used)⟩

/-- There is metadata left whenever the log can serve a request of `n` bytes. -/
def Store.Provides (s : Store) (n : ℕ) : Prop :=
  (memlogAllocRetry 3 s.log n).2.isSome = true → s.freelist ≠ []

theorem doItemAlloc_ok {flags : ℕ} {nbytes : ℤ}
    (pool : deletedBit flags = false →
      s.Provides (allocTotal s.settings.useCas key.length flags nbytes)) (exptime : ℕ) :
    ∃ s' it succeed, s.doItemAlloc key flags exptime nbytes = .ok (s', it, succeed) := by
  unfold Store.doItemAlloc
  dsimp only
  rcases alloc : memlogAllocRetry 3 s.log (allocTotal s.settings.useCas key.length flags nbytes) with
    ⟨l, _ | o⟩
  · exact ⟨_, _, _, rfl⟩
  · dsimp only
    split_ifs with marked
    · exact ⟨_, _, _, rfl⟩
    · obtain ⟨id, rest, eq⟩ := List.exists_cons_of_ne_nil
        (pool (Bool.eq_false_iff.2 marked) (by rw [alloc]; rfl))
      simp only [Store.freelistAlloc, eq]
      exact ⟨_, _, _, rfl⟩

/-! ## The freelist -/

theorem freelist_doItemRemove (run : s.doItemRemove id = .ok s') (free : s.freelist ≠ []) :
    s'.freelist ≠ [] := by
  obtain ⟨-, -, ⟨-, rfl⟩ | ⟨-, -, rfl⟩⟩ := doItemRemove_ran run
  · exact free
  · exact List.cons_ne_nil _ _

theorem StoreInv.freelist_get {it : Option ℕ} (h : StoreInv s lay)
    (run : s.doItemGet key = .ok (s', it)) (free : s.freelist ≠ []) : s'.freelist ≠ [] := by
  cases doItemGet_ran run with
  | missing absent same => exact same ▸ free
  | found id hit visible same => exact same ▸ free
  | hidden id s₁ hit stale unlink remove =>
    have linked : ((s.refcountIncr id).metas id).linked = true := by
      rw [sameTable_refcountIncr.linked]
      exact (h.linked id).1 (assocFind_linked hit).1
    refine freelist_doItemRemove remove ?_
    exact freelist_doItemRemove (h.refcountIncr.doItemUnlink_ran linked unlink) free

theorem StoreInv.provides_get {it : Option ℕ} {n : ℕ} (h : StoreInv s lay)
    (run : s.doItemGet key = .ok (s', it)) (pool : s.Provides n) : s'.Provides n := by
  have log : s'.log = s.log := by
    cases it with
    | none => exact (h.get_none run).2.2.1
    | some id => exact (h.get_some run).2.2.2.2.log
  intro served
  rw [log] at served
  exact h.freelist_get run (pool served)

/-! ## `do_store_item` -/

theorem Fresh.storeLink_ok {old : Option ℕ} (fresh : Fresh s lay id r) (h : StoreInv s lay)
    (counted : Counted s R) (hit : ∀ oldId, old = some oldId → oldId ∈ s.table) :
    ∃ s', s.storeLink old id = .ok s' := by
  cases old with
  | none => exact ⟨_, doItemLink_ok fresh.unlinked fresh.used⟩
  | some oldId => exact counted.doItemReplace_ok h ((h.linked oldId).1 (hit oldId rfl)) fresh

def StillHeld (s : Store) (id : ℕ) (old new : Option ℕ) (R : Multiset ℕ) : Prop :=
  Counted s (old.elim 0 ({·}) + (new.elim 0 ({·}) + ({id} + R)))

theorem StillHeld.finish {old new : Option ℕ} (h : StillHeld s id old new R) :
    ∃ s₁ s₂, s.removeOpt old = .ok s₁ ∧ s₁.removeOpt new = .ok s₂ := by
  obtain ⟨s₁, first⟩ := Counted.removeOpt_ok h
  have counted := (Moves.removeOpt first _ h).1
  rw [zero_add] at counted
  obtain ⟨s₂, second⟩ := Counted.removeOpt_ok counted
  exact ⟨s₁, s₂, first, second⟩

theorem Looked.held {old : Option ℕ} (looked : Looked s s₁ lay id r old) (room : s.Roomy 1)
    (counted : Counted s ({id} + R)) : Counted s₁ ({id} + (old.elim 0 ({·}) + R)) := by
  have := (looked.moves room R counted).1
  rwa [add_assoc] at this

theorem stillHeld_of_moves {old : Option ℕ} (counted : Counted s ({id} + (old.elim 0 ({·}) + R)))
    (moves : Moves s {id} s' {id}) : StillHeld s' id old none R := by
  have after := (moves _ counted).1
  rw [add_left_comm] at after
  rw [StillHeld, Option.elim_none, zero_add]
  exact after

theorem combine_ok {oldId cas : ℕ} {m : Mem}
    (pool : s.Provides (allocTotal s.settings.useCas (keyOf m (s.itemOf id)).length
      (clientFlagsOf m (s.itemOf oldId)) (nbytesInt m (s.itemOf id) + nbytesInt m (s.itemOf oldId) - 2)))
    (replace : ∀ s₁ newId succeed, s.doItemAlloc (keyOf m (s.itemOf id))
      (clientFlagsOf m (s.itemOf oldId)) (exptimeOf m (s.itemOf oldId))
      (nbytesInt m (s.itemOf id) + nbytesInt m (s.itemOf oldId) - 2) =
        .ok (s₁, some newId, succeed) →
      ∃ s₂, (s₁.storeItemCopyData comm oldId newId id).doItemReplace oldId newId = .ok s₂) :
    ∃ s' result new it, Store.storeBranch.combine s comm id m cas oldId =
      .ok (s', result, new, it) := by
  unfold Store.storeBranch.combine
  split_ifs
  · exact ⟨_, _, _, _, rfl⟩
  · obtain ⟨s₁, new, succeed, alloc⟩ := doItemAlloc_ok (fun _ => pool) (exptimeOf m (s.itemOf oldId))
    rw [alloc, ok_bind]
    cases new with
    | none => exact ⟨_, _, _, _, rfl⟩
    | some newId =>
      obtain ⟨s₂, ran⟩ := replace s₁ newId succeed alloc
      refine ⟨s₂, .stored, some newId, newId, ?_⟩
      dsimp only [Store.storeLink]
      rw [ran, ok_bind]
      rfl

theorem Looked.combine_ok {oldId : ℕ} (looked : Looked s s₁ lay id r (some oldId))
    (counted : Counted s₁ ({id} + ({oldId} + R))) (short : r.key.length ≤ 250)
    (ok : s.JoinOk comm id r) (joins : comm = .append ∨ comm = .prepend)
    (pool : s.Provides (s.joinSize id oldId)) (free : s.freelist ≠ [] → s₁.freelist ≠ []) :
    ∃ s₂ outcome new it, s₁.storeBranch comm id (some oldId) = .ok (s₂, outcome, new, it) ∧
      StillHeld s₂ id (some oldId) new R := by
  obtain ⟨two, two', room⟩ := ok joins oldId looked.found
  obtain ⟨member, key⟩ := looked.hit oldId rfl
  have size := looked.joinSize oldId
  have two₁ : 2 ≤ (s₁.recAt oldId).data.length := by
    rw [Store.recAt, looked.log, looked.items]
    exact two'
  have room₁ : RoomFor s₁ (s₁.joinSize id oldId) := by rw [size]; exact room.congr looked.log
  have ran : ∃ s₂ outcome new it, Store.storeBranch.combine s₁ comm id s₁.log.mem
      (itemGetCas s₁.log.mem (s₁.itemOf id)) oldId = .ok (s₂, outcome, new, it) := by
    have pool₁ : s₁.Provides (s₁.joinSize id oldId) := fun served => by
      rw [size, looked.log] at served
      exact free (pool served)
    refine LogMemcached.combine_ok (by rw [looked.inv.useCas]; exact pool₁) fun s₂ newId succeed alloc => ?_
    change s₁.doItemAlloc (s₁.keyAt id) (s₁.clientFlags oldId) _ (s₁.joinBytes id oldId) = _ at alloc
    rw [looked.fresh.keyAt, ← key] at alloc
    obtain ⟨lay', q, refill, -⟩ := looked.fresh.refill_join looked.inv member key short two two₁ room₁
      joins alloc
    have counted := (refill.moves _ (by rw [zero_add]; exact counted)).1
    exact counted.doItemReplace_ok refill.inv ((refill.inv.linked oldId).1 refill.member) refill.fresh
  obtain ⟨s₂, outcome, new, it, ran⟩ := ran
  refine ⟨s₂, outcome, new, it, by rcases joins with rfl | rfl <;> exact ran, ?_⟩
  have held : Counted s₁ (0 + ({id} + ({oldId} + R))) := by rw [zero_add]; exact counted
  rw [StillHeld, Option.elim_some]
  obtain ⟨lay₂, joined⟩ := looked.fresh.combine looked.inv member key short two two₁ room₁ joins rfl ran
  have stays (moves : Moves s₁ 0 s₂ 0) : Counted s₂ ({oldId} + (0 + ({id} + R))) := by
    have after := (moves _ held).1
    rwa [zero_add, add_left_comm, ← zero_add ({id} + R)] at after
  generalize (new.map fun _ => it) = it' at joined
  cases joined with
  | refused _ failed inv setup view moves => exact stays moves
  | tombstone q marked hkey hflags new inv setup view moves => exact stays moves
  | joined newId q hkey suffix two relink =>
    have after := (relink.moves _ held).1
    rwa [add_left_comm ({id} : Multiset ℕ), add_left_comm ({newId} : Multiset ℕ)] at after

/-- The branches of `do_store_item`, and what they leave to be released. -/
theorem Looked.storeBranch_ok {old : Option ℕ} (looked : Looked s s₁ lay id r old)
    (counted : Counted s ({id} + R)) (room : s.Roomy 1) (alone : (s.metas id).refcount = 1)
    (short : r.key.length ≤ 250) (ok : s.JoinOk comm id r)
    (off : s.settings.lruLogEnabled = false)
    (pool : comm = .append ∨ comm = .prepend → ∀ oldId, s.find r.key = some oldId →
      s.Provides (s.joinSize id oldId)) (free : s.freelist ≠ [] → s₁.freelist ≠ []) :
    ∃ s₂ outcome new it, s₁.storeBranch comm id old = .ok (s₂, outcome, new, it) ∧
      StillHeld s₂ id old new R := by
  have held := looked.held room counted
  have quiet : s₁.settings.lruLogEnabled = false := by rw [looked.setup.settings, off]
  cases accepts : s₁.accepts comm id old with
  | true =>
    obtain ⟨s₂, link⟩ := looked.fresh.storeLink_ok looked.inv held fun oldId eq =>
      (looked.hit oldId eq).1
    obtain ⟨-, -, -, -, moves⟩ := looked.fresh.storeLink looked.inv (by rw [looked.metas, alone])
      looked.hit looked.miss link
    refine ⟨s₂, .stored, none, id, ?_, stillHeld_of_moves held moves⟩
    rw [storeBranch_accepts accepts, link, ok_bind]
    rfl
  | false =>
    by_cases joins : comm = .append ∨ comm = .prepend
    · cases old with
      | none =>
        refine ⟨s₁, .notStored, none, id, ?_, stillHeld_of_moves held (.refl s₁ _)⟩
        rcases joins with rfl | rfl <;> rfl
      | some oldId =>
        exact looked.combine_ok held short ok joins (pool joins oldId looked.found) free
    · have ran : ∃ s₂ outcome new it, s₁.storeBranch comm id old = .ok (s₂, outcome, new, it) := by
        cases old with
        | none =>
          cases comm <;> first
            | exact ⟨_, _, _, _, rfl⟩
            | cases accepts
        | some oldId =>
          have update := looked.inv.doItemUpdate_eq quiet (looked.hit oldId rfl).1
          cases comm with
          | add => exact ⟨_, _, _, _, by rw [Store.storeBranch, update, ok_bind]; rfl⟩
          | cas =>
            have differ : itemGetCas s₁.log.mem (s₁.itemOf id) ≠
                itemGetCas s₁.log.mem (s₁.itemOf oldId) := by
              simpa [Store.accepts] using accepts
            exact ⟨s₁, .exists, none, id, by rw [Store.storeBranch]; exact if_neg differ⟩
          | append => exact absurd (.inl rfl) joins
          | prepend => exact absurd (.inr rfl) joins
          | set => cases accepts
          | replace => cases accepts
      obtain ⟨s₂, outcome, new, it, branch⟩ := ran
      obtain ⟨-, rfl, -, -, moves⟩ :=
        looked.inv.storeBranch_rejects (A := {id}) accepts joins (fun _ => quiet) branch
      exact ⟨s₂, outcome, none, it, branch, stillHeld_of_moves held moves⟩

theorem Fresh.doStoreItem_ok (fresh : Fresh s lay id r) (h : StoreInv s lay)
    (counted : Counted s ({id} + R)) (room : s.Roomy 1) (alone : (s.metas id).refcount = 1)
    (short : r.key.length ≤ 250) (ok : s.JoinOk comm id r)
    (off : s.settings.lruLogEnabled = false)
    (pool : comm = .append ∨ comm = .prepend → ∀ oldId, s.find r.key = some oldId →
      s.Provides (s.joinSize id oldId)) :
    ∃ s' result, s.doStoreItem comm id = .ok (s', result) := by
  obtain ⟨s₁, old, get⟩ : ∃ s' it, s.doItemGet (s.keyAt id) = .ok (s', it) :=
    counted.doItemGet_ok h room
  have looked := fresh.looked h get
  obtain ⟨s₂, outcome, new, it, branch, held⟩ := looked.storeBranch_ok counted room alone short ok off
    pool (h.freelist_get get)
  obtain ⟨s₃, s₄, removeOld, removeNew⟩ := held.finish
  refine ⟨if outcome = .stored then s₄.markItemStored it else s₄, outcome, ?_⟩
  rw [Store.doStoreItem, get, ok_bind]
  dsimp only
  rw [branch, ok_bind]
  dsimp only
  rw [removeOld, ok_bind, removeNew, ok_bind]
  rfl

/-! ## Commands that write an item again -/

theorem Counted.doItemGet_some (h : Counted s R) (inv : StoreInv s lay) (room : s.Roomy 1)
    (get : s.doItemGet key = .ok (s₁, some id)) : Counted s₁ ({id} + R) := by
  have moves : Moves s 0 s₁ {id} := .get inv room.lt get
  exact (moves R (by rw [zero_add]; exact h)).1

theorem Refill.replace_ok {lay' : Layout} (refill : Refill s s₂ lay lay' id newId r)
    (counted : Counted s ({id} + R)) :
    ∃ s₃, s₂.doItemReplace id newId = .ok s₃ ∧ Counted s₃ ({newId} + ({id} + R)) := by
  have held : Counted s (0 + ({id} + R)) := by rw [zero_add]; exact counted
  obtain ⟨s₃, replace⟩ := (refill.moves _ held).1.doItemReplace_ok refill.inv
    ((refill.inv.linked id).1 refill.member) refill.fresh
  exact ⟨s₃, replace, ((refill.relink replace).moves _ held).1⟩

theorem Counted.doItemTouch_ok {exptime : ℕ} (h : Counted s R) (inv : StoreInv s lay)
    (roomy : s.Roomy 1) (short : key.length ≤ 250)
    (room : ∀ n, s.touchRequest key = some n → RoomFor s n)
    (pool : ∀ n, s.touchRequest key = some n → s.Provides n) :
    ∃ s' it, s.doItemTouch key exptime = .ok (s', it) := by
  obtain ⟨s₁, old, get⟩ : ∃ s' it, s.doItemGet key = .ok (s', it) := h.doItemGet_ok inv roomy
  rw [Store.doItemTouch, get, ok_bind]
  cases old with
  | none => exact ⟨s₁, none, rfl⟩
  | some id =>
    obtain ⟨-, member, hkey, inv₁, -⟩ := inv.get_some get
    have held := h.doItemGet_some inv roomy get
    obtain ⟨request, ok⟩ := inv.allocOk_touch get short room
    have pool₁ := inv.provides_get get (pool _ request)
    rw [Store.copySize, ← inv₁.useCas] at pool₁
    obtain ⟨s₂, new, succeed, alloc⟩ := doItemAlloc_ok (fun _ => pool₁) exptime
    dsimp only
    rw [slice_keyAt hkey, show clientFlagsOf s₁.log.mem (s₁.itemOf id) = s₁.clientFlags id from rfl,
      alloc, ok_bind]
    have moves := (Moves.alloc inv₁ ok alloc).1
    cases new with
    | none =>
      have after : Counted s₂ ({id} + R) := by
        have := (moves _ (by rw [zero_add]; exact held)).1
        rwa [Option.elim_none, zero_add] at this
      obtain ⟨s₃, remove⟩ := Counted.doItemRemove_ok (Multiset.singleton_add id R ▸ after)
      exact ⟨s₃, none, by dsimp only; rw [remove, ok_bind]; rfl⟩
    | some newId =>
      obtain ⟨eq, -⟩ := inv₁.nbytesInt_recAt (inv₁.recAt_mem member) rfl
      obtain ⟨lay', q, refill, -⟩ := StoreInv.refill inv₁ member ok alloc
        (fun lay₁ q inv fresh length kept => fresh.copyData id inv (by
          rw [length, eq, (kept id (inv₁.recAt_mem member) (inv₁.busy member)).1]
          rfl))
      obtain ⟨s₄, replace, counted₄⟩ := refill.replace_ok held
      rw [add_left_comm, Multiset.singleton_add] at counted₄
      obtain ⟨s₅, remove⟩ := counted₄.doItemRemove_ok
      have counted₅ := counted₄.doItemRemove remove
      rw [Multiset.singleton_add] at counted₅
      obtain ⟨s₆, remove'⟩ := counted₅.doItemRemove_ok
      refine ⟨s₆.markItemStored newId, some newId, ?_⟩
      dsimp only
      rw [replace, ok_bind, remove, ok_bind, remove', ok_bind]
      rfl

end LogMemcached

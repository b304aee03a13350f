import LogMemcached.CleanerRuns
import LogMemcached.Progress
import LogMemcached.ServerRuns

/-!
# The metadata pool

`freelist_init` makes as many `item_metadata` as fit into the size of the log, and `do_item_alloc`
asserts that one is left whenever the log had room for a record.  The metadata in use have records
of their own in the log, so that this holds as long as no record is shorter than its metadata: the
steps that give metadata back are `Yields`, those that take one are `Draws`.
-/

namespace LogMemcached

open ByteMem Tiling Fallible Store Transition

variable {s s₁ s₂ s' : Store} {lay lay' : Layout} {key : Key} {id newId n : ℕ} {comm : NreadComm}

/-! ## Giving metadata back -/

theorem yields_doItemLink (run : s.doItemLink id = .ok s') : Yields s s' := by
  obtain ⟨-, -, rfl⟩ := doItemLink_eq run
  exact yields_update rfl fun used => ⟨used, rfl⟩

theorem yields_doItemReplace (run : s.doItemReplace id newId = .ok s') : Yields s s' := by
  rw [Store.doItemReplace, check_bind_ran] at run
  obtain ⟨s₁, unlink, link⟩ := bind_ran.1 run.2
  exact (sameLog_doItemUnlink unlink).yields.trans (yields_doItemLink link)

theorem yields_storeLink {old : Option ℕ} (run : s.storeLink old id = .ok s') : Yields s s' := by
  cases old with
  | none => exact yields_doItemLink run
  | some oldId => exact yields_doItemReplace run

theorem yields_removeAll {ids : List ℕ} (run : s.removeAll ids = .ok s') : Yields s s' := by
  induction ids generalizing s with
  | nil =>
    obtain rfl := pure_ran.1 run
    exact .refl s
  | cons id ids ih =>
    obtain ⟨s₁, remove, run⟩ := bind_ran.1 run
    exact (sameLog_doItemRemove remove).yields.trans (ih run)

theorem yields_doItemUpdate {new : Option ℕ} (off : s.settings.lruLogEnabled = false)
    (run : s.doItemUpdate id = .ok (s', new)) : Yields s s' := by
  obtain ⟨-, rfl | ⟨-, rfl⟩⟩ := doItemUpdate_quiet off run
  · exact .refl _
  · exact yields_update rfl fun used => ⟨used, rfl⟩

theorem yields_getKey {returnCas : Bool} {hit : Option (ℕ × List Segment)}
    (off : s.settings.lruLogEnabled = false) (run : s.getKey returnCas key = .ok (s', hit)) :
    Yields s s' ∧ s'.settings = s.settings := by
  obtain ⟨⟨s₁, it⟩, get, run⟩ := bind_ran.1 run
  have looked := (sameLog_doItemGet get).yields
  have same := (sameLog_doItemGet get).settings
  cases it with
  | none =>
    cases pure_ran.1 run
    exact ⟨looked, same⟩
  | some id =>
    obtain ⟨⟨s₂, new⟩, update, run⟩ := bind_ran.1 run
    have off₁ : s₁.settings.lruLogEnabled = false := by rw [same, off]
    have updated := yields_doItemUpdate off₁ update
    obtain ⟨rfl, unchanged⟩ := doItemUpdate_quiet off₁ update
    cases pure_ran.1 run
    refine ⟨looked.trans updated, ?_⟩
    rcases unchanged with rfl | ⟨-, rfl⟩ <;> exact same

theorem yields_processGetKeys {returnCas : Bool} {items : List ℕ} {segments : List Segment}
    {keys : List Key} {response : Option (List ℕ × List Segment)}
    (off : s.settings.lruLogEnabled = false)
    (run : s.processGetKeys returnCas items segments keys = .ok (s', response)) : Yields s s' := by
  induction keys generalizing s items segments with
  | nil =>
    cases pure_ran.1 run
    exact .refl _
  | cons key keys ih =>
    rw [Store.processGetKeys] at run
    split_ifs at run
    · obtain ⟨s₁, remove, run⟩ := bind_ran.1 run
      cases pure_ran.1 run
      exact yields_removeAll remove
    · obtain ⟨⟨s₁, hit⟩, first, run⟩ := bind_ran.1 run
      obtain ⟨yields, same⟩ := yields_getKey off first
      have off₁ : s₁.settings.lruLogEnabled = false := by rw [same, off]
      cases hit with
      | none => exact yields.trans (ih off₁ run)
      | some hit => exact yields.trans (ih off₁ run)

theorem yields_memlogEvict (run : s.memlogEvict = .ok s') : Yields s s' := by
  unfold Store.memlogEvict at run
  dsimp only at run
  split_ifs at run
  · obtain rfl := pure_ran.1 run
    exact .refl s
  · split at run
    · obtain rfl := pure_ran.1 run
      exact .refl s
    · split_ifs at run
      · exact (sameLog_doItemUnlink run).yields
      · obtain rfl := pure_ran.1 run
        exact .refl s

theorem yields_memlogFreeChunk {fuel freed : ℕ} (run : s.memlogFreeChunk fuel freed = .ok (s', n)) :
    Yields s s' := by
  induction fuel generalizing s freed with
  | zero => cases run
  | succ fuel ih =>
    rw [Store.memlogFreeChunk] at run
    split_ifs at run
    · cases pure_ran.1 run
      exact .refl _
    · obtain ⟨⟨s₁, k⟩, free, run⟩ := bind_ran.1 run
      obtain ⟨s₂, evict, free⟩ := bind_ran.1 free
      cases pure_ran.1 free
      have first := (yields_memlogEvict evict).trans
        (.of_metas rfl : Yields s₂ { s₂ with log := s₂.log.freeItem.1 })
      exact first.trans (ih run)
    · cases pure_ran.1 run
      exact .refl _

theorem yields_lruMaintainerFree (run : s.lruMaintainerFree = .ok s') : Yields s s' := by
  obtain ⟨-, n, clean⟩ | rfl := lruMaintainerFree_ran run
  · obtain ⟨⟨s₁, k⟩, chunk, clean⟩ := bind_ran.1 clean
    cases pure_ran.1 clean
    exact (yields_memlogFreeChunk chunk).trans (.of_metas rfl)
  · exact .refl s

/-! ## Taking metadata -/

/-- Besides what was in use, one item is: its record is new, has `n` bytes and ends the log. -/
structure Draws (s s' : Store) (lay : Layout) (n newId : ℕ) : Prop where
  others : ∀ id ≠ newId, (s'.metas id).slabbed = false →
    (s.metas id).slabbed = false ∧ s'.itemOf id = s.itemOf id
  ends : s'.itemOf newId + n = s'.log.memCurrent
  fresh : ∀ b ∈ lay.live, b.off ≠ s'.itemOf newId

theorem Yields.draws (first : Yields s s₁) (h : Draws s₁ s' lay n newId) :
    Draws s s' lay n newId := by
  refine ⟨fun id other used => ?_, h.ends, h.fresh⟩
  obtain ⟨used₁, item₁⟩ := h.others id other used
  obtain ⟨used, item⟩ := first id used₁
  exact ⟨used, item₁.trans item⟩

theorem Draws.yields (h : Draws s s₁ lay n newId) (later : Yields s₁ s')
    (item : s'.itemOf newId = s₁.itemOf newId) (current : s'.log.memCurrent = s₁.log.memCurrent) :
    Draws s s' lay n newId := by
  refine ⟨fun id other used => ?_, by rw [item, current, h.ends], by rw [item]; exact h.fresh⟩
  obtain ⟨used₁, item₁⟩ := later id used
  obtain ⟨used, item⟩ := h.others id other used₁
  exact ⟨used, item₁.trans item⟩

theorem memlogAllocRetry_current {k o size : ℕ} {l l' : Memlog}
    (run : memlogAllocRetry k l size = (l', some o)) : l'.memCurrent = o + size := by
  induction k generalizing l with
  | zero => cases (Prod.mk.inj run).2
  | succ k ih =>
    rw [memlogAllocRetry] at run
    cases alloc : memoryAllocate l size with
    | mk l₁ it =>
      rw [alloc] at run
      cases it with
      | none => exact ih run
      | some o₁ =>
        obtain ⟨rfl, eq⟩ := Prod.mk.inj run
        obtain rfl := Option.some.inj eq
        unfold memoryAllocate at alloc
        dsimp only at alloc
        split_ifs at alloc
        · cases (Prod.mk.inj alloc).2
        · obtain ⟨rfl, eq⟩ := Prod.mk.inj alloc
          rw [← Option.some.inj eq]

theorem doItemAlloc_current {flags exptime : ℕ} {nbytes : ℤ} {succeed : Bool}
    (run : s.doItemAlloc key flags exptime nbytes = .ok (s', some id, succeed)) :
    s'.itemOf id + allocTotal s.settings.useCas key.length flags nbytes = s'.log.memCurrent := by
  obtain ⟨l, got, alloc, ran⟩ := doItemAlloc_ran run
  cases ran with
  | item plain free shape => simp [shape, Store.itemOf, memlogAllocRetry_current alloc]

theorem StoreInv.draws_alloc {flags exptime : ℕ} {nbytes : ℤ} {it : Option ℕ} {succeed : Bool}
    (h : StoreInv s lay) (ok : AllocOk s key flags nbytes)
    (run : s.doItemAlloc key flags exptime nbytes = .ok (s', it, succeed)) :
    it = none ∧ Yields s s' ∨
      ∃ id, it = some id ∧ Draws s s' lay (allocTotal true key.length flags nbytes) id := by
  obtain ⟨lay', inv, -, -, -, allocates⟩ := h.doItemAlloc ok run
  cases allocates with
  | failed live shape => exact .inl ⟨rfl, shape ▸ .of_metas rfl⟩
  | tombstone o marked live shape written => exact .inl ⟨rfl, shape ▸ .of_metas rfl⟩
  | item id o rest plain live free shape written =>
    have item : s'.itemOf id = o := by
      rw [shape]
      simp [Store.itemOf]
    refine .inr ⟨id, rfl, fun k other used => ?_, ?_, fun b hb => ?_⟩
    · have same : s'.metas k = s.metas k := by
        rw [shape]
        exact Function.update_of_ne other ..
      rw [same] at used
      exact ⟨used, congrArg ItemMeta.item same⟩
    · rw [← h.useCas]
      exact doItemAlloc_current run
    · rw [item]
      have apart := List.pairwise_append.1 (live ▸ inv.log.pairwise)
      have disjoint := apart.2.2 b hb _ (List.mem_singleton_self _)
      have header := (h.log.sized hb).header
      have header' := (inv.log.sized (b := ⟨o, allocTotal true key.length flags nbytes⟩)
        (by rw [live]; simp)).header
      simp only [Block.Disjoint, Block.stop] at disjoint
      dsimp only at header'
      omega

theorem Draws.setMem (h : Draws s s₁ lay n newId) (m : Mem) : Draws s (s₁.setMem m) lay n newId :=
  h.yields (.of_metas rfl) rfl rfl

theorem Draws.replace (h : Draws s s₁ lay n newId) (run : s₁.doItemReplace id newId = .ok s') :
    Draws s s' lay n newId ∧ (s'.metas newId).linked = true := by
  have later := yields_doItemReplace run
  rw [Store.doItemReplace, check_bind_ran] at run
  obtain ⟨s₂, unlink, link⟩ := bind_ran.1 run.2
  obtain ⟨-, used, rfl⟩ := doItemLink_eq link
  have here : (s₂.linkedIn newId).metas newId = _ := Function.update_self ..
  have current : (s₂.linkedIn newId).log.memCurrent = s₁.log.memCurrent := by
    rw [← (sameLog_doItemUnlink unlink).log]
    rfl
  refine ⟨h.yields later (later newId ?_).2 current, ?_⟩
  · rw [here]
    exact used
  · rw [here]

/-- A command yields metadata, or draws one for its request and links it. -/
def Allots (s s' : Store) (lay : Layout) (request : Option ℕ) : Prop :=
  Yields s s' ∨ ∃ n newId, request = some n ∧ Draws s s' lay n newId ∧
    (s'.metas newId).linked = true

theorem Allots.before {request : Option ℕ} (h : Allots s₁ s' lay request) (first : Yields s s₁) :
    Allots s s' lay request := by
  rcases h with yields | ⟨n, newId, eq, draws, linked⟩
  · exact .inl (first.trans yields)
  · exact .inr ⟨n, newId, eq, first.draws draws, linked⟩

theorem Allots.after {request : Option ℕ} (h : Allots s s₁ lay request) (later : Yields s₁ s')
    (same : SameTable s₁ s') : Allots s s' lay request := by
  rcases h with yields | ⟨n, newId, eq, draws, linked⟩
  · exact .inl (yields.trans later)
  · refine .inr ⟨n, newId, eq, draws.yields later (same.item newId) (by rw [same.log]), ?_⟩
    rw [same.linked, linked]

theorem Allots.remove {request : Option ℕ} (h : Allots s s₁ lay request)
    (run : s₁.doItemRemove id = .ok s') : Allots s s' lay request :=
  h.after (sameLog_doItemRemove run).yields (sameTable_doItemRemove run)

theorem Allots.removeOpt {it request : Option ℕ} (h : Allots s s₁ lay request)
    (run : s₁.removeOpt it = .ok s') : Allots s s' lay request :=
  h.after (sameLog_removeOpt run).yields (sameTable_removeOpt run)

theorem Allots.setMem {request : Option ℕ} (h : Allots s s₁ lay request) (m : Mem) :
    Allots s (s₁.setMem m) lay request := by
  rcases h with yields | ⟨n, newId, eq, draws, linked⟩
  · exact .inl (yields.trans (.of_metas rfl))
  · exact .inr ⟨n, newId, eq, draws.setMem m, linked⟩

theorem StoreInv.allots_touch {exptime : ℕ} {it : Option ℕ} (h : StoreInv s lay)
    (short : key.length ≤ 250) (room : ∀ n, s.touchRequest key = some n → RoomFor s n)
    (run : s.doItemTouch key exptime = .ok (s', it)) : Allots s s' lay (s.touchRequest key) := by
  obtain ⟨⟨s₁, old⟩, get, run⟩ := bind_ran.1 run
  have looked := (sameLog_doItemGet get).yields
  cases old with
  | none =>
    cases pure_ran.1 run
    exact .inl looked
  | some id =>
    obtain ⟨-, -, hkey, inv₁, -⟩ := h.get_some get
    obtain ⟨⟨s₂, new, succeed⟩, alloc, run⟩ := bind_ran.1 run
    obtain ⟨request, ok⟩ := h.allocOk_touch get short room
    rw [slice_keyAt hkey] at alloc
    rcases StoreInv.draws_alloc inv₁ ok alloc with ⟨rfl, yields⟩ | ⟨newId, rfl, draws⟩
    · obtain ⟨s₃, remove, run⟩ := bind_ran.1 run
      cases pure_ran.1 run
      exact .inl (looked.trans (yields.trans (sameLog_doItemRemove remove).yields))
    · obtain ⟨s₄, replace, run⟩ := bind_ran.1 run
      obtain ⟨s₅, remove, run⟩ := bind_ran.1 run
      obtain ⟨s₆, remove', run⟩ := bind_ran.1 run
      cases pure_ran.1 run
      have linked : Allots s₁ s₄ lay (s.touchRequest key) :=
        .inr ⟨_, newId, request, (draws.setMem _).replace replace⟩
      exact (((linked.remove remove).remove remove').setMem _).before looked

theorem StoreInv.allots_deltaStore {value : ℕ} {result : DeltaResult} (h : StoreInv s lay)
    (short : (s.keyAt id).length ≤ 250) (small : value < 2 ^ 64)
    (request : ℕ) (eq : request = allocTotal true (s.keyAt id).length (s.deltaFlags id)
      ((CText.decimal value).length + 2)) (room : RoomFor s request)
    (run : s.deltaStore id value = .ok (s', result)) : Allots s s' lay (some request) := by
  subst eq
  have ok := (SameTable.refl s).allocOk_delta rfl short small room
  unfold Store.deltaStore at run
  dsimp only at run
  split_ifs at run
  · obtain ⟨⟨s₂, new, succeed⟩, alloc, run⟩ := bind_ran.1 run
    rcases h.draws_alloc ok alloc with ⟨rfl, yields⟩ | ⟨newId, rfl, draws⟩
    · obtain ⟨s₃, remove, run⟩ := bind_ran.1 run
      cases pure_ran.1 run
      exact .inl (yields.trans (sameLog_doItemRemove remove).yields)
    · obtain ⟨s₄, replace, run⟩ := bind_ran.1 run
      obtain ⟨s₅, remove, run⟩ := bind_ran.1 run
      obtain ⟨s₆, remove', run⟩ := bind_ran.1 run
      cases pure_ran.1 run
      have linked : Allots s s₄ lay _ := .inr ⟨_, newId, rfl, (draws.setMem _).replace replace⟩
      exact (((linked.setMem _).setMem _).remove remove).remove remove'
  · obtain ⟨s₃, remove, run⟩ := bind_ran.1 run
    cases pure_ran.1 run
    exact .inl (sameLog_doItemRemove remove).yields
  · cases pure_ran.1 run
    exact .inl (.refl _)

theorem StoreInv.allots_delta {incr : Bool} {delta : ℕ} {cas : Option ℕ} {result : DeltaResult}
    (h : StoreInv s lay) (short : key.length ≤ 250)
    (room : ∀ n, s.deltaRequest key incr delta = some n → RoomFor s n)
    (run : s.doAddDelta key incr delta cas = .ok (s', result)) :
    Allots s s' lay (s.deltaRequest key incr delta) := by
  obtain ⟨⟨s₁, old⟩, get, run⟩ := bind_ran.1 run
  have looked := (sameLog_doItemGet get).yields
  cases old with
  | none =>
    cases pure_ran.1 run
    exact .inl looked
  | some id =>
    obtain ⟨found, member, hkey, inv₁, table⟩ := h.get_some get
    dsimp only at run
    split_ifs at run with tiny mismatch
    · cases pure_ran.1 run
      exact .inl looked
    · obtain ⟨s₂, remove, run⟩ := bind_ran.1 run
      cases pure_ran.1 run
      exact .inl (looked.trans (sameLog_doItemRemove remove).yields)
    · have text := table.dataText id
      rw [text] at run
      cases parse : safeStrtoull (s.dataText id) with
      | none =>
        simp only [parse] at run
        obtain ⟨s₂, remove, run⟩ := bind_ran.1 run
        cases pure_ran.1 run
        exact .inl (looked.trans (sameLog_doItemRemove remove).yields)
      | some value =>
        simp only [parse] at run
        have flags := table.deltaFlags id
        have request : s.deltaRequest key incr delta = some (allocTotal true key.length
            (s.deltaFlags id) ((CText.decimal (deltaValue incr value delta)).length + 2)) := by
          rw [Store.deltaRequest, found, Option.bind_some, parse]
          rfl
        rw [request]
        refine Allots.before ?_ looked
        exact StoreInv.allots_deltaStore inv₁ (by rw [hkey]; exact short)
          (deltaValue_lt (safeStrtoull_lt parse)) _ (by rw [hkey, flags])
          ((room _ request).congr table.log) run

def Store.joinRequest (s : Store) (comm : NreadComm) (id : ℕ) : Option ℕ :=
  if comm = .append ∨ comm = .prepend then (s.find (s.keyAt id)).map (s.joinSize id) else none

theorem Fresh.allots_combine {oldId it : ℕ} {cas : ℕ} {result : StoreItemType} {new : Option ℕ}
    {r : Rec} (fresh : Fresh s lay id r) (h : StoreInv s lay) (member : oldId ∈ s.table)
    (hkey : s.keyAt oldId = r.key) (short : r.key.length ≤ 250) (two : 2 ≤ r.data.length)
    (room : RoomFor s (s.joinSize id oldId))
    (run : Store.storeBranch.combine s comm id s.log.mem cas oldId = .ok (s', result, new, it)) :
    Allots s s' lay (some (s.joinSize id oldId)) := by
  unfold Store.storeBranch.combine at run
  split_ifs at run
  · cases pure_ran.1 run
    exact .inl (.refl _)
  · obtain ⟨⟨s₁, new', succeed⟩, alloc, run⟩ := bind_ran.1 run
    obtain ⟨ok, -⟩ := fresh.allocOk_join h member hkey short two room
    change s.doItemAlloc (s.keyAt id) (s.clientFlags oldId) _ (s.joinBytes id oldId) = _ at alloc
    rw [hkey, ← fresh.keyAt] at ok
    rcases h.draws_alloc ok alloc with ⟨rfl, yields⟩ | ⟨newId, rfl, draws⟩
    · cases pure_ran.1 run
      exact .inl yields
    · obtain ⟨s₂, replace, run⟩ := bind_ran.1 run
      cases pure_ran.1 run
      exact .inr ⟨_, _, rfl, (draws.setMem _).replace replace⟩

theorem Looked.allots {old new : Option ℕ} {outcome : StoreItemType} {it : ℕ} {r : Rec}
    (looked : Looked s s₁ lay id r old) (short : r.key.length ≤ 250) (ok : s.JoinOk comm id r)
    (off : s.settings.lruLogEnabled = false)
    (run : s₁.storeBranch comm id old = .ok (s', outcome, new, it)) :
    Allots s₁ s' lay (if comm = .append ∨ comm = .prepend then (s.find r.key).map (s.joinSize id)
      else none) := by
  have quiet : s₁.settings.lruLogEnabled = false := by rw [looked.setup.settings, off]
  obtain ⟨-, link⟩ | ⟨-, -, rfl | ⟨-, oldId, update⟩⟩ | ⟨oldId, eq, joins, run⟩ :=
    storeBranch_cases (fun _ => quiet) run
  · exact .inl (yields_storeLink link)
  · exact .inl (.refl _)
  · exact .inl (yields_doItemUpdate quiet update)
  · have found : s.find r.key = some oldId := looked.found.trans eq
    obtain ⟨two, -, room⟩ := ok joins oldId found
    obtain ⟨member, hkey⟩ := looked.hit oldId eq
    have size := looked.joinSize oldId
    rw [if_pos joins, found, Option.map_some, ← size]
    exact looked.fresh.allots_combine looked.inv member hkey short two
      (by rw [size]; exact room.congr looked.log) run

theorem Fresh.allots_complete {reply : Reply} {r : Rec} (fresh : Fresh s lay id r)
    (h : StoreInv s lay) (short : r.key.length ≤ 250) (ok : s.JoinOk comm id r)
    (off : s.settings.lruLogEnabled = false)
    (run : s.completeNreadAscii comm id = .ok (s', reply)) :
    Allots s s' lay (s.joinRequest comm id) := by
  obtain ⟨⟨s₁, _⟩, first, run⟩ := bind_ran.1 run
  obtain ⟨s₂, remove, run⟩ := bind_ran.1 run
  cases pure_ran.1 run
  refine Allots.remove ?_ remove
  unfold Store.storeBlock at first
  split_ifs at first
  · obtain ⟨⟨s₃, result⟩, store, first⟩ := bind_ran.1 first
    cases pure_ran.1 first
    obtain ⟨⟨s₄, old⟩, get, store⟩ := bind_ran.1 store
    have looked := fresh.looked h get
    obtain ⟨⟨s₅, outcome, new, it⟩, branch, store⟩ := bind_ran.1 store
    obtain ⟨s₆, removeOld, store⟩ := bind_ran.1 store
    obtain ⟨s₇, removeNew, store⟩ := bind_ran.1 store
    have allots := ((looked.allots short ok off branch).removeOpt removeOld).removeOpt removeNew
    rw [← fresh.keyAt] at allots
    cases pure_ran.1 store
    have allots := allots.before (sameLog_doItemGet get).yields
    split_ifs
    · exact allots.setMem _
    · exact allots
  · cases pure_ran.1 first
    exact .inl (.of_metas rfl)

theorem StoreInv.draws_update {flags cas : ℕ} {exptime vlen : ℤ} {update : Update}
    (h : StoreInv s lay) (word : flags < 2 ^ 32)
    (room : ∀ n, updateRequest key flags vlen = some n → RoomFor s n)
    (run : s.processUpdateCommand comm key flags exptime vlen cas = .ok (s', update)) :
    (∃ r, update = .reply r) ∧ Yields s s' ∨
      ∃ n id, update = .upload id ∧ updateRequest key flags vlen = some n ∧
        Draws s s' lay n id := by
  unfold Store.processUpdateCommand at run
  split_ifs at run with long range
  · cases pure_ran.1 run
    exact .inl ⟨⟨_, rfl⟩, .refl _⟩
  · cases pure_ran.1 run
    exact .inl ⟨⟨_, rfl⟩, .refl _⟩
  · obtain ⟨⟨s₁, it, succeed⟩, alloc, run⟩ := bind_ran.1 run
    have request : updateRequest key flags vlen = some _ := if_neg (not_or.2 ⟨long, range⟩)
    have ok : AllocOk s key flags (vlen + 2) :=
      ⟨not_lt.1 long, word, by omega, by omega, (room _ request).size, (room _ request).wrap⟩
    rcases h.draws_alloc ok alloc with ⟨rfl, yields⟩ | ⟨newId, rfl, draws⟩
    · obtain ⟨s₂, stale, run⟩ := bind_ran.1 run
      cases pure_ran.1 run
      exact .inl ⟨⟨_, rfl⟩, yields.trans (sameLog_unlinkStale stale).yields⟩
    · cases pure_ran.1 run
      exact .inr ⟨_, newId, rfl, request, draws.setMem _⟩

theorem yields_deleteLog {succeed : Bool} (h : StoreInv s lay) (short : key.length ≤ 250)
    (room : RoomFor s (deleteRequest key)) (run : s.deleteLog key = .ok (s', succeed)) :
    Yields s s' := by
  obtain ⟨⟨s₁, it, done⟩, alloc, run⟩ := bind_ran.1 run
  have ok : AllocOk s key itemDeleted.toNat 0 :=
    ⟨short, by decide, le_rfl, by norm_num, room.size, room.wrap⟩
  obtain ⟨lay', inv, -, -, -, allocates⟩ := h.doItemAlloc ok alloc
  cases pure_ran.1 run
  cases allocates with
  | failed live shape => exact shape ▸ .of_metas rfl
  | tombstone o marked live shape written => exact shape ▸ .of_metas rfl
  | item id o rest plain live free shape written => exact absurd plain (by decide)

/-- The pool is not empty when the log serves a request for a record as long as its metadata. -/
def Store.Left (s : Store) : Prop :=
  ∀ n, sizeofItemMetadata ≤ n → RoomFor s n → (memlogAllocRetry 3 s.log n).2.isSome = true →
    s.freelist ≠ []

end LogMemcached

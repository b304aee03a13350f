import LogMemcached.EntrySteps
import LogMemcached.Progress

/-!
# What storage commands do

`Contents.store` says what a storage command answers and what it makes of the cache; `do_store_item`
runs to its end and does just that.
-/

namespace LogMemcached

open ByteMem CText Tiling Fallible Store

/-! ## The storage commands on the cache -/

/-- The data of `append` and `prepend`, from the data found and the data sent. -/
def NreadComm.combined (comm : NreadComm) (old new : List UInt8) : List UInt8 :=
  if comm = .append then joinBlocks old new else joinBlocks new old

namespace Contents

/-- `append` and `prepend` on an entry that can be seen.  A request id other than zero, which no
ASCII line gives, has to match. -/
def combine (c : Contents) (comm : NreadComm) (key : Key) (old req : Content) (served : Bool) :
    Contents × StoreItemType :=
  if req.cas ≠ 0 ∧ req.cas ≠ old.cas then (c, .exists)
  else if served then
    (c.link key { old with data := comm.combined old.data req.data }, .stored)
  else (c, .notStored)

/-- A storage command with the entry `req` that was sent.  The log may have no room for the record
that `append` and `prepend` make; then they are not `served`. -/
def store (c : Contents) (comm : NreadComm) (key : Key) (req : Content) (served : Bool) :
    Contents × StoreItemType :=
  match comm, c.visible key with
  | .set, _ => (c.link key req, .stored)
  | .add, none => (c.link key req, .stored)
  | .add, some _ => (c.access key, .notStored)
  | .replace, none => (c.remove key, .notStored)
  | .replace, some _ => (c.link key req, .stored)
  | .append, none => (c.remove key, .notStored)
  | .append, some old => c.combine .append key old req served
  | .prepend, none => (c.remove key, .notStored)
  | .prepend, some old => c.combine .prepend key old req served
  | .cas, none => (c.remove key, .notFound)
  | .cas, some old => if req.cas = old.cas then (c.link key req, .stored) else (c, .exists)

variable {c : Contents} {comm : NreadComm} {key : Key} {old req : Content} {served : Bool}

theorem store_none (shown : c.visible key = none) : c.store comm key req served =
    match comm with
    | .set => (c.link key req, .stored)
    | .add => (c.link key req, .stored)
    | .cas => (c.remove key, .notFound)
    | _ => (c.remove key, .notStored) := by
  cases comm <;> simp only [store, shown]

theorem store_some (shown : c.visible key = some old) : c.store comm key req served =
    match comm with
    | .set => (c.link key req, .stored)
    | .add => (c.access key, .notStored)
    | .replace => (c.link key req, .stored)
    | .append => c.combine .append key old req served
    | .prepend => c.combine .prepend key old req served
    | .cas => if req.cas = old.cas then (c.link key req, .stored) else (c, .exists) := by
  cases comm <;> simp only [store, shown]

/-- A command other than `append` and `prepend` that goes through links what was sent. -/
theorem store_stored (first : comm ≠ .append ∧ comm ≠ .prepend)
    (done : (c.store comm key req served).2 = .stored) :
    (c.store comm key req served).1 = c.link key req := by
  cases shown : c.visible key with
  | none =>
    rw [store_none shown] at done ⊢
    cases comm <;> first | rfl | cases done
  | some old =>
    rw [store_some shown] at done ⊢
    cases comm with
    | set => rfl
    | add => cases done
    | replace => rfl
    | append => exact absurd rfl first.1
    | prepend => exact absurd rfl first.2
    | cas =>
      dsimp only at done ⊢
      split_ifs at done ⊢
      rfl

theorem turns_store {P : Content → Prop} (sent : P req)
    (joined : ∀ old, c.visible key = some old →
      P { old with data := comm.combined old.data req.data }) :
    c.Turns (c.store comm key req served).1 key P := by
  have links : c.Turns (c.link key req) key P := .inr ⟨req, sent, .refl _⟩
  cases shown : c.visible key with
  | none =>
    rw [store_none shown]
    cases comm <;> first | exact links | exact .inl (fades_remove _ _)
  | some old =>
    have joins : c.Turns (c.combine comm key old req served).1 key P := by
      unfold combine
      split_ifs
      · exact .inl (.refl _)
      · exact .inr ⟨_, joined old shown, .refl _⟩
      · exact .inl (.refl _)
    rw [store_some shown]
    cases comm with
    | add => exact .inl (fades_access shown)
    | set => exact links
    | replace => exact links
    | append => exact joins
    | prepend => exact joins
    | cas =>
      dsimp only
      split_ifs
      · exact links
      · exact .inl (.refl _)

end Contents

variable {s s₁ s₂ s₃ s' : Store} {lay : Layout} {id newId : ℕ} {key : Key} {r : Rec}
  {comm : NreadComm} {R : Multiset ℕ}

/-- The log has room for the record that `append` or `prepend` would make. -/
def Store.joinServed (s : Store) (id : ℕ) : Bool :=
  match s.find (s.keyAt id) with
  | none => false
  | some oldId => (memlogAllocRetry 3 s.log (s.joinSize id oldId)).2.isSome

theorem doItemAlloc_served {flags exptime : ℕ} {nbytes : ℤ} {it : Option ℕ} {succeed : Bool}
    (plain : deletedBit flags = false)
    (run : s.doItemAlloc key flags exptime nbytes = .ok (s', it, succeed)) :
    (memlogAllocRetry 3 s.log (allocTotal s.settings.useCas key.length flags nbytes)).2.isSome =
      it.isSome := by
  obtain ⟨l, got, alloc, ran⟩ := doItemAlloc_ran run
  rw [alloc]
  cases ran with
  | full => rfl
  | tombstone marked => exact absurd (plain.symm.trans marked) (by decide)
  | item => rfl

/-! ## Append and prepend -/

theorem Fresh.fills_two {first second : ℕ} {q : Rec} (fresh : Fresh s lay newId q)
    (h : StoreInv s lay) (apart : ∀ k ∈ s.table, s.itemOf k ≠ q.off)
    (mem : s.recAt second ∈ s.journal lay) (other : s.itemOf second ≠ q.off)
    (two : 2 ≤ (s.recAt first).data.length) (two' : 2 ≤ (s.recAt second).data.length)
    (total : q.data.length + 2 = (s.recAt first).data.length + (s.recAt second).data.length) :
    ∃ q', Fills s (s.copyTwo newId first second) lay newId q q' ∧
      q'.data = joinBlocks (s.recAt first).data (s.recAt second).data ∧
      (s.copyTwo newId first second).contents = s.contents := by
  obtain ⟨q', fills, data⟩ := fresh.copyTwo h mem other two two' total
  refine ⟨q', fills, data, ?_⟩
  have len : (dataOf s.log.mem (s.itemOf first)).length = (s.recAt first).data.length := rfl
  have fills₁ := fresh.write_data h (itemData s.log.mem (s.itemOf newId))
    (dataOf s.log.mem (s.itemOf first)) le_rfl (by omega)
  have len' : (dataOf (write s.log.mem (itemData s.log.mem (s.itemOf newId))
      (dataOf s.log.mem (s.itemOf first))) (s.itemOf second)).length =
        (s.recAt second).data.length :=
    congrArg (fun r => r.data.length) (fills₁.recAt mem other)
  obtain ⟨b, hb, off, -, -⟩ := fresh.block
  have within := (h.wholeRec hb).data_le
  have base : b.off ≤ itemData s.log.mem b.off := by simp only [itemData]; omega
  have nbytes : nbytesOf s.log.mem b.off = q.data.length := by
    rw [off, nbytesOf_recAt, recAt_eq fresh.mem fresh.off]
  rw [off] at within base
  rw [off] at nbytes
  refine h.contents_setMem fills.inv hb (fun x hx => ?_) fun k member => ?_
  · rw [write_outside (by rw [len', nbytesOf_recAt]; omega), write_outside (by rw [len]; omega)]
  · rw [off, ← fresh.off]
    exact apart k member

theorem Fresh.contents_combine {oldId it cas : ℕ} {m : Mem} {result : StoreItemType} {new : Option ℕ}
    (fresh : Fresh s lay id r) (h : StoreInv s lay) (member : oldId ∈ s.table)
    (key : s.keyAt oldId = r.key) (short : r.key.length ≤ 250) (two : 2 ≤ r.data.length)
    (two' : 2 ≤ (s.recAt oldId).data.length) (room : RoomFor s (s.joinSize id oldId))
    (plain : deletedBit (s.clientFlags oldId) = false)
    (joins : comm = .append ∨ comm = .prepend) (memory : m = s.log.mem)
    (request : cas = (s.entryOf id).cas)
    (run : Store.storeBranch.combine s comm id m cas oldId = .ok (s', result, new, it)) :
    (s'.contents, result) = s.contents.combine comm r.key (s.entryOf oldId) (s.entryOf id)
      (memlogAllocRetry 3 s.log (s.joinSize id oldId)).2.isSome := by
  subst memory request
  have mine := recAt_eq fresh.mem fresh.off
  have old := h.recAt_mem member
  unfold Store.storeBranch.combine at run
  unfold Contents.combine
  change (if (s.entryOf id).cas ≠ 0 ∧ (s.entryOf id).cas ≠ (s.entryOf oldId).cas then _
    else _) = _ at run
  by_cases mismatch : (s.entryOf id).cas ≠ 0 ∧ (s.entryOf id).cas ≠ (s.entryOf oldId).cas
  · rw [if_pos mismatch] at run
    obtain ⟨rfl, rfl, -⟩ := Prod.mk.inj (pure_ran.1 run)
    exact (if_pos mismatch).symm
  · rw [if_neg mismatch] at run
    obtain ⟨⟨s₁, new', succeed⟩, alloc, run⟩ := bind_ran.1 run
    obtain ⟨ok, sum⟩ := fresh.allocOk_join h member key short two room
    change s.doItemAlloc (s.keyAt id) (s.clientFlags oldId) _ (s.joinBytes id oldId) = _ at alloc
    have served := doItemAlloc_served plain alloc
    rw [h.useCas] at served
    change (memlogAllocRetry 3 s.log (s.joinSize id oldId)).2.isSome = _ at served
    rw [fresh.keyAt, ← key] at alloc
    rw [if_neg mismatch, served]
    cases new' with
    | none =>
      obtain ⟨rfl, rfl, -⟩ := Prod.mk.inj (pure_ran.1 run)
      rw [if_neg (by simp), h.contents_alloc ok alloc]
    | some newId =>
      obtain ⟨s₂, replace, run⟩ := bind_ran.1 run
      obtain ⟨rfl, rfl, -⟩ := Prod.mk.inj (pure_ran.1 run)
      rw [Option.isSome_some, if_pos rfl, ← key]
      have used : id ∉ s.freelist := fun free => by
        have := (h.free id).1 free
        rw [fresh.used] at this
        cases this
      have relinked : s₂.contents = s.contents.link (s.keyAt oldId) { s.entryOf oldId with
          data := comm.combined (s.entryOf oldId).data (s.entryOf id).data
          flags := s.clientFlags oldId
          exptime := exptimeOf s.log.mem (s.itemOf oldId) % 2 ^ 32 } :=
        h.contents_relink member ok alloc (by
          intro lay₁ q inv freshQ length apart kept
          obtain ⟨old₁, oldMem, oldOther⟩ := kept oldId old (h.busy member)
          obtain ⟨mine₁, mineMem, mineOther⟩ := kept id (mine ▸ fresh.mem) used
          have total :
              q.data.length + 2 = (s₁.recAt oldId).data.length + (s₁.recAt id).data.length := by
            rw [mine₁, old₁, mine]
            omega
          have twoOld : 2 ≤ (s₁.recAt oldId).data.length := by rw [old₁]; exact two'
          have twoMine : 2 ≤ (s₁.recAt id).data.length := by rw [mine₁, mine]; exact two
          rcases joins with rfl | rfl
          · obtain ⟨q', fills, data, cache⟩ :=
              freshQ.fills_two inv apart mineMem mineOther twoOld twoMine total
            rw [old₁, mine₁] at data
            exact ⟨q', fills, data, cache⟩
          · obtain ⟨q', fills, data, cache⟩ :=
              freshQ.fills_two inv apart oldMem oldOther twoMine twoOld (by omega)
            rw [old₁, mine₁] at data
            exact ⟨q', fills, data, cache⟩) replace
      rw [relinked]
      refine congrArg (·, StoreItemType.stored) (Contents.link_congr rfl rfl ?_)
      exact Nat.mod_eq_of_lt (exptime_lt s oldId)

/-! ## `do_store_item` -/

theorem contents_removeOpt {it : Option ℕ} (run : s.removeOpt it = .ok s') : s'.contents = s.contents := by
  cases it with
  | none => rw [pure_ran.1 run]
  | some id => exact contents_doItemRemove run

theorem Looked.entryOf {old : Option ℕ} (looked : Looked s s₁ lay id r old) :
    s₁.entryOf id = s.entryOf id := by
  rw [Store.entryOf, Store.entryOf, looked.log, looked.items, looked.metas]

theorem Looked.contents_stored {old : Option ℕ} (looked : Looked s s₁ lay id r old)
    (look : s₁.contents = s.contents.look r.key) (alone : (s.metas id).refcount = 1)
    (link : s₁.storeLink old id = .ok s₂) (remove : s₂.removeOpt old = .ok s₃) :
    (s₃.markItemStored id).contents = s.contents.link r.key (s.entryOf id) := by
  obtain ⟨inv₂, -, items₂, view₂, -⟩ := looked.fresh.storeLink looked.inv
    (by rw [looked.metas, alone]) looked.hit looked.miss link
  have same := sameTable_removeOpt remove
  have mem : r ∈ s₃.journal lay := by
    rw [same.journal, journal_of_view view₂]
    exact looked.fresh.mem
  have item : r.off = s₃.itemOf id := by
    rw [same.item, items₂]
    exact looked.fresh.off
  rw [(StoreInv.removeOpt inv₂ remove).contents_markItemStored mem item looked.fresh.flags,
    contents_removeOpt remove, looked.fresh.contents_storeLink looked.inv looked.hit looked.miss link, look,
    Contents.link_look, looked.entryOf]

/-- `append` and `prepend` of a completed block, when an item was found. -/
theorem Looked.contents_joins {oldId it : ℕ} {new : Option ℕ} {outcome : StoreItemType} {s₄ : Store}
    (looked : Looked s s₁ lay id r (some oldId)) (same : s₁.contents = s.contents)
    (short : r.key.length ≤ 250) (ok : s.JoinOk comm id r)
    (plain : deletedBit (s.clientFlags oldId) = false) (joins : comm = .append ∨ comm = .prepend)
    (branch : s₁.storeBranch comm id (some oldId) = .ok (s₂, outcome, new, it))
    (removeOld : s₂.doItemRemove oldId = .ok s₃) (removeNew : s₃.removeOpt new = .ok s₄) :
    ((if outcome = .stored then s₄.markItemStored it else s₄).contents, outcome) =
      s.contents.combine comm r.key (s₁.entryOf oldId) (s.entryOf id) (s.joinServed id) := by
  obtain ⟨two, two', room⟩ := ok joins oldId looked.found
  obtain ⟨member, key⟩ := looked.hit oldId rfl
  have recAt (k : ℕ) : s₁.recAt k = s.recAt k := by
    rw [Store.recAt, Store.recAt, looked.log, looked.items]
  have size := looked.joinSize oldId
  have flags : s₁.clientFlags oldId = s.clientFlags oldId := by
    rw [Store.clientFlags, Store.clientFlags, looked.log, looked.items]
  have run : Store.storeBranch.combine s₁ comm id s₁.log.mem
      (itemGetCas s₁.log.mem (s₁.itemOf id)) oldId = .ok (s₂, outcome, new, it) := by
    rcases joins with rfl | rfl <;> exact branch
  have two₁ : 2 ≤ (s₁.recAt oldId).data.length := by rw [recAt]; exact two'
  have room₁ : RoomFor s₁ (s₁.joinSize id oldId) := by rw [size]; exact room.congr looked.log
  have combined := looked.fresh.contents_combine looked.inv member key short two two₁ room₁
    (flags ▸ plain) joins rfl rfl run
  have served : s.joinServed id =
      (memlogAllocRetry 3 s₁.log (s₁.joinSize id oldId)).2.isSome := by
    have keyAt : s.keyAt id = r.key := by
      rw [← looked.fresh.keyAt, Store.keyAt, Store.keyAt, looked.log, looked.items]
    simp only [Store.joinServed, keyAt, looked.found, size, looked.log]
  rw [same, looked.entryOf, ← served] at combined
  rw [← combined]
  refine Prod.ext ?_ rfl
  obtain ⟨lay₂, joined⟩ := looked.fresh.combine looked.inv member key short two two₁ room₁ joins rfl run
  generalize last : (new.map fun _ => it) = it' at joined
  cases joined with
  | refused _ failed inv setup view moves =>
    obtain rfl := pure_ran.1 removeNew
    rw [if_neg failed]
    exact contents_doItemRemove removeOld
  | tombstone q marked hkey hflags new inv setup view moves =>
    obtain rfl := pure_ran.1 removeNew
    exact contents_doItemRemove removeOld
  | joined newId q hkey suffix two relink =>
    obtain rfl : it = newId := by simpa using last
    have same := (sameTable_doItemRemove removeOld).trans (sameTable_doItemRemove removeNew)
    have inv₄ := (relink.inv.doItemRemove removeOld).doItemRemove removeNew
    have mem : q ∈ s₄.journal lay₂ := same.journal ▸ relink.mem
    rw [if_pos rfl]
    exact (StoreInv.contents_markItemStored inv₄ mem (relink.off.trans (same.item it).symm)
      relink.flags).trans ((contents_doItemRemove removeNew).trans (contents_doItemRemove removeOld))

/-- `do_store_item` does what the storage command says. -/
theorem Fresh.contents_doStoreItem {result : StoreItemType} (fresh : Fresh s lay id r)
    (h : StoreInv s lay) (alone : (s.metas id).refcount = 1) (short : r.key.length ≤ 250)
    (ok : s.JoinOk comm id r)
    (plain : ∀ oldId, s.find r.key = some oldId → deletedBit (s.clientFlags oldId) = false)
    (off : s.settings.lruLogEnabled = false) (run : s.doStoreItem comm id = .ok (s', result)) :
    (s'.contents, result) = s.contents.store comm r.key (s.entryOf id) (s.joinServed id) := by
  obtain ⟨⟨s₁, old⟩, get, run⟩ := bind_ran.1 run
  have looked := fresh.looked h get
  obtain ⟨look, found, shown⟩ := h.contents_get get
  rw [fresh.keyAt] at look found shown
  obtain ⟨⟨s₂, outcome, new, it⟩, branch, run⟩ := bind_ran.1 run
  obtain ⟨s₃, removeOld, run⟩ := bind_ran.1 run
  obtain ⟨s₄, removeNew, run⟩ := bind_ran.1 run
  obtain ⟨rfl, rfl⟩ := pair_ran.1 run
  -- the command goes through
  have stored (accepts : s₁.accepts comm id old = true) :
      ((if outcome = .stored then s₄.markItemStored it else s₄).contents, outcome) =
        (s.contents.link r.key (s.entryOf id), .stored) := by
    rw [storeBranch_accepts accepts] at branch
    obtain ⟨s₂, link, branch⟩ := bind_ran.1 branch
    have branch := pure_ran.1 branch
    simp only [Prod.mk.injEq] at branch
    obtain ⟨rfl, rfl, rfl, rfl⟩ := branch
    obtain rfl := pure_ran.1 removeNew
    rw [if_pos rfl, looked.contents_stored look alone link removeOld]
  -- the command is refused, and leaves what the lookup left
  have refused {x : Store} {answer : StoreItemType} (failed : answer ≠ .stored)
      (eq : s₁.storeBranch comm id old = .ok (x, answer, none, id)) :
      ((if outcome = .stored then s₄.markItemStored it else s₄).contents, outcome) =
        (x.contents, answer) := by
    rw [branch] at eq
    simp only [Except.ok.injEq, Prod.mk.injEq] at eq
    obtain ⟨rfl, rfl, rfl, rfl⟩ := eq
    obtain rfl := pure_ran.1 removeNew
    rw [if_neg failed, contents_removeOpt removeOld]
  cases old with
  | none =>
    have shown : s.contents.visible r.key = none := shown
    rw [Contents.look, if_pos shown] at look
    rw [Contents.store_none shown]
    cases comm with
    | add => exact stored rfl
    | set => exact stored rfl
    | replace => exact look ▸ refused (by decide) rfl
    | append => exact look ▸ refused (by decide) rfl
    | prepend => exact look ▸ refused (by decide) rfl
    | cas => exact look ▸ refused (by decide) rfl
  | some oldId =>
    have shown : s.contents.visible r.key = some (s₁.entryOf oldId) := shown
    rw [Contents.look, shown, if_neg (by simp)] at look
    obtain ⟨member, hkey⟩ := looked.hit oldId rfl
    rw [Contents.store_some shown]
    cases comm with
    | add =>
      have quiet : s₁.settings.lruLogEnabled = false := by rw [looked.setup.settings, off]
      obtain ⟨x, update⟩ : ∃ x, s₁.doItemUpdate oldId = .ok (x, none) :=
        ⟨_, StoreInv.doItemUpdate_eq looked.inv quiet member⟩
      have same := StoreInv.contents_update looked.inv quiet member update
      rw [look, hkey] at same
      have branch : s₁.storeBranch .add id (some oldId) = .ok (x, .notStored, none, id) := by
        rw [Store.storeBranch, update, ok_bind]
        rfl
      exact same ▸ refused (by decide) branch
    | set => exact stored rfl
    | replace => exact stored rfl
    | append =>
      exact looked.contents_joins look short ok (plain oldId found.symm) (.inl rfl) branch removeOld
        removeNew
    | prepend =>
      exact looked.contents_joins look short ok (plain oldId found.symm) (.inr rfl) branch removeOld
        removeNew
    | cas =>
      dsimp only
      rw [← looked.entryOf] at stored ⊢
      by_cases matching : (s₁.entryOf id).cas = (s₁.entryOf oldId).cas
      · rw [if_pos matching]
        exact stored (decide_eq_true matching)
      · rw [if_neg matching]
        have branch : s₁.storeBranch .cas id (some oldId) = .ok (s₁, .exists, none, id) := by
          rw [Store.storeBranch]
          exact if_neg matching
        exact look ▸ refused (by decide) branch

def LineEnded (data : List UInt8) : Prop := ∃ value, data = value ++ [13, 10]

theorem dataBlockEnds_iff (two : 2 ≤ (s.entryOf id).data.length) :
    s.dataBlockEnds id = true ↔ LineEnded (s.entryOf id).data := by
  have data : (s.entryOf id).data =
      slice s.log.mem (itemData s.log.mem (s.itemOf id)) (nbytesOf s.log.mem (s.itemOf id)) := rfl
  rw [data, length_slice] at two
  obtain ⟨n, length⟩ := Nat.exists_eq_add_of_le' two
  have last (a : ℕ) : slice s.log.mem a 2 = [s.log.mem a, s.log.mem (a + 1)] := rfl
  simp only [Store.dataBlockEnds, length, Bool.and_eq_true, beq_iff_eq]
  rw [data, length, slice_add, last]
  constructor
  · rintro ⟨cr, lf⟩
    exact ⟨_, by rw [← cr, ← lf]; rfl⟩
  · rintro ⟨value, eq⟩
    have parts := (List.append_inj' eq rfl).2
    simp only [List.cons.injEq, and_true] at parts
    exact parts

/-- `complete_nread_ascii`: a block that ends its line goes to the storage command, any other block
changes nothing that a client sees. -/
theorem Fresh.contents_complete {reply : Reply} (fresh : Fresh s lay id r) (h : StoreInv s lay)
    (sound : (s.view lay).Sound) (alone : (s.metas id).refcount = 1) (ok : s.JoinOk comm id r)
    (off : s.settings.lruLogEnabled = false)
    (run : s.completeNreadAscii comm id = .ok (s', reply)) :
    s.dataBlockEnds id = true ∧ (∃ result : StoreItemType, reply = result.reply ∧
        (s'.contents, result) = s.contents.store comm r.key (s.entryOf id) (s.joinServed id)) ∨
      s.dataBlockEnds id = false ∧ reply = .badDataChunk ∧ s'.contents = s.contents := by
  have dirty : r.flags = dirtyFlags := fresh.flags
  have proper := sound.proper fresh.mem (by rw [dirty]; decide)
  obtain ⟨⟨s₁, answer⟩, block, run⟩ := bind_ran.1 run
  obtain ⟨s₂, remove, run⟩ := bind_ran.1 run
  obtain ⟨rfl, rfl⟩ := pair_ran.1 run
  rw [contents_doItemRemove remove]
  unfold Store.storeBlock at block
  split_ifs at block with ends
  · obtain ⟨⟨s₃, result⟩, store, block⟩ := bind_ran.1 block
    obtain ⟨rfl, rfl⟩ := pair_ran.1 block
    refine .inl ⟨ends, result, rfl, fresh.contents_doStoreItem h alone proper.short ok ?_ off store⟩
    intro oldId found
    obtain ⟨f, holds⟩ := h.holds sound found
    rw [holds.client, holds.plain]
  · obtain ⟨rfl, rfl⟩ := pair_ran.1 block
    exact .inr ⟨by simpa using ends, rfl,
      fresh.contents_markCorrupted h (h.apart_of_dirty sound fresh.mem dirty)⟩

end LogMemcached

import LogMemcached.CommandSteps

/-!
# What the storage, retrieval and deletion commands do

The two halves of a storage command, the lookups of `get`, and the steps of `delete`, in the form of
`LogMemcached.CommandSteps`.
-/

namespace LogMemcached

open ByteMem Tiling Fallible

variable {s s₁ s₂ s' : Store} {lay lay' : Layout} {id : ℕ} {key : Key} {exptime flags : ℕ}
  {vlen : ℤ} {r : Rec} {comm : NreadComm}

/-! ## Unlinking what a lookup found -/

theorem StoreInv.unlink_found (h : StoreInv s lay) (get : s.doItemGet key = .ok (s₁, some id))
    (unlink : s₁.doItemUnlink id = .ok s₂) (remove : s₂.doItemRemove id = .ok s') :
    Outcome s s' lay lay 0 0 ((s.view lay).unlink key) := by
  obtain ⟨-, member, hkey, inv₁, table⟩ := h.get_some get
  have linked := (inv₁.linked id).1 member
  obtain ⟨inv₂, cut⟩ := SweepInv.doItemUnlink inv₁ linked unlink
  have same := sameTable_doItemRemove remove
  refine ⟨inv₂.doItemRemove remove, table.setup.trans (cut.setup.trans same.setup), ?_,
    fun room => ?_⟩
  · rw [same.view, cut.view inv₁ inv₂ member, hkey, table.view]
  · exact ((Moves.get h room.lt get).trans ((Moves.unlink inv₁ linked unlink).beside {id})).trans
      (.drop remove)

theorem StoreInv.get_missing (h : StoreInv s lay) (get : s.doItemGet key = .ok (s', none)) :
    Outcome s s' lay lay 0 0 ((s.view lay).unlink key) := by
  obtain ⟨-, inv, -, setup, -, view⟩ := h.get_none get
  exact ⟨inv, setup, view, fun room => .get h room.lt get⟩

theorem Outcome.trans {v : View} {A B C : Multiset ℕ} {lay₁ : Layout} {v₁ : View}
    (first : Outcome s s₁ lay lay₁ A B v₁) (second : Outcome s₁ s' lay₁ lay' B C v)
    (room : s.Roomy 1 → s₁.Roomy 1) : Outcome s s' lay lay' A C v :=
  ⟨second.inv, first.setup.trans second.setup, second.view,
    fun roomy => (first.moves roomy).trans (second.moves (room roomy))⟩

/-! ## The header line -/

inductive Opens (s s' : Store) (lay lay' : Layout) (comm : NreadComm) (key : Key) (flags : ℕ)
    (vlen : ℤ) : Store.Update → Prop
  | rejected (same : s' = s) (layout : lay' = lay) :
      Opens s s' lay lay' comm key flags vlen (.reply .badFormat)
  | upload (id : ℕ) (r : Rec) (plain : deletedBit flags = false) (fresh : Fresh s' lay' id r)
      (alone : (s'.metas id).refcount = 1) (new : ∀ q ∈ s.journal lay, q.off ≠ r.off)
      (hkey : r.key = key) (short : key.length ≤ 250) (value : 0 ≤ vlen)
      (suffix : r.suffix = suffixText flags r.data.length)
      (length : (r.data.length : ℤ) = vlen + 2)
      (out : Outcome s s' lay lay' 0 {id} ((s.view lay).log r)) :
      Opens s s' lay lay' comm key flags vlen (.upload id)
  | full (reply : Reply) (out : Outcome s s' lay lay' 0 0
        (if comm = .set then (s.view lay).unlink key else s.view lay)) :
      Opens s s' lay lay' comm key flags vlen (.reply reply)
  | tombstone (reply : Reply) (r : Rec) (marked : deletedBit flags = true) (hkey : r.key = key)
      (hflags : r.flags = itemDeleted ||| itemStored) (new : ∀ q ∈ s.journal lay, q.off ≠ r.off)
      (out : Outcome s s' lay lay' 0 0
        (if comm = .set then ((s.view lay).log r).unlink key else (s.view lay).log r)) :
      Opens s s' lay lay' comm key flags vlen (.reply reply)

def updateRequest (key : Key) (flags : ℕ) (vlen : ℤ) : Option ℕ :=
  if key.length > keyMaxLength ∨ vlen < 0 ∨ vlen > 2 ^ 31 - 1 - 2 then none
  else some (allocTotal true key.length flags (vlen + 2))

theorem Outcome.unlinkStale {v : View} (first : Outcome s s₁ lay lay' 0 0 v)
    (room : s.Roomy 1 → s₁.Roomy 1) (run : s₁.unlinkStale comm key = .ok s') :
    Outcome s s' lay lay' 0 0 (if comm = .set then v.unlink key else v) := by
  have inv : StoreInv s₁ lay' := first.inv
  unfold Store.unlinkStale at run
  split_ifs at run ⊢ with isSet
  · obtain ⟨⟨s₂, old⟩, get, run⟩ := bind_ran.1 run
    cases old with
    | none =>
      obtain rfl := pure_ran.1 run
      exact first.view ▸ first.trans (inv.get_missing get) room
    | some id =>
      obtain ⟨s₃, unlink, remove⟩ := bind_ran.1 run
      exact first.view ▸ first.trans (inv.unlink_found get unlink remove) room
  · obtain rfl := pure_ran.1 run
    exact first

theorem StoreInv.processUpdateCommand {cas : ℕ} {exptime : ℤ} {update : Store.Update}
    (h : StoreInv s lay) (word : flags < 2 ^ 32)
    (room : ∀ n, updateRequest key flags vlen = some n → RoomFor s n)
    (run : s.processUpdateCommand comm key flags exptime vlen cas = .ok (s', update)) :
    ∃ lay', Opens s s' lay lay' comm key flags vlen update := by
  unfold Store.processUpdateCommand at run
  split_ifs at run with long range
  · obtain ⟨rfl, rfl⟩ := pair_ran.1 run
    exact ⟨lay, .rejected rfl rfl⟩
  · obtain ⟨rfl, rfl⟩ := pair_ran.1 run
    exact ⟨lay, .rejected rfl rfl⟩
  · obtain ⟨⟨s₁, it, succeed⟩, alloc, run⟩ := bind_ran.1 run
    have short : key.length ≤ 250 := not_lt.1 long
    have room := room _ (if_neg (not_or.2 ⟨long, range⟩))
    have ok : AllocOk s key flags (vlen + 2) :=
      ⟨short, word, by omega, by omega, room.size, room.wrap⟩
    obtain ⟨lay₁, inv₁, setup₁, metas, table, logs⟩ := h.logs ok alloc
    obtain ⟨moves, alone⟩ := Moves.alloc h ok alloc
    have roomy (roomy : s.Roomy 1) : s₁.Roomy 1 := fun k hk => by
      rw [table] at hk
      rw [metas k (h.busy hk)]
      exact roomy k hk
    refine ⟨lay₁, ?_⟩
    cases logs with
    | failed view =>
      obtain ⟨s₂, rest, run⟩ := bind_ran.1 run
      obtain ⟨rfl, rfl⟩ := pair_ran.1 run
      exact .full _ (Outcome.unlinkStale ⟨inv₁, setup₁, view, fun _ => moves⟩ roomy rest)
    | tombstone r marked hkey hflags new view =>
      obtain ⟨s₂, rest, run⟩ := bind_ran.1 run
      obtain ⟨rfl, rfl⟩ := pair_ran.1 run
      exact .tombstone _ r marked hkey hflags new
        (Outcome.unlinkStale ⟨inv₁, setup₁, view, fun _ => moves⟩ roomy rest)
    | item id r plain fresh new hkey suffix length expires view =>
      obtain ⟨rfl, rfl⟩ := pair_ran.1 run
      have length : (r.data.length : ℤ) = vlen + 2 := by omega
      have apart : ∀ k ∈ s₁.table, s₁.itemOf k ≠ r.off := fun k hk => by
        rw [table] at hk
        rw [Store.itemOf, metas k (h.busy hk)]
        exact new _ (h.recAt_mem hk)
      have recas := StoreInv.setCas inv₁ fresh.mem apart cas
      rw [fresh.off] at recas
      obtain ⟨inv', view'⟩ := recas
      refine .upload id r plain ⟨?_, fresh.off, fresh.flags, fresh.unlinked, fresh.used⟩
        (alone id rfl) new hkey short (by omega) (length ▸ suffix) length
        ⟨inv', setup₁.trans ⟨rfl, rfl, rfl⟩, view'.trans view,
          fun _ => moves.trans (.of_metas rfl rfl)⟩
      rw [journal_of_view view']
      exact fresh.mem

/-! ## The completed block -/

theorem Fresh.get {it : Option ℕ} (fresh : Fresh s lay id r) (h : StoreInv s lay)
    (run : s.doItemGet key = .ok (s', it)) : Fresh s' lay id r := by
  have metas := h.doItemGet_metas run fresh.unlinked
  have log : s'.log = s.log := by
    cases it with
    | none => exact (h.get_none run).2.2.1
    | some k => exact (h.get_some run).2.2.2.2.log
  refine ⟨?_, ?_, fresh.flags, by rw [metas]; exact fresh.unlinked, by rw [metas]; exact fresh.used⟩
  · rw [Store.journal, log]
    exact fresh.mem
  · rw [Store.itemOf, metas]
    exact fresh.off

/-- The storage command goes through, given what its lookup found. -/
def Store.accepts (s : Store) (comm : NreadComm) (id : ℕ) : Option ℕ → Bool
  | none => comm = .set || comm = .add
  | some oldId =>
      comm = .set || comm = .replace || (comm = .cas &&
        itemGetCas s.log.mem (s.itemOf id) == itemGetCas s.log.mem (s.itemOf oldId))

theorem storeBranch_accepts {old : Option ℕ} (accepts : s.accepts comm id old = true) :
    s.storeBranch comm id old = (do
      let s ← s.storeLink old id
      pure (s, .stored, none, id)) := by
  cases old <;> cases comm <;> simp_all [Store.accepts, Store.storeBranch, Store.storeLink]

theorem Fresh.storeLink {old : Option ℕ} (fresh : Fresh s lay id r) (h : StoreInv s lay)
    (alone : (s.metas id).refcount = 1)
    (hit : ∀ oldId, old = some oldId → oldId ∈ s.table ∧ s.keyAt oldId = r.key)
    (miss : old = none → s.assocFind r.key = none) (run : s.storeLink old id = .ok s') :
    StoreInv s' lay ∧ SameSetup s s' ∧ (∀ k, s'.itemOf k = s.itemOf k) ∧
      s'.view lay = (s.view lay).link r.key r.off ∧ Moves s {id} s' {id} := by
  cases old with
  | none =>
    obtain ⟨inv, setup, items, view⟩ := fresh.link h (miss rfl) run
    exact ⟨inv, setup, items, view, .link alone run⟩
  | some oldId =>
    obtain ⟨member, key⟩ := hit oldId rfl
    obtain ⟨inv, setup, items, view⟩ := fresh.replace h member key run
    exact ⟨inv, setup, items, view, .replace h ((h.linked oldId).1 member) fresh.unlinked alone run⟩

theorem sameTable_removeOpt {it : Option ℕ} (run : s.removeOpt it = .ok s') : SameTable s s' := by
  cases it with
  | none => exact pure_ran.1 run ▸ .refl s
  | some id => exact sameTable_doItemRemove run

theorem StoreInv.removeOpt {it : Option ℕ} (h : StoreInv s lay) (run : s.removeOpt it = .ok s') :
    StoreInv s' lay := by
  cases it with
  | none => exact pure_ran.1 run ▸ h
  | some id => exact h.doItemRemove run

theorem Moves.removeOpt {it : Option ℕ} (run : s.removeOpt it = .ok s') :
    Moves s (it.elim 0 ({·})) s' 0 := by
  cases it with
  | none => exact pure_ran.1 run ▸ .refl s 0
  | some id => exact .drop run

/-- What storing a completed block does, when its connection is left with the references `own`. -/
inductive Stores (s s' : Store) (lay lay' : Layout) (comm : NreadComm) (id : ℕ) (r : Rec)
    (own : Multiset ℕ) : StoreItemType → Prop
  | stored (accepts : s.accepts comm id (s.find r.key) = true)
      (out : Outcome s s' lay lay' {id} own
        (((s.view lay).put { r with flags := storedFlags }).link r.key r.off)) :
      Stores s s' lay lay' comm id r own .stored
  | refused (result : StoreItemType) (rejects : s.accepts comm id (s.find r.key) = false)
      (failed : result ≠ .stored)
      (out : Outcome s s' lay lay' {id} own
        (if s.find r.key = none then (s.view lay).unlink r.key else s.view lay)) :
      Stores s s' lay lay' comm id r own result
  | tombstone (oldId : ℕ) (q : Rec) (found : s.find r.key = some oldId)
      (joins : comm = .append ∨ comm = .prepend)
      (marked : deletedBit (s.clientFlags oldId) = true) (hkey : q.key = r.key)
      (hflags : q.flags = itemDeleted ||| itemStored) (new : ∀ q' ∈ s.journal lay, q'.off ≠ q.off)
      (out : Outcome s s' lay lay' {id} own ((s.view lay).log q)) :
      Stores s s' lay lay' comm id r own .notStored
  | combined (oldId : ℕ) (q : Rec) (found : s.find r.key = some oldId)
      (joins : comm = .append ∨ comm = .prepend) (hkey : q.key = r.key)
      (hflags : q.flags = storedFlags) (new : ∀ q' ∈ s.journal lay, q'.off ≠ q.off)
      (suffix : q.suffix = suffixText (s.clientFlags oldId) q.data.length)
      (two : 2 ≤ q.data.length)
      (out : Outcome s s' lay lay' {id} own (((s.view lay).log q).link r.key q.off)) :
      Stores s s' lay lay' comm id r own .stored

def Store.retime (s : Store) (id : ℕ) : Store :=
  s.updateMeta id fun it => { it with time := s.currentTime }

/-- Without `lru_log` an access at most moves the item's time. -/
theorem doItemUpdate_quiet {new : Option ℕ} (off : s.settings.lruLogEnabled = false)
    (run : s.doItemUpdate id = .ok (s', new)) :
    new = none ∧ (s' = s ∨ (s.metas id).linked = true ∧ s' = s.retime id) := by
  have off' : (s.retime id).settings.lruLogEnabled = false := off
  have stay (eq : (pure (s, none) : Except Abort (Store × Option ℕ)) = .ok (s', new)) :
      new = none ∧ (s' = s ∨ (s.metas id).linked = true ∧ s' = s.retime id) := by
    obtain ⟨rfl, rfl⟩ := pair_ran.1 eq
    exact ⟨rfl, Or.inl rfl⟩
  rw [Store.doItemUpdate] at run
  by_cases old : (s.metas id).time < (s.currentTime + (2 ^ 32 - Store.itemUpdateInterval)) % 2 ^ 32
  · rw [if_pos old] at run
    obtain ⟨-, run⟩ := check_bind_ran.1 run
    by_cases linked : (s.metas id).linked = true
    · rw [if_pos linked] at run
      change (if (s.retime id).settings.lruLogEnabled = true then _ else _) = _ at run
      rw [off', if_neg (by decide)] at run
      obtain ⟨rfl, rfl⟩ := pair_ran.1 run
      exact ⟨rfl, Or.inr ⟨linked, rfl⟩⟩
    · rw [if_neg linked] at run
      exact stay run
  · rw [if_neg old] at run
    exact stay run

theorem Moves.retime {A : Multiset ℕ} {p : ℕ} (inv : SweepInv s lay p)
    (linked : (s.metas id).linked = true) : Moves s A (s.retime id) A := by
  have slabbed := inv.slabbed_of_linked linked
  refine of_update rfl rfl (fun _ _ _ => linked) fun others before => ?_
  have count := before.count id slabbed
  refine before.update id rfl rfl (fun _ _ => rfl) slabbed (before.small id) ?_ count
  rw [linked, Bool.toNat_true] at count
  dsimp only
  omega

theorem StoreInv.doItemUpdate_quiet {new : Option ℕ} {A : Multiset ℕ} (h : StoreInv s lay)
    (off : s.settings.lruLogEnabled = false) (run : s.doItemUpdate id = .ok (s', new)) :
    new = none ∧ StoreInv s' lay ∧ SameTable s s' ∧ Moves s A s' A := by
  obtain ⟨rfl, rfl | ⟨linked, rfl⟩⟩ := LogMemcached.doItemUpdate_quiet off run
  · exact ⟨rfl, h, .refl s', .refl s' A⟩
  · exact ⟨rfl, h.updateMeta fun _ => ⟨rfl, rfl, rfl⟩, sameTable_updateMeta fun _ => ⟨rfl, rfl⟩,
      .retime h linked⟩

/-- The branches of `do_store_item`: the item is linked, the request is refused, or a new item joins
the two data blocks. -/
theorem storeBranch_cases {old new : Option ℕ} {result : StoreItemType} {it : ℕ}
    (off : comm = .add → s.settings.lruLogEnabled = false)
    (run : s.storeBranch comm id old = .ok (s', result, new, it)) :
    (s.accepts comm id old = true ∧ s.storeLink old id = .ok s') ∨
      (result ≠ .stored ∧ new = none ∧
        (s' = s ∨ comm = .add ∧ ∃ oldId, s.doItemUpdate oldId = .ok (s', none))) ∨
      ∃ oldId, old = some oldId ∧ (comm = .append ∨ comm = .prepend) ∧
        Store.storeBranch.combine s comm id s.log.mem (itemGetCas s.log.mem (s.itemOf id)) oldId =
          .ok (s', result, new, it) := by
  have stay {result' : StoreItemType} (failed : result' ≠ .stored)
      (run : (pure (s, result', none, id) : Except Abort _) = .ok (s', result, new, it)) :
      result ≠ .stored ∧ new = none ∧ s' = s := by
    cases pure_ran.1 run
    exact ⟨failed, rfl, rfl⟩
  have refused : result ≠ .stored ∧ new = none ∧ s' = s → result ≠ .stored ∧ new = none ∧
      (s' = s ∨ comm = .add ∧ ∃ oldId, s.doItemUpdate oldId = .ok (s', none)) :=
    fun h => ⟨h.1, h.2.1, .inl h.2.2⟩
  cases accepts : s.accepts comm id old with
  | true =>
    rw [storeBranch_accepts accepts] at run
    obtain ⟨s₁, link, run⟩ := bind_ran.1 run
    cases pure_ran.1 run
    exact .inl ⟨rfl, link⟩
  | false =>
    cases old with
    | none =>
      cases comm with
      | add => cases accepts
      | set => cases accepts
      | replace => exact .inr (.inl (refused (stay (by decide) run)))
      | append => exact .inr (.inl (refused (stay (by decide) run)))
      | prepend => exact .inr (.inl (refused (stay (by decide) run)))
      | cas => exact .inr (.inl (refused (stay (by decide) run)))
    | some oldId =>
      cases comm with
      | add =>
        obtain ⟨⟨s₁, new'⟩, update, run⟩ := bind_ran.1 run
        obtain ⟨rfl, -⟩ := doItemUpdate_quiet (off rfl) update
        cases pure_ran.1 run
        exact .inr (.inl ⟨by decide, rfl, .inr ⟨rfl, oldId, update⟩⟩)
      | set => cases accepts
      | replace => cases accepts
      | append => exact .inr (.inr ⟨oldId, rfl, .inl rfl, run⟩)
      | prepend => exact .inr (.inr ⟨oldId, rfl, .inr rfl, run⟩)
      | cas =>
        have differ : itemGetCas s.log.mem (s.itemOf id) ≠ itemGetCas s.log.mem (s.itemOf oldId) := by
          simpa [Store.accepts] using accepts
        simp only [Store.storeBranch, if_neg differ] at run
        exact .inr (.inl (refused (stay (by decide) run)))

/-- A storage command other than `append` and `prepend` that does not go through. -/
theorem StoreInv.storeBranch_rejects {old new : Option ℕ} {result : StoreItemType} {it : ℕ}
    {A : Multiset ℕ} (h : StoreInv s lay) (rejects : s.accepts comm id old = false)
    (joins : ¬(comm = .append ∨ comm = .prepend))
    (off : comm = .add → s.settings.lruLogEnabled = false)
    (run : s.storeBranch comm id old = .ok (s', result, new, it)) :
    result ≠ .stored ∧ new = none ∧ StoreInv s' lay ∧ SameTable s s' ∧ Moves s A s' A := by
  obtain ⟨accepts, -⟩ | ⟨failed, rfl, rfl | ⟨add, oldId, update⟩⟩ | ⟨-, -, join, -⟩ :=
    storeBranch_cases off run
  · exact absurd (accepts.symm.trans rejects) (by decide)
  · exact ⟨failed, rfl, h, .refl s', .refl s' A⟩
  · exact ⟨failed, rfl, (h.doItemUpdate_quiet (off add) update).2⟩
  · exact absurd join joins

/-! ## Append and prepend -/

/-- The first data block without its line end, and the second one. -/
def joinBlocks (first second : List UInt8) : List UInt8 := first.take (first.length - 2) ++ second

theorem slice_joinBlocks (m : Mem) (a : ℕ) {first : List UInt8} (second : List UInt8)
    (two : 2 ≤ first.length) :
    slice (write (write m a first) (a + first.length - 2) second) a
      (first.length + second.length - 2) = joinBlocks first second := by
  have length : first.length + second.length - 2 = first.length - 2 + second.length := by omega
  have start : a + first.length - 2 = a + (first.length - 2) := by omega
  have head : slice (write m a first) a (first.length - 2) = first.take (first.length - 2) := by
    have := slice_sub (write m a first) (a := a) (i := 0) (k := first.length - 2)
      (n := first.length) (by omega)
    rwa [Nat.add_zero, slice_write_self, List.drop_zero] at this
  rw [length, start, slice_add, slice_write_self, joinBlocks, ← head,
    slice_congr (agree_write (by omega))]

/-- The two copies of `_store_item_copy_data`. -/
def Store.copyTwo (s : Store) (newId first second : ℕ) : Store :=
  let m := write s.log.mem (itemData s.log.mem (s.itemOf newId)) (dataOf s.log.mem (s.itemOf first))
  s.setMem (write m (itemData s.log.mem (s.itemOf newId) + nbytesOf s.log.mem (s.itemOf first) - 2)
    (dataOf m (s.itemOf second)))

theorem Fresh.copyTwo {newId first second : ℕ} {q : Rec} (fresh : Fresh s lay newId q)
    (h : StoreInv s lay) (mem : s.recAt second ∈ s.journal lay) (other : s.itemOf second ≠ q.off)
    (two : 2 ≤ (s.recAt first).data.length) (two' : 2 ≤ (s.recAt second).data.length)
    (total : q.data.length + 2 = (s.recAt first).data.length + (s.recAt second).data.length) :
    ∃ q', Fills s (s.copyTwo newId first second) lay newId q q' ∧
      q'.data = joinBlocks (s.recAt first).data (s.recAt second).data := by
  have len : (dataOf s.log.mem (s.itemOf first)).length = (s.recAt first).data.length := rfl
  have fills := fresh.write_data h (itemData s.log.mem (s.itemOf newId))
    (dataOf s.log.mem (s.itemOf first)) le_rfl (by omega)
  set m := write s.log.mem (itemData s.log.mem (s.itemOf newId)) (dataOf s.log.mem (s.itemOf first))
  have base : itemData m (s.itemOf newId) = itemData s.log.mem (s.itemOf newId) := by
    change itemData (s.setMem m).log.mem ((s.setMem m).itemOf newId) = _
    rw [itemData_recAt, itemData_recAt, recAt_eq fills.fresh.mem fills.fresh.off,
      recAt_eq fresh.mem fresh.off]
    rfl
  have len' : (dataOf m (s.itemOf second)).length = (s.recAt second).data.length :=
    congrArg (fun r => r.data.length) (fills.recAt mem other)
  have fills' := fills.fresh.write_data fills.inv
    (itemData s.log.mem (s.itemOf newId) + nbytesOf s.log.mem (s.itemOf first) - 2)
    (dataOf m (s.itemOf second)) (by
      change itemData m (s.itemOf newId) ≤ _
      rw [base, nbytesOf_recAt]
      omega) (by
      change _ ≤ itemData m (s.itemOf newId) + _
      rw [base, nbytesOf_recAt, len', fills.length]
      omega)
  have second' : dataOf m (s.itemOf second) = (s.recAt second).data :=
    congrArg Rec.data (fills.recAt mem other)
  refine ⟨_, fills.trans fills', ?_⟩
  change slice _ (itemData m (s.itemOf newId)) _ = _
  have count : q.data.length =
      (dataOf s.log.mem (s.itemOf first)).length + (dataOf m (s.itemOf second)).length - 2 := by
    omega
  rw [base, length_slice, count, nbytesOf_recAt, second', ← len]
  exact slice_joinBlocks _ _ _ two

/-- The data length of the item that `append` and `prepend` make. -/
def Store.joinBytes (s : Store) (id oldId : ℕ) : ℤ :=
  nbytesInt s.log.mem (s.itemOf id) + nbytesInt s.log.mem (s.itemOf oldId) - 2

/-- The size of the record that `append` and `prepend` make. -/
def Store.joinSize (s : Store) (id oldId : ℕ) : ℕ :=
  allocTotal true (s.keyAt id).length (s.clientFlags oldId) (s.joinBytes id oldId)

theorem SweepInv.length_lt {p : ℕ} (h : SweepInv s lay p) (mem : r ∈ s.journal lay) :
    r.data.length < 2 ^ 28 := by
  obtain ⟨b, hb, rfl⟩ := SweepInv.mem_journal.1 mem
  have size := (h.wholeRec hb).size_eq
  have bound := h.bounded b hb
  have limit := h.limit
  simp only [recOf, dataOf, length_slice]
  omega

/-- What `append` and `prepend` do to the item found. -/
inductive Joins (s s' : Store) (lay lay' : Layout) (oldId : ℕ) (r : Rec) :
    StoreItemType → Option ℕ → Option ℕ → Prop
  | refused (result : StoreItemType) (failed : result ≠ .stored) (inv : StoreInv s' lay')
      (setup : SameSetup s s') (view : s'.view lay' = s.view lay) (moves : Moves s 0 s' 0) :
      Joins s s' lay lay' oldId r result none none
  | tombstone (q : Rec) (marked : deletedBit (s.clientFlags oldId) = true) (hkey : q.key = r.key)
      (hflags : q.flags = itemDeleted ||| itemStored) (new : ∀ q' ∈ s.journal lay, q'.off ≠ q.off)
      (inv : StoreInv s' lay') (setup : SameSetup s s') (view : s'.view lay' = (s.view lay).log q)
      (moves : Moves s 0 s' 0) : Joins s s' lay lay' oldId r .notStored none none
  | joined (newId : ℕ) (q : Rec) (hkey : q.key = r.key)
      (suffix : q.suffix = suffixText (s.clientFlags oldId) q.data.length)
      (two : 2 ≤ q.data.length) (relink : Relink s s' lay lay' newId q) :
      Joins s s' lay lay' oldId r .stored (some newId) (some newId)

theorem Fresh.allocOk_join {oldId : ℕ} (fresh : Fresh s lay id r) (h : StoreInv s lay)
    (member : oldId ∈ s.table) (key : s.keyAt oldId = r.key) (short : r.key.length ≤ 250)
    (two : 2 ≤ r.data.length) (room : RoomFor s (s.joinSize id oldId)) :
    AllocOk s (s.keyAt oldId) (s.clientFlags oldId) (s.joinBytes id oldId) ∧
      s.joinBytes id oldId = r.data.length + (s.recAt oldId).data.length - 2 := by
  have old := h.recAt_mem member
  have sum : s.joinBytes id oldId = r.data.length + (s.recAt oldId).data.length - 2 := by
    rw [Store.joinBytes, (h.nbytesInt_recAt fresh.mem fresh.off).1, (h.nbytesInt_recAt old rfl).1]
  have bound := h.length_lt fresh.mem
  have bound' := h.length_lt old
  rw [Store.joinSize, fresh.keyAt] at room
  refine ⟨?_, sum⟩
  rw [key]
  exact ⟨short, Nat.mod_lt _ (by norm_num), by omega, by omega, room.size, room.wrap⟩

/-- The item that `append` and `prepend` make, filled with both data blocks. -/
theorem Fresh.refill_join {oldId newId exptime : ℕ} {succeed : Bool} (fresh : Fresh s lay id r)
    (h : StoreInv s lay) (member : oldId ∈ s.table) (key : s.keyAt oldId = r.key)
    (short : r.key.length ≤ 250) (two : 2 ≤ r.data.length)
    (two' : 2 ≤ (s.recAt oldId).data.length) (room : RoomFor s (s.joinSize id oldId))
    (joins : comm = .append ∨ comm = .prepend)
    (alloc : s.doItemAlloc (s.keyAt oldId) (s.clientFlags oldId) exptime (s.joinBytes id oldId) =
      .ok (s₁, some newId, succeed)) :
    ∃ lay' q, Refill s (s₁.storeItemCopyData comm oldId newId id) lay lay' oldId newId q ∧
      q.key = r.key ∧ q.suffix = suffixText (s.clientFlags oldId) q.data.length ∧
      2 ≤ q.data.length := by
  have mine := recAt_eq fresh.mem fresh.off
  have old := h.recAt_mem member
  obtain ⟨ok, sum⟩ := fresh.allocOk_join h member key short two room
  have used : id ∉ s.freelist := fun free => by
    have := (h.free id).1 free
    rw [fresh.used] at this
    cases this
  have refilled : ∃ lay' q, Refill s (s₁.storeItemCopyData comm oldId newId id) lay lay' oldId newId q ∧
      q.key = s.keyAt oldId ∧ q.suffix = suffixText (s.clientFlags oldId) (s.joinBytes id oldId) ∧
      q.data.length = (s.joinBytes id oldId).toNat := by
    refine h.refill member ok alloc fun lay₁ q inv freshQ length kept => ?_
    obtain ⟨old₁, oldMem, oldOther⟩ := kept oldId old (h.busy member)
    obtain ⟨mine₁, mineMem, mineOther⟩ := kept id (mine ▸ fresh.mem) used
    rw [mine] at mine₁
    rcases joins with rfl | rfl
    · obtain ⟨q', fills, -⟩ := freshQ.copyTwo inv mineMem mineOther (by rw [old₁]; exact two')
        (by rw [mine₁]; exact two) (by rw [mine₁, old₁]; omega)
      exact ⟨q', fills⟩
    · obtain ⟨q', fills, -⟩ := freshQ.copyTwo inv oldMem oldOther (by rw [mine₁]; exact two)
        (by rw [old₁]; exact two') (by rw [mine₁, old₁]; omega)
      exact ⟨q', fills⟩
  obtain ⟨lay', q, refill, hkey, suffix, length⟩ := refilled
  refine ⟨lay', q, refill, hkey.trans key, ?_, by omega⟩
  rw [suffix]
  congr 1
  omega

theorem Fresh.combine {oldId it : ℕ} {m : Mem} {cas : ℕ} {result : StoreItemType} {new : Option ℕ}
    (fresh : Fresh s lay id r) (h : StoreInv s lay) (member : oldId ∈ s.table)
    (key : s.keyAt oldId = r.key) (short : r.key.length ≤ 250) (two : 2 ≤ r.data.length)
    (two' : 2 ≤ (s.recAt oldId).data.length) (room : RoomFor s (s.joinSize id oldId))
    (joins : comm = .append ∨ comm = .prepend) (memory : m = s.log.mem)
    (run : Store.storeBranch.combine s comm id m cas oldId = .ok (s', result, new, it)) :
    ∃ lay', Joins s s' lay lay' oldId r result new (new.map fun _ => it) := by
  subst memory
  unfold Store.storeBranch.combine at run
  by_cases mismatch : cas ≠ 0 ∧ cas ≠ itemGetCas s.log.mem (s.itemOf oldId)
  · rw [if_pos mismatch] at run
    have run := pure_ran.1 run
    simp only [Prod.mk.injEq] at run
    obtain ⟨rfl, rfl, rfl, rfl⟩ := run
    exact ⟨lay, .refused _ (by decide) h (.refl s) rfl (.refl s 0)⟩
  · rw [if_neg mismatch] at run
    obtain ⟨⟨s₁, new', succeed⟩, alloc, run⟩ := bind_ran.1 run
    obtain ⟨ok, -⟩ := fresh.allocOk_join h member key short two room
    change s.doItemAlloc (s.keyAt id) (s.clientFlags oldId) _ (s.joinBytes id oldId) = _ at alloc
    rw [fresh.keyAt, ← key] at alloc
    cases new' with
    | none =>
      have run := pure_ran.1 run
      simp only [Prod.mk.injEq] at run
      obtain ⟨rfl, rfl, rfl, rfl⟩ := run
      obtain ⟨lay', inv, setup, -, -, logs⟩ := h.logs ok alloc
      have moves : Moves s 0 s₁ 0 := (Moves.alloc h ok alloc).1
      refine ⟨lay', ?_⟩
      cases logs with
      | failed view => exact .refused _ (by decide) inv setup view moves
      | tombstone q marked hkey hflags new view =>
        exact .tombstone q marked (hkey.trans key) hflags new inv setup view moves
    | some newId =>
      obtain ⟨s₂, replace, run⟩ := bind_ran.1 run
      have run := pure_ran.1 run
      simp only [Prod.mk.injEq] at run
      obtain ⟨rfl, rfl, rfl, rfl⟩ := run
      obtain ⟨lay', q, refill, hkey, suffix, two⟩ :=
        fresh.refill_join h member key short two two' room joins alloc
      exact ⟨lay', .joined newId q hkey suffix two (refill.relink replace)⟩

/-! ## `do_store_item` -/

/-- What the lookup of `do_store_item` leaves to its branches. -/
structure Looked (s s₁ : Store) (lay : Layout) (id : ℕ) (r : Rec) (old : Option ℕ) : Prop where
  found : s.find r.key = old
  inv : StoreInv s₁ lay
  setup : SameSetup s s₁
  log : s₁.log = s.log
  items : ∀ k, s₁.itemOf k = s.itemOf k
  fresh : Fresh s₁ lay id r
  metas : s₁.metas id = s.metas id
  hit : ∀ oldId, old = some oldId → oldId ∈ s₁.table ∧ s₁.keyAt oldId = r.key
  miss : old = none → s₁.assocFind r.key = none
  view : s₁.view lay = if old = none then (s.view lay).unlink r.key else s.view lay
  moves : s.Roomy 1 → Moves s {id} s₁ ({id} + old.elim 0 ({·}))

theorem Fresh.looked {old : Option ℕ} (fresh : Fresh s lay id r) (h : StoreInv s lay)
    (get : s.doItemGet (s.keyAt id) = .ok (s₁, old)) : Looked s s₁ lay id r old := by
  rw [fresh.keyAt] at get
  have metas := h.doItemGet_metas get fresh.unlinked
  have moves (room : s.Roomy 1) : Moves s {id} s₁ ({id} + old.elim 0 ({·})) := by
    rw [add_comm]
    exact (Moves.get h room.lt get).beside {id}
  cases old with
  | none =>
    obtain ⟨absent, inv, log, setup, items, view⟩ := h.get_none get
    exact ⟨absent, inv, setup, log, items, fresh.get h get, metas, by simp,
      fun _ => (h.doItemGet_none get).2.2.1, view, moves⟩
  | some oldId =>
    obtain ⟨found, member, key, inv, table⟩ := h.get_some get
    exact ⟨found, inv, table.setup, table.log, table.item, fresh.get h get, metas,
      fun _ eq => Option.some.inj eq ▸ ⟨member, key⟩, by simp, table.view, moves⟩

theorem Looked.joinSize {old : Option ℕ} (looked : Looked s s₁ lay id r old) (oldId : ℕ) :
    s₁.joinSize id oldId = s.joinSize id oldId := by
  simp only [Store.joinSize, Store.joinBytes, Store.keyAt, Store.clientFlags, looked.log, looked.items]

theorem Looked.accepts {old : Option ℕ} (looked : Looked s s₁ lay id r old) :
    s₁.accepts comm id old = s.accepts comm id (s.find r.key) := by
  rw [looked.found]
  cases old with
  | none => rfl
  | some oldId => simp only [Store.accepts, looked.log, looked.items]

theorem Looked.stored {old : Option ℕ} {s₃ : Store} (looked : Looked s s₁ lay id r old)
    (alone : (s.metas id).refcount = 1) (link : s₁.storeLink old id = .ok s₂)
    (remove : s₂.removeOpt old = .ok s₃) :
    Outcome s (s₃.markItemStored id) lay lay {id} {id}
      (((s.view lay).put { r with flags := storedFlags }).link r.key r.off) := by
  obtain ⟨inv₂, setup₂, items₂, view₂, moves₂⟩ := looked.fresh.storeLink looked.inv
    (by rw [looked.metas, alone]) looked.hit looked.miss link
  have same := sameTable_removeOpt remove
  have inv₃ := StoreInv.removeOpt inv₂ remove
  have view₃ : s₃.view lay = (s.view lay).link r.key r.off := by
    rw [same.view, view₂, looked.view]
    split_ifs
    · exact View.ext rfl (Function.update_idem ..)
    · rfl
  have mem : r ∈ s₃.journal lay := by
    rw [same.journal, journal_of_view view₂]
    exact looked.fresh.mem
  have item : r.off = s₃.itemOf id := by
    rw [same.item, items₂]
    exact looked.fresh.off
  obtain ⟨inv', view'⟩ := inv₃.markItemStored mem item looked.fresh.flags
  refine ⟨inv', looked.setup.trans (setup₂.trans (same.setup.trans ⟨rfl, rfl, rfl⟩)), ?_,
    fun room => ?_⟩
  · rw [view', view₃]
    rfl
  · have third : Moves s₂ ({id} + old.elim 0 ({·})) (s₃.markItemStored id) {id} :=
      ((Moves.removeOpt remove).beside' {id}).trans (.of_metas rfl rfl)
    exact ((looked.moves room).trans (moves₂.frame _)).trans third

theorem Looked.refused {old : Option ℕ} {lay₂ : Layout} {v : View}
    (looked : Looked s s₁ lay id r old) (inv : StoreInv s₂ lay₂) (setup : SameSetup s₁ s₂)
    (view : s₂.view lay₂ = v) (moves : Moves s₁ 0 s₂ 0) (remove : s₂.removeOpt old = .ok s') :
    Outcome s s' lay lay₂ {id} {id} v := by
  have same := sameTable_removeOpt remove
  refine ⟨StoreInv.removeOpt inv remove, looked.setup.trans (setup.trans same.setup),
    same.view.trans view, fun room => ?_⟩
  have second := moves.beside ({id} + old.elim 0 ({·}))
  rw [zero_add] at second
  exact ((looked.moves room).trans second).trans ((Moves.removeOpt remove).beside' {id})

theorem Looked.joined {oldId newId : ℕ} {q : Rec} {lay₂ : Layout} {s₃ s₄ : Store}
    (looked : Looked s s₁ lay id r (some oldId)) (hkey : q.key = r.key)
    (relink : Relink s₁ s₂ lay lay₂ newId q) (removeOld : s₂.doItemRemove oldId = .ok s₃)
    (removeNew : s₃.doItemRemove newId = .ok s₄) :
    Outcome s (s₄.markItemStored newId) lay lay₂ {id} {id}
      (((s.view lay).log { q with flags := storedFlags }).link r.key q.off) := by
  have same := (sameTable_doItemRemove removeOld).trans (sameTable_doItemRemove removeNew)
  have inv₄ := (relink.inv.doItemRemove removeOld).doItemRemove removeNew
  obtain ⟨inv', setup, view⟩ := relink.stored inv₄ same.view (same.item newId) same.setup
  refine ⟨inv', looked.setup.trans setup, ?_, fun room => ?_⟩
  · rw [view, looked.view, hkey]
    rfl
  · have second := relink.moves.beside ({id} + {oldId})
    rw [← add_assoc] at second
    have third := (Moves.drop removeOld).beside' ({newId} + {id})
    have fourth := (Moves.drop removeNew).frame {id}
    rw [zero_add] at fourth
    exact ((((looked.moves room).trans second).trans third).trans fourth).trans (.of_metas rfl rfl)

/-- `append` and `prepend` need room for a second record. -/
def Store.JoinOk (s : Store) (comm : NreadComm) (id : ℕ) (r : Rec) : Prop :=
  comm = .append ∨ comm = .prepend → ∀ oldId, s.find r.key = some oldId →
    2 ≤ r.data.length ∧ 2 ≤ (s.recAt oldId).data.length ∧ RoomFor s (s.joinSize id oldId)

theorem Looked.joins {old new : Option ℕ} {outcome : StoreItemType} {it : ℕ} {s₃ s₄ : Store}
    (looked : Looked s s₁ lay id r old) (short : r.key.length ≤ 250) (ok : s.JoinOk comm id r)
    (joins : comm = .append ∨ comm = .prepend)
    (branch : s₁.storeBranch comm id old = .ok (s₂, outcome, new, it))
    (removeOld : s₂.removeOpt old = .ok s₃) (removeNew : s₃.removeOpt new = .ok s₄) :
    ∃ lay', Stores s (if outcome = .stored then s₄.markItemStored it else s₄) lay lay' comm id r
      {id} outcome := by
  have rejects : s.accepts comm id (s.find r.key) = false := by
    rw [looked.found]
    rcases joins with rfl | rfl <;> cases old <;> simp [Store.accepts]
  cases old with
  | none =>
    have same : (s₁, StoreItemType.notStored, (none : Option ℕ), id) = (s₂, outcome, new, it) := by
      rcases joins with rfl | rfl <;> exact pure_ran.1 branch
    simp only [Prod.mk.injEq] at same
    obtain ⟨rfl, rfl, rfl, rfl⟩ := same
    obtain rfl := pure_ran.1 removeNew
    refine ⟨lay, .refused _ rejects (by decide) ?_⟩
    rw [looked.found]
    exact looked.refused looked.inv (.refl s₁) looked.view (.refl s₁ 0) removeOld
  | some oldId =>
    obtain ⟨two, two', room⟩ := ok joins oldId looked.found
    obtain ⟨member, key⟩ := looked.hit oldId rfl
    have recAt (k : ℕ) : s₁.recAt k = s.recAt k := by
      rw [Store.recAt, Store.recAt, looked.log, looked.items]
    have size := looked.joinSize oldId
    have run : Store.storeBranch.combine s₁ comm id s₁.log.mem
        (itemGetCas s₁.log.mem (s₁.itemOf id)) oldId = .ok (s₂, outcome, new, it) := by
      rcases joins with rfl | rfl <;> exact branch
    obtain ⟨lay₂, joined⟩ := looked.fresh.combine looked.inv member key short two
      (by rw [recAt]; exact two') (by rw [size]; exact room.congr looked.log) joins rfl run
    have flags : s₁.clientFlags oldId = s.clientFlags oldId := by
      rw [Store.clientFlags, Store.clientFlags, looked.log, looked.items]
    have journal : s₁.journal lay = s.journal lay := by
      rw [Store.journal, Store.journal, looked.log]
    have view : s₁.view lay = s.view lay := looked.view
    refine ⟨lay₂, ?_⟩
    generalize last : (new.map fun _ => it) = it' at joined
    cases joined with
    | refused _ failed inv setup view' moves =>
      obtain rfl := pure_ran.1 removeNew
      rw [if_neg failed]
      refine .refused _ rejects failed ?_
      rw [looked.found]
      exact looked.refused inv setup (view'.trans view) moves removeOld
    | tombstone q marked hkey hflags new inv setup view' moves =>
      obtain rfl := pure_ran.1 removeNew
      rw [journal] at new
      exact .tombstone oldId q looked.found joins (flags ▸ marked) hkey hflags new
        (looked.refused inv setup (by rw [view', view]) moves removeOld)
    | joined newId q hkey suffix two relink =>
      obtain rfl : it = newId := by simpa using last
      have new := relink.new
      rw [journal] at new
      exact .combined oldId { q with flags := storedFlags } looked.found joins hkey rfl new
        (flags ▸ suffix) two (looked.joined hkey relink removeOld removeNew)

theorem Fresh.doStoreItem {result : StoreItemType} (fresh : Fresh s lay id r) (h : StoreInv s lay)
    (alone : (s.metas id).refcount = 1) (short : r.key.length ≤ 250) (ok : s.JoinOk comm id r)
    (off : comm = .add → s.find r.key ≠ none → s.settings.lruLogEnabled = false)
    (run : s.doStoreItem comm id = .ok (s', result)) :
    ∃ lay', Stores s s' lay lay' comm id r {id} result := by
  obtain ⟨⟨s₁, old⟩, get, run⟩ := bind_ran.1 run
  have looked := fresh.looked h get
  obtain ⟨⟨s₂, outcome, new, it⟩, branch, run⟩ := bind_ran.1 run
  obtain ⟨s₃, removeOld, run⟩ := bind_ran.1 run
  obtain ⟨s₄, removeNew, run⟩ := bind_ran.1 run
  obtain ⟨rfl, rfl⟩ := pair_ran.1 run
  cases accepts : s₁.accepts comm id old with
  | true =>
    rw [storeBranch_accepts accepts] at branch
    obtain ⟨s₂, link, branch⟩ := bind_ran.1 branch
    have branch := pure_ran.1 branch
    simp only [Prod.mk.injEq] at branch
    obtain ⟨rfl, rfl, rfl, rfl⟩ := branch
    obtain rfl := pure_ran.1 removeNew
    exact ⟨lay, .stored (looked.accepts ▸ accepts) (looked.stored alone link removeOld)⟩
  | false =>
    by_cases joins : comm = .append ∨ comm = .prepend
    · exact looked.joins short ok joins branch removeOld removeNew
    · have rejects := looked.accepts ▸ accepts
      have quiet (add : comm = .add) : s₁.settings.lruLogEnabled = false := by
        rw [looked.setup.settings]
        refine off add fun absent => ?_
        rw [absent, add] at rejects
        cases rejects
      obtain ⟨failed, rfl, inv₂, table, moves⟩ :=
        looked.inv.storeBranch_rejects (A := 0) accepts joins quiet branch
      obtain rfl := pure_ran.1 removeNew
      rw [if_neg failed]
      refine ⟨lay, .refused _ rejects failed ?_⟩
      rw [looked.found]
      exact looked.refused inv₂ table.setup (table.view.trans looked.view) moves removeOld

theorem Outcome.release {v : View} (first : Outcome s s₁ lay lay' {id} {id} v)
    (remove : s₁.doItemRemove id = .ok s') : Outcome s s' lay lay' {id} 0 v := by
  have same := sameTable_doItemRemove remove
  exact ⟨first.inv.doItemRemove remove, first.setup.trans same.setup, same.view.trans first.view,
    fun room => (first.moves room).trans (.drop remove)⟩

theorem Stores.release {result : StoreItemType} (h : Stores s s₁ lay lay' comm id r {id} result)
    (remove : s₁.doItemRemove id = .ok s') : Stores s s' lay lay' comm id r 0 result := by
  cases h with
  | stored accepts out => exact .stored accepts (out.release remove)
  | refused _ rejects failed out => exact .refused _ rejects failed (out.release remove)
  | tombstone oldId q found joins marked hkey hflags new out =>
    exact .tombstone oldId q found joins marked hkey hflags new (out.release remove)
  | combined oldId q found joins hkey hflags new suffix two out =>
    exact .combined oldId q found joins hkey hflags new suffix two (out.release remove)

/-- `complete_nread_ascii`: the block is stored or, without its line end, marked corrupted. -/
theorem Fresh.completeNreadAscii {reply : Reply} (fresh : Fresh s lay id r) (h : StoreInv s lay)
    (alone : (s.metas id).refcount = 1) (apart : ∀ k ∈ s.table, s.itemOf k ≠ r.off)
    (short : r.key.length ≤ 250) (ok : s.JoinOk comm id r)
    (off : s.dataBlockEnds id = true → comm = .add → s.find r.key ≠ none →
      s.settings.lruLogEnabled = false)
    (run : s.completeNreadAscii comm id = .ok (s', reply)) :
    ∃ lay', s.dataBlockEnds id = true ∧
        (∃ result : StoreItemType, reply = result.reply ∧ Stores s s' lay lay' comm id r 0 result) ∨
      s.dataBlockEnds id = false ∧ reply = .badDataChunk ∧
        Outcome s s' lay lay' {id} 0 ((s.view lay).put { r with flags := corruptedFlags }) := by
  obtain ⟨⟨s₁, _⟩, first, run⟩ := bind_ran.1 run
  obtain ⟨s₂, remove, run⟩ := bind_ran.1 run
  obtain ⟨rfl, rfl⟩ := pair_ran.1 run
  unfold Store.storeBlock at first
  split_ifs at first with ends
  · obtain ⟨⟨s₃, result⟩, store, first⟩ := bind_ran.1 first
    obtain ⟨rfl, rfl⟩ := pair_ran.1 first
    obtain ⟨lay', stores⟩ := fresh.doStoreItem h alone short ok (off ends) store
    exact ⟨lay', Or.inl ⟨ends, result, rfl, stores.release remove⟩⟩
  · obtain ⟨rfl, rfl⟩ := pair_ran.1 first
    obtain ⟨inv, view⟩ := fresh.markCorrupted h apart
    have out : Outcome s (s.setMem (LogMemcached.markCorrupted s.log.mem (s.itemOf id))) lay lay
        {id} {id} ((s.view lay).put { r with flags := corruptedFlags }) :=
      ⟨inv, ⟨rfl, rfl, rfl⟩, view, fun _ => .of_metas rfl rfl⟩
    exact ⟨lay, Or.inr ⟨by simpa using ends, rfl, out.release remove⟩⟩

/-! ## Retrieval -/

theorem StoreInv.getKey {returnCas : Bool} {hit : Option (ℕ × List Store.Segment)}
    (h : StoreInv s lay) (off : s.settings.lruLogEnabled = false)
    (run : s.getKey returnCas key = .ok (s', hit)) :
    Outcome s s' lay lay 0 (hit.elim 0 fun p => {p.1})
        (if hit = none then (s.view lay).unlink key else s.view lay) ∧
      s'.log = s.log ∧ (∀ k, s'.itemOf k = s.itemOf k) ∧ (∀ k ∈ s'.table, k ∈ s.table) ∧
      ∀ id segments, hit = some (id, segments) →
        s.find key = some id ∧ segments = Store.hitSegments s.log.mem (s.itemOf id) returnCas := by
  obtain ⟨⟨s₁, it⟩, get, run⟩ := bind_ran.1 run
  cases it with
  | none =>
    obtain ⟨rfl, rfl⟩ := pair_ran.1 run
    obtain ⟨-, -, log, -, items, -⟩ := h.get_none get
    refine ⟨h.get_missing get, log, items, fun k hk => ?_, by simp⟩
    obtain ⟨-, -, -, rfl | ⟨id, -, -, cut⟩⟩ := h.doItemGet_none get
    · exact hk
    · rw [cut.table] at hk
      exact List.mem_of_mem_erase hk
  | some id =>
    obtain ⟨found, member, hkey, inv₁, table⟩ := h.get_some get
    obtain ⟨⟨s₂, new⟩, update, run⟩ := bind_ran.1 run
    obtain ⟨rfl, inv₂, table₂, moves⟩ := StoreInv.doItemUpdate_quiet (A := {id}) inv₁
      (by rw [table.settings, off]) update
    obtain ⟨rfl, rfl⟩ := pair_ran.1 run
    have same := table.trans table₂
    refine ⟨⟨inv₂, same.setup, same.view, fun room => (Moves.get h room.lt get).trans moves⟩,
      same.log, same.item, fun k hk => same.table ▸ hk, fun k segments eq => ?_⟩
    simp only [Option.some.injEq, Prod.mk.injEq] at eq
    obtain ⟨rfl, rfl⟩ := eq
    exact ⟨found, by rw [table.log, table.item]⟩

/-! ## Deletion -/

def deleteRequest (key : Key) : ℕ := allocTotal true key.length itemDeleted.toNat 0

theorem StoreInv.deleteLog {succeed : Bool} (h : StoreInv s lay) (short : key.length ≤ 250)
    (room : RoomFor s (deleteRequest key)) (run : s.deleteLog key = .ok (s', succeed)) :
    ∃ lay', (∀ k ∈ s.table, s'.metas k = s.metas k) ∧ (∀ k, s'.find k = s.find k) ∧
      (succeed = false ∧ Outcome s s' lay lay' 0 0 (s.view lay) ∨
      succeed = true ∧ ∃ r : Rec, r.key = key ∧ r.flags = itemDeleted ||| itemStored ∧
        (∀ q ∈ s.journal lay, q.off ≠ r.off) ∧ Outcome s s' lay lay' 0 0 ((s.view lay).log r)) := by
  obtain ⟨⟨s₁, it, done⟩, alloc, run⟩ := bind_ran.1 run
  obtain ⟨rfl, rfl⟩ := pair_ran.1 run
  have ok : AllocOk s key itemDeleted.toNat 0 :=
    ⟨short, by decide, le_rfl, by norm_num, room.size, room.wrap⟩
  obtain ⟨lay', inv, setup, metas, -, logs⟩ := h.logs ok alloc
  obtain ⟨moves, -⟩ := Moves.alloc h ok alloc
  refine ⟨lay', fun k hk => metas k (h.busy hk), h.find_alloc ok alloc, ?_⟩
  cases logs with
  | failed view => exact Or.inl ⟨rfl, inv, setup, view, fun _ => moves⟩
  | tombstone r marked hkey hflags new view =>
    exact Or.inr ⟨rfl, r, hkey, hflags, new, inv, setup, view, fun _ => moves⟩
  | item id r plain fresh new hkey suffix length expires view => exact absurd plain (by decide)

/-- The last step of `delete`; somebody else may have unlinked the item already. -/
theorem StoreInv.deleteUnlink (h : StoreInv s lay) (run : s.deleteUnlink id = .ok s') :
    Outcome s s' lay lay {id} 0
      (if (s.metas id).linked = true then (s.view lay).unlink (s.keyAt id) else s.view lay) := by
  obtain ⟨s₁, unlink, remove⟩ := bind_ran.1 run
  have same := sameTable_doItemRemove remove
  by_cases linked : (s.metas id).linked = true
  · rw [if_pos linked]
    obtain ⟨inv₁, cut⟩ := SweepInv.doItemUnlink h linked unlink
    refine ⟨inv₁.doItemRemove remove, cut.setup.trans same.setup, ?_, fun _ => ?_⟩
    · rw [same.view, cut.view h inv₁ ((h.linked id).2 linked)]
    · exact ((Moves.unlink h linked unlink).beside {id}).trans (.drop remove)
  · rw [if_neg linked]
    obtain rfl := doItemUnlink_unlinked (by simpa using linked) unlink
    exact ⟨h.doItemRemove remove, same.setup, same.view, fun _ => .drop remove⟩

/-! ## Flushing -/

def Store.reclock (s : Store) (now oldestLive oldestCas casId : ℕ) : Store :=
  { s with currentTime := now, oldestLive := oldestLive, oldestCas := oldestCas, casId := casId }

theorem StoreInv.reclock (h : StoreInv s lay) (now oldestLive oldestCas casId : ℕ) :
    StoreInv (s.reclock now oldestLive oldestCas casId) lay :=
  ⟨h.log, h.limit, h.useCas, h.bounded, h.small, h.nodup, h.linked, h.live, h.intact, h.keys,
    h.freeNodup, h.free, h.unlinked, h.tally⟩

theorem flushAll_eq (s : Store) (exptime : ℤ) : ∃ oldestLive oldestCas casId,
    (s.flushAll exptime).1 = s.reclock s.currentTime oldestLive oldestCas casId := by
  unfold Store.flushAll
  dsimp only
  generalize (if exptime > 0 then s.realtime exptime else s.currentTime) = newOldest
  generalize (newOldest + (2 ^ 32 - 1)) % 2 ^ 32 = oldestLive
  generalize (s.casId + 1) % 2 ^ 64 = next
  split_ifs
  · exact ⟨oldestLive, next, next, rfl⟩
  · exact ⟨oldestLive, s.oldestCas, s.casId, rfl⟩
  · exact ⟨newOldest, s.oldestCas, s.casId, rfl⟩
  · exact ⟨s.oldestLive, s.oldestCas, s.casId, rfl⟩

/-! ## Cleaning -/

theorem StoreInv.clean {n : ℕ} (h : StoreInv s lay) (guard : lruMaintainerGuard s.log = true)
    (run : s.memlogClean = .ok (s', n)) :
    ∃ lay' k, Outcome s s' lay lay' 0 0 ((s.view lay).drop k) ∧
      (∀ q ∈ (s.journal lay).take k, s.log.memCurrentFreeing ≤ q.off ∧
        q.off < s.log.memCurrentFreeing + s.log.memLimit / 8) ∧
      ∀ i, s'.itemOf i = s.itemOf i := by
  obtain ⟨lay', gone, inv, cleans⟩ := h.memlogClean guard run
  have journal := cleans.journal h
  have taken : (s.journal lay).take gone.length = gone.map (recOf s.log.mem) := by
    rw [journal, List.take_left' (by simp)]
  refine ⟨lay', gone.length, ⟨inv, ⟨cleans.settings, cleans.clock, cleans.limit⟩, ?_,
    fun _ => .clean h guard run⟩, fun q hq => ?_, cleans.item⟩
  · refine View.ext ?_ (funext fun key => ?_)
    · change s'.journal lay' = (s.journal lay).drop gone.length
      rw [journal, List.drop_left' (by simp)]
    · change s'.lookup key = (s.lookup key).filter _
      rw [cleans.lookup h inv]
      congr 1
      funext o
      change _ = decide (∀ q ∈ (s.journal lay).take gone.length, q.off ≠ o)
      rw [taken, decide_eq_decide, List.forall_mem_map]
      rfl
  · rw [taken] at hq
    obtain ⟨b, hb, rfl⟩ := List.mem_map.1 hq
    exact cleans.near b hb

end LogMemcached

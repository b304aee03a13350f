import LogMemcached.Commands
import LogMemcached.RefCount

/-!
# What the commands do

For each command path: the invariant is kept, the view changes as stated, and the connection ends
up with the stated references.  A command that allocates needs a log that can serve the request;
the references are accounted for when every linked item can take one more.
-/

namespace LogMemcached

open ByteMem Tiling Fallible

/-- Every linked item can take `n` more references. -/
def Store.Roomy (s : Store) (n : ℕ) : Prop := ∀ k ∈ s.table, (s.metas k).refcount + n < 2 ^ 16

/-- The log can serve or refuse a request of `n` bytes without losing track of its records. -/
structure RoomFor (s : Store) (n : ℕ) : Prop where
  size : 16 * n ≤ s.log.memLimit
  wrap : WrapOk s.log n

/-- What a command leaves: the invariant, a view, and the references of its connection. -/
structure Outcome (s s' : Store) (lay lay' : Layout) (own own' : Multiset ℕ) (v : View) : Prop where
  inv : StoreInv s' lay'
  setup : SameSetup s s'
  view : s'.view lay' = v
  moves : s.Roomy 1 → Moves s own s' own'

variable {s s₁ s₂ s' : Store} {lay lay' : Layout} {id newId : ℕ} {key : Key} {exptime flags : ℕ}
  {nbytes : ℤ} {r : Rec}

theorem RoomFor.congr {n : ℕ} (room : RoomFor s n) (log : s'.log = s.log) : RoomFor s' n :=
  ⟨by rw [log]; exact room.size, by rw [log]; exact room.wrap⟩

theorem Store.Roomy.lt {n : ℕ} (room : s.Roomy (n + 1)) :
    ∀ k ∈ s.table, (s.metas k).refcount < 2 ^ 16 - 1 := fun k hk => by
  have := room k hk
  omega

/-! ## Writing an item again

`touch`, `incr`, `decr`, `append` and `prepend` allocate a second item for the key of a linked one,
fill it and put it in its place. -/

/-- A new item, not yet marked, has taken the place of a linked one. -/
structure Relink (s s' : Store) (lay lay' : Layout) (newId : ℕ) (r : Rec) : Prop where
  inv : StoreInv s' lay'
  setup : SameSetup s s'
  view : s'.view lay' = ((s.view lay).log r).link r.key r.off
  off : r.off = s'.itemOf newId
  flags : r.flags = itemCas ||| itemDirty
  new : ∀ q ∈ s.journal lay, q.off ≠ r.off
  moves : Moves s 0 s' {newId}
  items : ∀ k ∉ s.freelist, s'.itemOf k = s.itemOf k

theorem Relink.mem (h : Relink s s' lay lay' newId r) : r ∈ s'.journal lay' := by
  rw [journal_of_view h.view]
  exact List.mem_append_right _ (List.mem_singleton_self r)

theorem Relink.alone (h : Relink s s' lay lay' newId r) (inv : StoreInv s lay)
    (member : id ∈ s.table) (key : r.key = s.keyAt id) :
    ∀ k ∈ s'.table, s'.itemOf k ≠ s.itemOf id := by
  intro k hk item
  have old : s.recAt id ∈ s'.journal lay' := by
    rw [journal_of_view h.view]
    exact List.mem_append_left _ (inv.recAt_mem member)
  have same : s'.recAt k = s.recAt id := recAt_eq old item.symm
  have hkey : s'.keyAt k = r.key := (congrArg Rec.key same).trans key.symm
  have found : s'.lookup r.key = some (s'.itemOf k) := by
    rw [Store.lookup, h.inv.assocFind_iff.2 ⟨hk, hkey⟩]
    rfl
  have linked : s'.lookup r.key = some r.off :=
    (congrFun (congrArg View.table h.view) r.key).trans (Function.update_self ..)
  rw [found, item] at linked
  exact h.new _ (inv.recAt_mem member) (Option.some.inj linked)

/-- A new item for the key of a linked one, filled but not yet in its place. -/
structure Refill (s s' : Store) (lay lay' : Layout) (id newId : ℕ) (r : Rec) : Prop where
  inv : StoreInv s' lay'
  setup : SameSetup s s'
  fresh : Fresh s' lay' newId r
  alone : (s'.metas newId).refcount = 1
  member : id ∈ s'.table
  key : s'.keyAt id = r.key
  view : s'.view lay' = (s.view lay).log r
  new : ∀ q ∈ s.journal lay, q.off ≠ r.off
  moves : Moves s 0 s' {newId}
  items : ∀ k ∉ s.freelist, s'.itemOf k = s.itemOf k

/-- The records of items in use are still there, beside the record `q`. -/
def Beside (s s₁ : Store) (lay lay₁ : Layout) (q : Rec) : Prop :=
  ∀ k, s.recAt k ∈ s.journal lay → k ∉ s.freelist →
    s₁.recAt k = s.recAt k ∧ s₁.recAt k ∈ s₁.journal lay₁ ∧ s₁.itemOf k ≠ q.off

theorem beside_new {q : Rec} (metas : ∀ k ∉ s.freelist, s₁.metas k = s.metas k)
    (new : ∀ r ∈ s.journal lay, r.off ≠ q.off) (view : s₁.view lay' = (s.view lay).log q) :
    Beside s s₁ lay lay' q := by
  intro k mem used
  have recs : s₁.journal lay' = s.journal lay ++ [q] := journal_of_view view
  have mem₁ : s.recAt k ∈ s₁.journal lay' := by
    rw [recs]
    exact List.mem_append_left _ mem
  have item : s₁.itemOf k = s.itemOf k := congrArg ItemMeta.item (metas k used)
  have same : s₁.recAt k = s.recAt k := recAt_eq mem₁ item.symm
  exact ⟨same, same ▸ mem₁, item ▸ new _ mem⟩

theorem StoreInv.refill {succeed : Bool} (h : StoreInv s lay) (member : id ∈ s.table)
    (ok : AllocOk s (s.keyAt id) flags nbytes)
    (alloc : s.doItemAlloc (s.keyAt id) flags exptime nbytes = .ok (s₁, some newId, succeed))
    (fill : ∀ lay₁ q, StoreInv s₁ lay₁ → Fresh s₁ lay₁ newId q → q.data.length = nbytes.toNat →
      Beside s s₁ lay lay₁ q →
      ∃ q', Fills s₁ s₂ lay₁ newId q q') :
    ∃ lay' r, Refill s s₂ lay lay' id newId r ∧ r.key = s.keyAt id ∧
      r.suffix = suffixText flags nbytes ∧ r.data.length = nbytes.toNat := by
  obtain ⟨lay₁, inv₁, setup₁, metas, table, logs⟩ := h.logs ok alloc
  obtain ⟨moves₁, alone⟩ := Moves.alloc h ok alloc
  cases logs with
  | item _ q plain fresh new hkey suffix length expires view₁ =>
    have busy := h.busy member
    have kept := beside_new metas new view₁
    obtain ⟨q', fills⟩ := fill lay₁ q inv₁ fresh length kept
    obtain ⟨m, rfl⟩ := fills.shape
    have member₂ : id ∈ (s₁.setMem m).table := by
      change id ∈ s₁.table
      rw [table]
      exact member
    obtain ⟨old, mem, other⟩ := kept id (h.recAt_mem member) busy
    have key : s₁.keyAt id = s.keyAt id := congrArg Rec.key old
    have key₂ : (s₁.setMem m).keyAt id = s₁.keyAt id := congrArg Rec.key (fills.recAt mem other)
    have sameKey : q'.key = s.keyAt id := by rw [fills.same]; exact hkey
    have off' : q'.off = q.off := by rw [fills.same]
    refine ⟨lay₁, q', ⟨fills.inv, setup₁.trans fills.setup, fills.fresh, alone newId rfl, member₂,
      by rw [key₂, key, sameKey], ?_, ?_, moves₁.trans (.of_metas rfl rfl),
      fun k hk => congrArg ItemMeta.item (metas k hk)⟩, sameKey, by rw [fills.same]; exact suffix,
      fills.length.trans length⟩
    · rw [fills.view, view₁, View.put_log (o := q.off) new rfl off']
    · rw [off']
      exact new

theorem Refill.relink (h : Refill s s₂ lay lay' id newId r)
    (replace : s₂.doItemReplace id newId = .ok s') : Relink s s' lay lay' newId r := by
  obtain ⟨inv', setup', items, view'⟩ := h.fresh.replace h.inv h.member h.key replace
  have linked : (s₂.metas id).linked = true := (h.inv.linked id).1 h.member
  have moves : Moves s₂ {newId} s' {newId} :=
    .replace h.inv linked h.fresh.unlinked h.alone replace
  exact ⟨inv', h.setup.trans setup', by rw [view', h.view], h.fresh.off.trans (items newId).symm,
    h.fresh.flags, h.new, h.moves.trans moves, fun k hk => (items k).trans (h.items k hk)⟩

theorem StoreInv.relink {succeed : Bool} (h : StoreInv s lay) (member : id ∈ s.table)
    (ok : AllocOk s (s.keyAt id) flags nbytes)
    (alloc : s.doItemAlloc (s.keyAt id) flags exptime nbytes = .ok (s₁, some newId, succeed))
    (fill : ∀ lay₁ q, StoreInv s₁ lay₁ → Fresh s₁ lay₁ newId q → q.data.length = nbytes.toNat →
      Beside s s₁ lay lay₁ q →
      ∃ q', Fills s₁ s₂ lay₁ newId q q')
    (replace : s₂.doItemReplace id newId = .ok s') :
    ∃ lay' r, Relink s s' lay lay' newId r ∧ r.key = s.keyAt id ∧
      r.suffix = suffixText flags nbytes ∧ r.data.length = nbytes.toNat := by
  obtain ⟨lay', r, refill, rest⟩ := h.refill member ok alloc fill
  exact ⟨lay', r, refill.relink replace, rest⟩

theorem Relink.stored (h : Relink s s' lay lay' newId r) (inv : StoreInv s₁ lay')
    (view : s₁.view lay' = s'.view lay') (item : s₁.itemOf newId = s'.itemOf newId)
    (setup : SameSetup s' s₁) :
    StoreInv (s₁.markItemStored newId) lay' ∧ SameSetup s (s₁.markItemStored newId) ∧
      (s₁.markItemStored newId).view lay' =
        ((s.view lay).log { r with flags := storedFlags }).link r.key r.off := by
  have mem : r ∈ s₁.journal lay' := by
    rw [journal_of_view view]
    exact h.mem
  obtain ⟨inv', view'⟩ := inv.markItemStored mem (h.off.trans item.symm) h.flags
  refine ⟨inv', h.setup.trans (setup.trans ⟨rfl, rfl, rfl⟩), ?_⟩
  rw [view', view, h.view]
  have put := View.put_log (v := s.view lay) (r := r) (p := { r with flags := storedFlags }) h.new
    rfl rfl
  exact congrArg (View.link · r.key r.off) put

/-- What writing an item again, with the client flags `given`, does to the store, by how far it
got. -/
inductive Relogs (s s' : Store) (lay lay' : Layout) (key : Key) (given : ℕ → ℕ) : Prop
  | missing (absent : s.find key = none) (out : Outcome s s' lay lay' 0 0 ((s.view lay).unlink key))
  | refused (out : Outcome s s' lay lay' 0 0 (s.view lay))
  | tombstone (id : ℕ) (r : Rec) (found : s.find key = some id)
      (marked : deletedBit (given id) = true) (hkey : r.key = key)
      (hflags : r.flags = itemDeleted ||| itemStored)
      (new : ∀ q ∈ s.journal lay, q.off ≠ r.off)
      (out : Outcome s s' lay lay' 0 0 ((s.view lay).log r))
  | relinked (id : ℕ) (r : Rec) (found : s.find key = some id) (hkey : r.key = key)
      (hflags : r.flags = storedFlags) (new : ∀ q ∈ s.journal lay, q.off ≠ r.off)
      (suffix : r.suffix = suffixText (given id) r.data.length)
      (two : 2 ≤ (s.recAt id).data.length → 2 ≤ r.data.length)
      (out : Outcome s s' lay lay' 0 0 (((s.view lay).log r).link key r.off))

theorem StoreInv.relogs_none {succeed : Bool} {given : ℕ → ℕ} (h : StoreInv s lay)
    (get : s.doItemGet key = .ok (s₁, some id)) (ok : AllocOk s₁ key (given id) nbytes)
    (alloc : s₁.doItemAlloc key (given id) exptime nbytes = .ok (s₂, none, succeed))
    (remove : s₂.doItemRemove id = .ok s') : ∃ lay', Relogs s s' lay lay' key given := by
  obtain ⟨found, -, -, inv₁, table⟩ := h.get_some get
  obtain ⟨lay', inv₂, setup₂, -, -, logs⟩ := StoreInv.logs inv₁ ok alloc
  have inv' := inv₂.doItemRemove remove
  have same := sameTable_doItemRemove remove
  have setup := table.setup.trans (setup₂.trans same.setup)
  have moves (room : s.Roomy 1) : Moves s 0 s' 0 :=
    ((Moves.get h room.lt get).trans ((Moves.alloc inv₁ ok alloc).1.beside {id})).trans
      (.drop remove)
  cases logs with
  | failed view => exact ⟨lay', .refused ⟨inv', setup, by rw [same.view, view, table.view], moves⟩⟩
  | tombstone r marked hkey hflags new view =>
    refine ⟨lay', .tombstone id r found marked hkey hflags ?_
      ⟨inv', setup, by rw [same.view, view, table.view], moves⟩⟩
    rwa [table.journal] at new

theorem StoreInv.relogs_some {given : ℕ → ℕ} (h : StoreInv s lay)
    (get : s.doItemGet key = .ok (s₁, some id)) (relink : Relink s₁ s₂ lay lay' newId r)
    (hkey : r.key = key) (suffix : r.suffix = suffixText (given id) r.data.length)
    (two : 2 ≤ (s.recAt id).data.length → 2 ≤ r.data.length)
    (inv : StoreInv s' lay') (setup : SameSetup s₁ s')
    (view : s'.view lay' =
      ((s₁.view lay).log { r with flags := storedFlags }).link r.key r.off)
    (moves : Moves s₂ ({newId} + {id}) s' 0) : Relogs s s' lay lay' key given := by
  subst hkey
  obtain ⟨found, -, -, inv₁, table⟩ := h.get_some get
  have new := relink.new
  rw [table.journal] at new
  rw [table.view] at view
  exact .relinked id { r with flags := storedFlags } found rfl rfl new suffix two
    ⟨inv, table.setup.trans setup, view,
      fun room => ((Moves.get h room.lt get).trans (relink.moves.beside {id})).trans moves⟩

theorem StoreInv.relogs_refused {given : ℕ → ℕ} (h : StoreInv s lay)
    (get : s.doItemGet key = .ok (s₁, some id)) (remove : s₁.doItemRemove id = .ok s') :
    Relogs s s' lay lay key given := by
  obtain ⟨-, -, -, inv₁, table⟩ := h.get_some get
  have same := table.trans (sameTable_doItemRemove remove)
  exact .refused ⟨inv₁.doItemRemove remove, same.setup, same.view,
    fun room => (Moves.get h room.lt get).trans (.drop remove)⟩

theorem StoreInv.relogs_missing {given : ℕ → ℕ} (h : StoreInv s lay)
    (get : s.doItemGet key = .ok (s', none)) : Relogs s s' lay lay key given := by
  obtain ⟨absent, inv, -, setup, -, view⟩ := h.get_none get
  exact .missing absent ⟨inv, setup, view, fun room => .get h room.lt get⟩

/-! ## Touch -/

def Store.clientFlags (s : Store) (id : ℕ) : ℕ := clientFlagsOf s.log.mem (s.itemOf id)

def Store.copySize (s : Store) (id : ℕ) : ℕ :=
  allocTotal true (s.keyAt id).length (s.clientFlags id) (nbytesInt s.log.mem (s.itemOf id))

/-- The request `do_item_touch` makes. -/
def Store.touchRequest (s : Store) (key : Key) : Option ℕ := (s.find key).map s.copySize

theorem SameTable.clientFlags (table : SameTable s s₁) (id : ℕ) :
    s₁.clientFlags id = s.clientFlags id := by
  rw [Store.clientFlags, Store.clientFlags, table.log, table.item]

theorem SameTable.copySize (table : SameTable s s₁) (id : ℕ) : s₁.copySize id = s.copySize id := by
  rw [Store.copySize, Store.copySize, table.clientFlags, table.keyAt, table.log, table.item]

/-- The key of a record, read with the length of the key that found it. -/
theorem slice_keyAt (hkey : s.keyAt id = key) :
    slice s.log.mem (itemKey s.log.mem (s.itemOf id)) key.length = s.keyAt id := by
  rw [← hkey, Store.keyAt, keyOf, length_slice]

theorem StoreInv.allocOk_copy (h : StoreInv s lay) (member : id ∈ s.table)
    (short : (s.keyAt id).length ≤ 250) (room : RoomFor s (s.copySize id)) :
    AllocOk s (s.keyAt id) (s.clientFlags id) (nbytesInt s.log.mem (s.itemOf id)) := by
  obtain ⟨eq, small⟩ := h.nbytesInt_recAt (h.recAt_mem member) rfl
  refine ⟨short, Nat.mod_lt _ (by norm_num), ?_, ?_, room.size, room.wrap⟩ <;> rw [eq]
  · exact Int.natCast_nonneg _
  · exact_mod_cast small

variable (id) in
theorem Fresh.copyData (fresh : Fresh s lay newId r) (h : StoreInv s lay)
    (length : r.data.length = (s.recAt id).data.length) :
    ∃ r', Fills s (s.copyData id newId) lay newId r r' :=
  ⟨_, fresh.write_data h _ _ le_rfl (by rw [length]; exact le_rfl)⟩

theorem StoreInv.allocOk_touch (h : StoreInv s lay) (get : s.doItemGet key = .ok (s₁, some id))
    (short : key.length ≤ 250) (room : ∀ n, s.touchRequest key = some n → RoomFor s n) :
    s.touchRequest key = some (s₁.copySize id) ∧
      AllocOk s₁ (s₁.keyAt id) (s₁.clientFlags id) (nbytesInt s₁.log.mem (s₁.itemOf id)) := by
  obtain ⟨found, member, hkey, inv₁, table⟩ := h.get_some get
  have request : s.touchRequest key = some (s₁.copySize id) := by
    rw [Store.touchRequest, found, table.copySize id]
    rfl
  exact ⟨request, StoreInv.allocOk_copy inv₁ member (by rw [hkey]; exact short)
    ((room _ request).congr table.log)⟩

theorem StoreInv.doItemTouch {it : Option ℕ} (h : StoreInv s lay) (short : key.length ≤ 250)
    (room : ∀ n, s.touchRequest key = some n → RoomFor s n)
    (run : s.doItemTouch key exptime = .ok (s', it)) :
    ∃ lay', Relogs s s' lay lay' key s.clientFlags := by
  obtain ⟨⟨s₁, old⟩, get, run⟩ := bind_ran.1 run
  cases old with
  | none =>
    obtain ⟨rfl, -⟩ := pair_ran.1 run
    exact ⟨lay, h.relogs_missing get⟩
  | some id =>
    obtain ⟨found, member, hkey, inv₁, table⟩ := h.get_some get
    obtain ⟨⟨s₂, new, succeed⟩, alloc, run⟩ := bind_ran.1 run
    -- `memcpy` takes the key's length from the command, which is that of the record
    have copied := slice_keyAt hkey
    have flags := table.clientFlags id
    have ok := (h.allocOk_touch get short room).2
    rw [copied, show clientFlagsOf s₁.log.mem (s₁.itemOf id) = s.clientFlags id from flags] at alloc
    rw [flags] at ok
    cases new with
    | none =>
      obtain ⟨s₃, remove, run⟩ := bind_ran.1 run
      obtain ⟨rfl, -⟩ := pair_ran.1 run
      rw [hkey] at ok alloc
      exact h.relogs_none get ok alloc remove
    | some newId =>
      obtain ⟨s₄, replace, run⟩ := bind_ran.1 run
      obtain ⟨s₅, remove, run⟩ := bind_ran.1 run
      obtain ⟨s₆, remove', run⟩ := bind_ran.1 run
      obtain ⟨rfl, -⟩ := pair_ran.1 run
      obtain ⟨eq, -⟩ := inv₁.nbytesInt_recAt (inv₁.recAt_mem member) rfl
      obtain ⟨lay', r, relink, rkey, suffix, length⟩ := StoreInv.relink inv₁ member ok alloc
        (fun lay₁ q inv fresh length kept => fresh.copyData id inv (by
          rw [length, eq, (kept id (inv₁.recAt_mem member) (inv₁.busy member)).1]
          rfl)) replace
      have same := (sameTable_doItemRemove remove).trans (sameTable_doItemRemove remove')
      have inv₆ := (relink.inv.doItemRemove remove).doItemRemove remove'
      obtain ⟨inv', setup, view⟩ := relink.stored inv₆ same.view (same.item newId) same.setup
      have count : nbytesInt s₁.log.mem (s₁.itemOf id) = r.data.length := by
        rw [length, eq]
        rfl
      rw [count] at suffix
      have moves : Moves s₄ ({newId} + {id}) (s₆.markItemStored newId) 0 := by
        have first := (Moves.drop remove).beside' {newId}
        exact (first.trans (.drop remove')).trans (.of_metas rfl rfl)
      have two : 2 ≤ (s.recAt id).data.length → 2 ≤ r.data.length := by
        rw [length, eq, Store.recAt, Store.recAt, table.log, table.item]
        exact fun two => two
      exact ⟨lay', h.relogs_some get relink (rkey.trans hkey) suffix two inv' setup view moves⟩

/-! ## Arithmetic -/

theorem safeStrtoull_lt {str : List UInt8} {n : ℕ} (h : safeStrtoull str = some n) : n < 2 ^ 64 := by
  unfold safeStrtoull at h
  dsimp only at h
  split at h
  · cases h
  · split_ifs at h with large neg sign
    · cases h
      exact Nat.mod_lt _ (by norm_num)
    · cases h
      omega

theorem deltaValue_lt {incr : Bool} {value delta : ℕ} (small : value < 2 ^ 64) :
    Store.deltaValue incr value delta < 2 ^ 64 := by
  unfold Store.deltaValue
  split_ifs
  · exact Nat.mod_lt _ (by norm_num)
  · norm_num
  · omega

/-- The flags `do_add_delta` reads, from the byte after the first one of the suffix. -/
def Store.deltaFlags (s : Store) (id : ℕ) : ℕ :=
  CText.strtoul ((suffixOf s.log.mem (s.itemOf id)).drop 1) % 2 ^ 32

/-- The request `do_add_delta` makes. -/
def Store.deltaRequest (s : Store) (key : Key) (incr : Bool) (delta : ℕ) : Option ℕ :=
  (s.find key).bind fun id => (safeStrtoull (s.dataText id)).map fun value =>
    allocTotal true key.length (s.deltaFlags id)
      ((CText.decimal (deltaValue incr value delta)).length + 2)

theorem SameTable.deltaFlags (table : SameTable s s₁) (id : ℕ) :
    s₁.deltaFlags id = s.deltaFlags id := by
  rw [Store.deltaFlags, Store.deltaFlags, table.log, table.item]

theorem SameTable.dataText (table : SameTable s s₁) (id : ℕ) : s₁.dataText id = s.dataText id := by
  rw [Store.dataText, Store.dataText, table.log, table.item]

theorem StoreInv.setCas (h : StoreInv s lay) (mem : r ∈ s.journal lay)
    (alone : ∀ k ∈ s.table, s.itemOf k ≠ r.off) (cas : ℕ) :
    StoreInv (s.setMem (itemSetCas s.log.mem r.off cas)) lay ∧
      (s.setMem (itemSetCas s.log.mem r.off cas)).view lay = s.view lay := by
  obtain ⟨b, hb, rfl⟩ := SweepInv.mem_journal.1 mem
  have outside := fun x hx => (h.wholeRec hb).setCas_outside (x := x) cas hx
  have decoded : recOf (itemSetCas s.log.mem b.off cas) b = recOf s.log.mem b := recOf_itemSetCas cas
  have key : keyOf (itemSetCas s.log.mem b.off cas) b.off = keyOf s.log.mem b.off :=
    congrArg Rec.key decoded
  have inv : StoreInv (s.setMem (itemSetCas s.log.mem b.off cas)) lay :=
    h.setMem hb outside ((h.wholeRec hb).setCas cas) key (fun k hk item =>
      (item ▸ h.intact k hk : Intact s.log.mem b.off).congr (congrArg Rec.flags decoded))
      fun k hk item => absurd item (alone k hk)
  refine ⟨inv, (h.view_setMem hb outside key inv).trans ?_⟩
  rw [decoded]
  refine View.ext ?_ rfl
  refine (List.map_congr_left (g := fun q => q) fun q hq => ?_).trans (List.map_id' _)
  split_ifs with same
  · exact h.rec_inj (SweepInv.mem_journal.2 ⟨b, hb, rfl⟩) hq same.symm
  · rfl

theorem SameTable.allocOk_delta {value : ℕ} (table : SameTable s s₁) (hkey : s₁.keyAt id = key)
    (short : key.length ≤ 250) (small : value < 2 ^ 64)
    (room : RoomFor s (allocTotal true key.length (s.deltaFlags id)
      ((CText.decimal value).length + 2))) :
    AllocOk s₁ (s₁.keyAt id) (s.deltaFlags id) ((CText.decimal value).length + 2) := by
  have length := CText.length_decimal_le (n := value) (k := 20) (by norm_num) (by omega)
  have room := room.congr table.log
  rw [← hkey] at room short
  exact ⟨short, Nat.mod_lt _ (by norm_num), by omega, by omega, room.size, room.wrap⟩

theorem StoreInv.deltaStore {value : ℕ} {result : DeltaResult} (h : StoreInv s lay)
    (get : s.doItemGet key = .ok (s₁, some id)) (short : key.length ≤ 250) (small : value < 2 ^ 64)
    (room : RoomFor s (allocTotal true key.length (s.deltaFlags id)
      ((CText.decimal value).length + 2)))
    (run : s₁.deltaStore id value = .ok (s', result)) :
    ∃ lay', Relogs s s' lay lay' key s.deltaFlags := by
  obtain ⟨found, member, hkey, inv₁, table⟩ := h.get_some get
  have flags := table.deltaFlags id
  have ok := table.allocOk_delta hkey short small room
  unfold Store.deltaStore at run
  dsimp only at run
  split_ifs at run with many one
  · obtain ⟨⟨s₂, new, succeed⟩, alloc, run⟩ := bind_ran.1 run
    rw [show CText.strtoul ((suffixOf s₁.log.mem (s₁.itemOf id)).drop 1) % 2 ^ 32 =
      s.deltaFlags id from flags] at alloc
    change s₁.doItemAlloc (s₁.keyAt id) _ _ _ = _ at alloc
    cases new with
    | none =>
      obtain ⟨s₃, remove, run⟩ := bind_ran.1 run
      obtain ⟨rfl, -⟩ := pair_ran.1 run
      rw [hkey] at ok alloc
      exact h.relogs_none get ok alloc remove
    | some newId =>
      obtain ⟨s₄, replace, run⟩ := bind_ran.1 run
      obtain ⟨s₅, remove, run⟩ := bind_ran.1 run
      obtain ⟨s₆, remove', run⟩ := bind_ran.1 run
      obtain ⟨rfl, -⟩ := pair_ran.1 run
      obtain ⟨lay', r, relink, rkey, suffix, total⟩ := StoreInv.relink inv₁ member ok alloc
        (fun lay₁ q inv fresh total _ => ⟨_, fresh.write_data inv _ _ le_rfl (by
          rw [total, List.length_append]
          simp only [List.length_cons, List.length_nil]
          omega)⟩) replace
      have old : s₁.recAt id ∈ s₄.journal lay' := by
        rw [journal_of_view relink.view]
        exact List.mem_append_left _ (inv₁.recAt_mem member)
      generalize (if s₄.settings.useCas then _ else 0) = cas at remove
      set s₃ := s₄.setMem (itemSetCas s₄.log.mem (s₁.itemOf id) cas)
      have recas : StoreInv s₃ lay' ∧ s₃.view lay' = s₄.view lay' := 
        StoreInv.setCas relink.inv old (relink.alone inv₁ member rkey) cas
      obtain ⟨inv₅, view₅⟩ := recas
      obtain ⟨inv₆, setup, view⟩ := relink.stored inv₅ view₅ rfl ⟨rfl, rfl, rfl⟩
      have same := (sameTable_doItemRemove remove).trans (sameTable_doItemRemove remove')
      have inv' := (SweepInv.doItemRemove inv₆ remove).doItemRemove remove'
      have count : ((CText.decimal value).length + 2 : ℤ) = r.data.length := by omega
      rw [count] at suffix
      have moves : Moves s₄ ({newId} + {id}) s₆ 0 := by
        have first := (Moves.drop remove).frame {id}
        rw [zero_add] at first
        have marked : Moves s₄ ({newId} + {id}) (s₃.markItemStored newId) ({newId} + {id}) :=
          .of_metas rfl rfl
        exact marked.trans (first.trans (.drop remove'))
      exact ⟨lay', h.relogs_some get relink (rkey.trans hkey) suffix (fun _ => by omega) inv'
        (setup.trans same.setup) (by rw [same.view, view]) moves⟩
  · obtain ⟨s₃, remove, run⟩ := bind_ran.1 run
    obtain ⟨rfl, -⟩ := pair_ran.1 run
    exact ⟨lay, h.relogs_refused get remove⟩
  · -- a count of zero after the lookup can only come from an overflow
    obtain ⟨rfl, -⟩ := pair_ran.1 run
    refine ⟨lay, .refused ⟨inv₁, table.setup, table.view, fun room => ?_⟩⟩
    obtain ⟨-, -, hit, -, rfl⟩ := h.doItemGet_some get
    have below := room id (assocFind_linked hit).1
    have count : ((s.refcountIncr id).metas id).refcount = ((s.metas id).refcount + 1) % 2 ^ 16 := by
      simp [Store.refcountIncr, Store.updateMeta]
    omega

/-- `incr` and `decr`; on a value of less than one byte the reference of the lookup stays behind. -/
theorem StoreInv.doAddDelta {incr : Bool} {delta : ℕ} {cas : Option ℕ} {result : DeltaResult}
    (h : StoreInv s lay) (short : key.length ≤ 250)
    (room : ∀ id, s.find key = some id → 2 < nbytesInt s.log.mem (s.itemOf id) →
      ∀ n, s.deltaRequest key incr delta = some n → RoomFor s n)
    (run : s.doAddDelta key incr delta cas = .ok (s', result)) :
    ∃ lay', Relogs s s' lay lay' key s.deltaFlags ∨
      ∃ id, s.find key = some id ∧ nbytesInt s.log.mem (s.itemOf id) ≤ 2 ∧
        Outcome s s' lay lay' 0 {id} (s.view lay) := by
  obtain ⟨⟨s₁, old⟩, get, run⟩ := bind_ran.1 run
  cases old with
  | none =>
    obtain ⟨rfl, -⟩ := pair_ran.1 run
    exact ⟨lay, Or.inl (h.relogs_missing get)⟩
  | some id =>
    obtain ⟨found, member, hkey, inv₁, table⟩ := h.get_some get
    dsimp only at run
    split_ifs at run with tiny mismatch
    · obtain ⟨rfl, -⟩ := pair_ran.1 run
      rw [table.log, table.item] at tiny
      exact ⟨lay, Or.inr ⟨id, found, tiny, inv₁, table.setup, table.view,
        fun room => .get h room.lt get⟩⟩
    · obtain ⟨s₂, remove, run⟩ := bind_ran.1 run
      obtain ⟨rfl, -⟩ := pair_ran.1 run
      exact ⟨lay, Or.inl (h.relogs_refused get remove)⟩
    · have text := table.dataText id
      rw [text] at run
      cases parse : safeStrtoull (s.dataText id) with
      | none =>
        simp only [parse] at run
        obtain ⟨s₂, remove, run⟩ := bind_ran.1 run
        obtain ⟨rfl, -⟩ := pair_ran.1 run
        exact ⟨lay, Or.inl (h.relogs_refused get remove)⟩
      | some value =>
        simp only [parse] at run
        rw [table.log, table.item, not_le] at tiny
        obtain ⟨lay', relogs⟩ := h.deltaStore get short (deltaValue_lt (safeStrtoull_lt parse))
          (room id found tiny _ (by simp [Store.deltaRequest, found, parse])) run
        exact ⟨lay', Or.inl relogs⟩

end LogMemcached

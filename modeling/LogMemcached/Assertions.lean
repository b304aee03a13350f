import LogMemcached.CleanerRuns
import LogMemcached.Rewrites

/-!
# No assertion fails

The functions of the store assert that what they release was held, that what they unlink is in the
table, and that a record finds metadata.  With the invariant of the server, and as long as the pool
has metadata for every record that the log serves, every step of every connection and of the
cleaner runs to its end.
-/

namespace LogMemcached

open ByteMem Tiling Fallible Store Transition

/-! ## Operations of the store -/

section Operations

variable {s s₁ s' : Store} {lay : Layout} {R : Multiset ℕ} {key : Key} {id : ℕ} {comm : NreadComm}
  {items : List ℕ}

theorem Counted.removeAll_ok (h : Counted s (items + R)) : ∃ s', s.removeAll items = .ok s' := by
  induction items generalizing s with
  | nil => exact ⟨s, rfl⟩
  | cons id ids ih =>
    rw [← Multiset.cons_coe, Multiset.cons_add] at h
    obtain ⟨s₁, remove⟩ := h.doItemRemove_ok
    obtain ⟨s', rest⟩ := ih (h.doItemRemove remove)
    exact ⟨s', bind_ran.2 ⟨s₁, remove, rest⟩⟩

theorem Counted.connReleaseItems_ok (h : Counted s (items + R)) :
    ∃ s', s.connReleaseItems items = .ok s' := by
  induction items generalizing s with
  | nil => exact ⟨s, rfl⟩
  | cons id ids ih =>
    rw [← Multiset.cons_coe, Multiset.cons_add] at h
    obtain ⟨s₁, remove⟩ := h.doItemRemove_ok
    obtain ⟨s', rest⟩ := ih (h.doItemRemove remove)
    refine ⟨s', check_bind_ran.2 ⟨?_, bind_ran.2 ⟨s₁, remove, rest⟩⟩⟩
    rw [h.held (Multiset.mem_cons_self id _)]
    rfl

/-- An item that is held can be unlinked and released. -/
theorem Counted.deleteUnlink_ok (h : Counted s (id ::ₘ R)) (inv : StoreInv s lay) :
    ∃ s', s.deleteUnlink id = .ok s' := by
  cases linked : (s.metas id).linked with
  | false =>
    have unlink : s.doItemUnlink id = .ok s := by
      rw [Store.doItemUnlink, linked]
      rfl
    obtain ⟨s', remove⟩ := h.doItemRemove_ok
    exact ⟨s', bind_ran.2 ⟨s, unlink, remove⟩⟩
  | true =>
    obtain ⟨s₁, unlink⟩ := h.doItemUnlink_ok inv linked
    obtain ⟨s', remove⟩ := (h.doItemUnlink inv linked unlink).doItemRemove_ok
    exact ⟨s', bind_ran.2 ⟨s₁, unlink, remove⟩⟩

theorem Counted.unlinkStale_ok (h : Counted s R) (inv : StoreInv s lay) (roomy : s.Roomy 1) :
    ∃ s', s.unlinkStale comm key = .ok s' := by
  unfold Store.unlinkStale
  split_ifs
  · obtain ⟨s₁, old, get⟩ : ∃ s' it, s.doItemGet key = .ok (s', it) := h.doItemGet_ok inv roomy
    rw [get, ok_bind]
    cases old with
    | none => exact ⟨s₁, rfl⟩
    | some id =>
      have held := h.doItemGet_some inv roomy get
      rw [Multiset.singleton_add] at held
      exact held.deleteUnlink_ok (inv.get_some get).2.2.2.1
  · exact ⟨s, rfl⟩

theorem Counted.processUpdateCommand_ok {flags cas : ℕ} {exptime vlen : ℤ} (h : Counted s R)
    (inv : StoreInv s lay) (roomy : s.Roomy 1) (word : flags < 2 ^ 32)
    (room : ∀ n, updateRequest key flags vlen = some n → RoomFor s n)
    (pool : ∀ n, updateRequest key flags vlen = some n → s.Provides n) :
    ∃ s' update, s.processUpdateCommand comm key flags exptime vlen cas = .ok (s', update) := by
  unfold Store.processUpdateCommand
  split_ifs with long range
  · exact ⟨_, _, rfl⟩
  · exact ⟨_, _, rfl⟩
  · have request : updateRequest key flags vlen =
        some (allocTotal true key.length flags (vlen + 2)) := if_neg (not_or.2 ⟨long, range⟩)
    have room := room _ request
    have pool := pool _ request
    have ok : AllocOk s key flags (vlen + 2) :=
      ⟨not_lt.1 long, word, by omega, by omega, room.size, room.wrap⟩
    rw [← inv.useCas] at pool
    obtain ⟨s₁, it, succeed, alloc⟩ := doItemAlloc_ok (fun _ => pool) (s.updateExptime exptime)
    rw [alloc, ok_bind]
    cases it with
    | some id => exact ⟨_, _, rfl⟩
    | none =>
      obtain ⟨lay₁, inv₁, -, metas, table, -⟩ := inv.logs ok alloc
      have after := ((Moves.alloc inv ok alloc).1 R (by rw [zero_add]; exact h)).1
      rw [Option.elim_none, zero_add] at after
      have roomy₁ : s₁.Roomy 1 := fun k hk => by
        rw [table] at hk
        rw [metas k (inv.busy hk)]
        exact roomy k hk
      obtain ⟨s₂, stale⟩ : ∃ s', s₁.unlinkStale comm key = .ok s' := after.unlinkStale_ok inv₁ roomy₁
      exact ⟨s₂, _, bind_ran.2 ⟨s₂, stale, rfl⟩⟩

theorem Fresh.completeNreadAscii_ok {r : Rec} (fresh : Fresh s lay id r) (h : StoreInv s lay)
    (counted : Counted s ({id} + R)) (roomy : s.Roomy 1) (alone : (s.metas id).refcount = 1)
    (short : r.key.length ≤ 250) (ok : s.JoinOk comm id r)
    (off : s.settings.lruLogEnabled = false)
    (pool : comm = .append ∨ comm = .prepend → ∀ oldId, s.find r.key = some oldId →
      s.Provides (s.joinSize id oldId)) :
    ∃ s' reply, s.completeNreadAscii comm id = .ok (s', reply) := by
  have released (s₁ : Store) (reply : Reply) (block : s.storeBlock comm id = .ok (s₁, reply))
      (moves : Moves s {id} s₁ {id}) : ∃ s' reply, s.completeNreadAscii comm id = .ok (s', reply) := by
    have after := (moves R counted).1
    rw [Multiset.singleton_add] at after
    obtain ⟨s₂, remove⟩ := after.doItemRemove_ok
    exact ⟨s₂, reply, bind_ran.2 ⟨_, block, bind_ran.2 ⟨s₂, remove, rfl⟩⟩⟩
  cases ends : s.dataBlockEnds id with
  | false =>
    refine released (s.setMem (LogMemcached.markCorrupted s.log.mem (s.itemOf id))) .badDataChunk ?_
      (.of_metas rfl rfl)
    rw [Store.storeBlock, ends]
    rfl
  | true =>
    obtain ⟨s₁, result, store⟩ : ∃ s' result, s.doStoreItem comm id = .ok (s', result) :=
      fresh.doStoreItem_ok h counted roomy alone short ok off pool
    obtain ⟨lay', stores⟩ := fresh.doStoreItem h alone short ok (fun _ _ => off) store
    have moves : Moves s {id} s₁ {id} := by
      cases stores with
      | stored accepts out => exact out.moves roomy
      | refused result rejects failed out => exact out.moves roomy
      | tombstone oldId q found joins marked hkey hflags new out => exact out.moves roomy
      | combined oldId q found joins hkey hflags new suffix two out => exact out.moves roomy
    refine released s₁ result.reply ?_ moves
    rw [Store.storeBlock, ends, if_pos rfl, store]
    rfl

theorem Counted.getKey_ok {returnCas : Bool} (h : Counted s R) (inv : StoreInv s lay)
    (roomy : s.Roomy 1) (off : s.settings.lruLogEnabled = false) :
    ∃ s' hit, s.getKey returnCas key = .ok (s', hit) := by
  obtain ⟨s₁, it, get⟩ : ∃ s' it, s.doItemGet key = .ok (s', it) := h.doItemGet_ok inv roomy
  rw [Store.getKey, get, ok_bind]
  cases it with
  | none => exact ⟨_, _, rfl⟩
  | some id =>
    obtain ⟨-, member, -, inv₁, table⟩ := inv.get_some get
    have quiet : s₁.settings.lruLogEnabled = false := by rw [table.settings, off]
    dsimp only
    rw [StoreInv.doItemUpdate_eq inv₁ quiet member, ok_bind]
    exact ⟨_, _, rfl⟩

theorem Counted.processGetKeys_ok {returnCas : Bool} {segments : List Segment} {keys : List Key}
    (h : Counted s (items + R)) (inv : StoreInv s lay) (roomy : s.Roomy keys.length)
    (off : s.settings.lruLogEnabled = false) :
    ∃ s' response, s.processGetKeys returnCas items segments keys = .ok (s', response) := by
  induction keys generalizing s items segments with
  | nil => exact ⟨_, _, rfl⟩
  | cons key keys ih =>
    rw [Store.processGetKeys]
    split_ifs
    · rw [← Multiset.coe_reverse] at h
      obtain ⟨s₁, remove⟩ := h.removeAll_ok
      exact ⟨s₁, none, by rw [remove, ok_bind]; rfl⟩
    · have one : s.Roomy 1 := fun k hk => by
        have := roomy k hk
        rw [List.length_cons] at this
        omega
      obtain ⟨s₁, hit, first⟩ : ∃ s' hit, s.getKey returnCas key = .ok (s', hit) :=
        h.getKey_ok inv one off
      obtain ⟨out, -, -, table, -⟩ := inv.getKey off first
      have quiet : s₁.settings.lruLogEnabled = false := by rw [out.setup.settings, off]
      have after := (out.moves one _ (by rw [zero_add]; exact h)).1
      have roomy₁ : s₁.Roomy keys.length := by
        refine Store.Roomy.after roomy inv out.inv h after (fun k => ?_) table
        rw [Multiset.count_add, Nat.add_comm]
        refine Nat.add_le_add_left ?_ _
        cases hit with
        | none => exact Nat.zero_le _
        | some p => exact Multiset.count_le_card k {p.1}
      rw [first, ok_bind]
      cases hit with
      | none =>
        rw [Option.elim_none, zero_add] at after
        exact ih after out.inv roomy₁ quiet
      | some p =>
        rw [Option.elim_some, ← add_assoc, add_comm {p.1}, ← Multiset.coe_singleton,
          Multiset.coe_add] at after
        exact ih after out.inv roomy₁ quiet

theorem Counted.doAddDelta_ok {incr : Bool} {delta : ℕ} (h : Counted s R) (inv : StoreInv s lay)
    (sound : (s.view lay).Sound) (roomy : s.Roomy 1) (short : key.length ≤ 250)
    (room : ∀ n, s.deltaRequest key incr delta = some n → RoomFor s n)
    (pool : ∀ n, s.deltaRequest key incr delta = some n → s.Provides n) :
    ∃ s' result, s.doAddDelta key incr delta none = .ok (s', result) := by
  obtain ⟨s₁, it, get⟩ : ∃ s' it, s.doItemGet key = .ok (s', it) := h.doItemGet_ok inv roomy
  rw [Store.doAddDelta, get, ok_bind]
  cases it with
  | none => exact ⟨_, _, rfl⟩
  | some id =>
    obtain ⟨found, member, hkey, inv₁, table⟩ := inv.get_some get
    have held := h.doItemGet_some inv roomy get
    rw [Multiset.singleton_add] at held
    obtain ⟨s₂, remove⟩ := held.doItemRemove_ok
    have text := table.dataText id
    dsimp only
    rw [text]
    split_ifs with tiny
    · exact ⟨_, _, rfl⟩
    · exact ⟨s₂, _, by rw [remove, ok_bind]; rfl⟩
    · cases parse : safeStrtoull (s.dataText id) with
      | none => exact ⟨s₂, _, by dsimp only; rw [remove, ok_bind]; rfl⟩
      | some value =>
        have request : s.deltaRequest key incr delta = some (allocTotal true key.length
            (s.deltaFlags id) ((CText.decimal (deltaValue incr value delta)).length + 2)) := by
          rw [Store.deltaRequest, found, Option.bind_some, parse]
          rfl
        obtain ⟨s', result, run, -⟩ := h.deltaStore_ok inv sound roomy get short
          (deltaValue_lt (safeStrtoull_lt parse)) (room _ request) (pool _ request)
        exact ⟨s', result, run⟩

/-! ## The cleaner -/

theorem Counted.memlogFreeItem_ok {p : ℕ} (h : Counted s R) (inv : SweepInv s lay p) :
    ∃ s' n, s.memlogFreeItem = .ok (s', n) := by
  have evict : ∃ s', s.memlogEvict = .ok s' := by
    unfold Store.memlogEvict
    dsimp only
    split_ifs
    · exact ⟨s, rfl⟩
    · cases found : s.assocFind (keyOf s.log.mem s.log.memCurrentFreeing) with
      | none => exact ⟨s, rfl⟩
      | some id =>
        dsimp only
        split_ifs
        · exact h.doItemUnlink_ok inv ((inv.linked id).1 (assocFind_linked found).1)
        · exact ⟨s, rfl⟩
  obtain ⟨s₁, evict⟩ := evict
  exact ⟨_, _, bind_ran.2 ⟨s₁, evict, rfl⟩⟩

theorem Counted.memlogFreeChunk_ok {p fuel : ℕ} (h : Counted s R) (inv : SweepInv s lay p)
    (short : Short s.log) (turns : s.log.memLimit / 8 - p < fuel) :
    ∃ s' q, s.memlogFreeChunk fuel p = .ok (s', q) := by
  induction fuel generalizing s lay p with
  | zero => omega
  | succ fuel ih =>
    rw [Store.memlogFreeChunk]
    split_ifs with more stop
    · exact ⟨_, _, rfl⟩
    · obtain ⟨s₁, n, first⟩ := h.memlogFreeItem_ok inv
      obtain ⟨lay₁, inv₁, short₁, positive, same, -, limit⟩ :=
        inv.turn short ⟨more, not_le.1 stop, first⟩
      have after := (Moves.freeItem inv limit first R (by rw [zero_add]; exact h)).1
      rw [zero_add] at after
      have small := inv.limit
      have toFree := inv.toFree
      obtain ⟨s', q, rest⟩ := ih after inv₁ short₁ (by omega)
      refine ⟨s', q, ?_⟩
      rw [first, ok_bind]
      dsimp only
      rw [same]
      exact rest
    · exact ⟨_, _, rfl⟩

theorem Counted.lruMaintainerFree_ok (h : Counted s R) (inv : StoreInv s lay) :
    ∃ s', s.lruMaintainerFree = .ok s' := by
  unfold Store.lruMaintainerFree
  split_ifs with guard
  · have limit := inv.limit
    have toFree := inv.toFree
    obtain ⟨s₁, q, chunk⟩ : ∃ s' q, s.memlogFreeChunk (s.log.toFree + 1) 0 = .ok (s', q) :=
      h.memlogFreeChunk_ok inv (inv.log.short inv.limit guard) (by omega)
    refine ⟨_, bind_ran.2 ⟨_, bind_ran.2 ⟨_, chunk, rfl⟩, rfl⟩⟩
  · exact ⟨s, rfl⟩

end Operations

/-! ## Steps of the server -/

section Steps

variable {ι : Type} [Fintype ι] [DecidableEq ι] {srv : Server ι} {lay : Layout}
  {leaked : Multiset ℕ} {a : Action ι}

/-- The pool has metadata for every item the step asks for. -/
def Server.Provided (srv : Server ι) (a : Action ι) : Prop :=
  (∀ c, a ≠ .deleteLog c) → ∀ n, srv.request a = some n → srv.store.Provides n

theorem ServerInv.counted_at (h : ServerInv srv lay leaked) (c : ι) {conn : Conn}
    (state : srv.conns c = conn) : Counted srv.store (conn.refs + (srv.rest c + leaked)) := by
  rw [← state, ← add_assoc, ← Server.refs_eq]
  exact h.counted

theorem ServerInv.step_ok (h : ServerInv srv lay leaked) (ok : srv.StepOk a)
    (provided : srv.Provided a) : ∃ r, srv.step a = .ok r := by
  have bound {α : Type} {x : Except Abort α} {f : α → Except Abort (Option (Server ι))}
      (first : ∃ y, x = .ok y) (rest : ∀ y, ∃ r, f y = .ok r) : ∃ r, (x >>= f) = .ok r := by
    obtain ⟨y, ran⟩ := first
    rw [ran, ok_bind]
    exact rest y
  have pair {α β : Type} {x : Except Abort (α × β)} (ran : ∃ a b, x = .ok (a, b)) :
      ∃ y, x = .ok y := by
    obtain ⟨a, b, ran⟩ := ran
    exact ⟨(a, b), ran⟩
  cases a <;> simp only [Server.step]
  case update c comm key flags exptime vlen cas =>
    split
    · refine bound (pair (h.counted.processUpdateCommand_ok h.inv ok.roomy (UInt32.toNat_lt _) ok.fits
        (provided (by simp)))) fun y => ?_
      obtain ⟨s', _ | id⟩ := y <;> exact ⟨_, rfl⟩
    · exact ⟨_, rfl⟩
  case recv c bytes =>
    split
    · split_ifs <;> exact ⟨_, rfl⟩
    · exact ⟨_, rfl⟩
  case complete c =>
    split
    · next comm id ritem start got nread =>
      have own := h.conn c
      rw [nread] at own
      obtain ⟨r, up⟩ := own
      refine bound (pair (up.fresh.completeNreadAscii_ok h.inv (h.counted_at c nread) ok.roomy up.alone
        (up.fresh.proper h.sound).short (h.joinOk ok nread up.fresh) ok.quiet
        fun joins oldId found => ?_)) fun y => ⟨_, rfl⟩
      refine provided (by simp) _ ?_
      simp only [Server.request, nread, if_pos joins, up.fresh.keyAt, found, Option.map_some]
    · exact ⟨_, rfl⟩
  case get c returnCas keys =>
    split
    · have none_held : Counted srv.store (([] : List ℕ) + (srv.refs + leaked)) := by
        rw [Multiset.coe_nil, zero_add]
        exact h.counted
      refine bound (pair (none_held.processGetKeys_ok h.inv ok.roomy ok.quiet)) fun y => ?_
      obtain ⟨s', _ | hits⟩ := y <;> exact ⟨_, rfl⟩
    · exact ⟨_, rfl⟩
  case send c n => split <;> exact ⟨_, rfl⟩
  case release c =>
    split
    · next items due mwrite =>
      exact bound (h.counted_at c mwrite).connReleaseItems_ok fun y => ⟨_, rfl⟩
    · exact ⟨_, rfl⟩
  case touch c key exptime =>
    split
    · refine bound ?_ fun y => ⟨_, rfl⟩
      unfold Store.processTouchCommand
      split_ifs with long
      · exact ⟨_, rfl⟩
      · obtain ⟨s', it, run⟩ := h.counted.doItemTouch_ok h.inv ok.roomy (not_lt.1 long) ok.fits
          (provided (by simp))
        exact ⟨_, bind_ran.2 ⟨_, run, rfl⟩⟩
    · exact ⟨_, rfl⟩
  case arithmetic c key incr delta =>
    split
    · refine bound ?_ fun y => ⟨_, rfl⟩
      unfold Store.processArithmeticCommand
      split_ifs with long
      · exact ⟨_, rfl⟩
      · obtain ⟨s', result, run⟩ := h.counted.doAddDelta_ok h.inv h.sound ok.roomy (not_lt.1 long)
          ok.fits (provided (by simp))
        exact ⟨_, bind_ran.2 ⟨_, run, rfl⟩⟩
    · exact ⟨_, rfl⟩
  case deleteLookup c key =>
    split
    · split_ifs
      · exact ⟨_, rfl⟩
      · exact bound (pair (h.counted.doItemGet_ok h.inv ok.roomy)) fun y => ⟨_, rfl⟩
    · exact ⟨_, rfl⟩
  case deleteLog c =>
    split
    · refine bound ?_ fun y => ⟨_, rfl⟩
      -- a tombstone takes no metadata
      have marked : deletedBit itemDeleted.toNat = true := by decide
      obtain ⟨s', it, succeed, alloc⟩ :=
        doItemAlloc_ok (fun plain => absurd (marked.symm.trans plain) (by decide)) 0
      exact ⟨_, bind_ran.2 ⟨_, alloc, rfl⟩⟩
    · exact ⟨_, rfl⟩
  case deleteUnlink c =>
    split
    · next id logged =>
      have held := h.counted_at c logged
      exact bound (Counted.deleteUnlink_ok (Multiset.singleton_add id _ ▸ held) h.inv) fun y => ⟨_, rfl⟩
    · exact ⟨_, rfl⟩
  case flushAll c exptime => split <;> exact ⟨_, rfl⟩
  case close c =>
    split
    · exact ⟨_, rfl⟩
    · next comm id ritem rlbytes start got nread =>
      have held := h.counted_at c nread
      exact bound (Counted.doItemRemove_ok (Multiset.singleton_add id _ ▸ held)) fun y => ⟨_, rfl⟩
    · next items segments due mwrite =>
      exact bound (h.counted_at c mwrite).connReleaseItems_ok fun y => ⟨_, rfl⟩
    · exact ⟨_, rfl⟩
  case clean => exact bound (h.counted.lruMaintainerFree_ok h.inv) fun y => ⟨_, rfl⟩
  case tick n => exact ⟨_, rfl⟩

end Steps

end LogMemcached

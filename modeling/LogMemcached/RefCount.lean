import LogMemcached.View

/-!
# Reference counts

`Counted s R` says that the reference counts of the store are exact when `R` is the multiset of
references held outside it: an item carries one reference for being linked and one for each of its
occurrences in `R`, and the freelist holds the items without any.  Every operation of the store
changes `R` by the references it takes or gives back.
-/

namespace LogMemcached

open ByteMem Tiling Fallible

/-- The reference counts are exact for the references `R`. -/
structure Counted (s : Store) (R : Multiset ℕ) : Prop where
  free : ∀ id, (s.metas id).slabbed = true → (s.metas id).refcount = 0 ∧ id ∉ R
  count : ∀ id, (s.metas id).slabbed = false →
    (s.metas id).refcount = (s.metas id).linked.toNat + R.count id
  small : ∀ id, (s.metas id).refcount < 2 ^ 16
  active : ∀ id < freelistSize s.log.memLimit, (s.metas id).slabbed = false →
    0 < (s.metas id).refcount

variable {s s' : Store} {R : Multiset ℕ} {id : ℕ} {lay : Layout}

theorem Counted.init (settings : Settings) (limit now : ℕ) :
    Counted (Store.init settings limit now) 0 where
  free := by simp [Store.init]
  count := by simp [Store.init]
  small := by simp [Store.init]
  active := by
    intro id hid slabbed
    simp only [Store.init, decide_eq_false_iff_not] at slabbed
    exact absurd hid slabbed

theorem Counted.held (h : Counted s R) (member : id ∈ R) : (s.metas id).slabbed = false := by
  cases slabbed : (s.metas id).slabbed with
  | false => rfl
  | true => exact absurd member (h.free id slabbed).2

theorem Counted.congr (h : Counted s R) (metas : s'.metas = s.metas)
    (limit : s'.log.memLimit = s.log.memLimit) : Counted s' R :=
  ⟨by rw [metas]; exact h.free, by rw [metas]; exact h.count, by rw [metas]; exact h.small,
    by rw [metas, limit]; exact h.active⟩

variable (id) in
theorem Counted.update {R' : Multiset ℕ} {it : ItemMeta} (h : Counted s R)
    (metas : s'.metas = Function.update s.metas id it)
    (limit : s'.log.memLimit = s.log.memLimit) (others : ∀ k ≠ id, R'.count k = R.count k)
    (slabbed : it.slabbed = false) (small : it.refcount < 2 ^ 16) (positive : 0 < it.refcount)
    (count : it.refcount = it.linked.toNat + R'.count id) : Counted s' R' := by
  have member : ∀ k ≠ id, (k ∈ R' ↔ k ∈ R) := fun k other => by
    rw [← Multiset.count_pos, ← Multiset.count_pos, others k other]
  refine ⟨fun k hk => ?_, fun k hk => ?_, fun k => ?_, fun k hk hk' => ?_⟩
  · rw [metas, Function.update_apply] at hk ⊢
    split_ifs at hk ⊢ with eq
    · rw [slabbed] at hk
      cases hk
    · rw [member k eq]
      exact h.free k hk
  · rw [metas, Function.update_apply] at hk ⊢
    split_ifs at hk ⊢ with eq
    · rw [eq]
      exact count
    · rw [others k eq]
      exact h.count k hk
  · rw [metas, Function.update_apply]
    split_ifs
    · exact small
    · exact h.small k
  · rw [metas, Function.update_apply] at hk' ⊢
    split_ifs at hk' ⊢ with eq
    · exact positive
    · exact h.active k (limit ▸ hk) hk'

/-! ## Taking and releasing references -/

theorem Counted.refcountIncr (h : Counted s R) (slabbed : (s.metas id).slabbed = false)
    (room : (s.metas id).refcount < 2 ^ 16 - 1) : Counted (s.refcountIncr id) (id ::ₘ R) := by
  have count := h.count id slabbed
  have next : ((s.metas id).refcount + 1) % 2 ^ 16 = (s.metas id).refcount + 1 :=
    Nat.mod_eq_of_lt (by omega)
  refine h.update id rfl rfl (fun k other => Multiset.count_cons_of_ne other _) slabbed ?_
    ?_ ?_
  · dsimp only
    omega
  · dsimp only
    omega
  · dsimp only
    rw [Multiset.count_cons_self, next]
    omega

theorem Counted.doItemRemove (h : Counted s (id ::ₘ R)) (run : s.doItemRemove id = .ok s') :
    Counted s' R := by
  have slabbed := h.held (Multiset.mem_cons_self id R)
  have count := h.count id slabbed
  have small := h.small id
  rw [Multiset.count_cons_self] at count
  have next : ((s.metas id).refcount + (2 ^ 16 - 1)) % 2 ^ 16 = (s.metas id).refcount - 1 := by
    omega
  obtain ⟨-, -, ⟨more, rfl⟩ | ⟨last, unlinked, rfl⟩⟩ := doItemRemove_ran run
  · rw [next] at more
    refine h.update id rfl rfl (fun k other => (Multiset.count_cons_of_ne other _).symm)
      slabbed ?_ ?_ ?_ <;> dsimp only <;> omega
  · rw [next] at last
    have none : R.count id = 0 := by omega
    have metas : ((s.refcountDecr id).freelistFree id).metas = Function.update s.metas id
        { s.metas id with refcount := 0, linked := false, slabbed := true } := by
      simp only [Store.freelistFree, Store.refcountDecr, Store.updateMeta, Function.update_idem,
        Function.update_self, next, last]
    refine ⟨fun k hk => ?_, fun k hk => ?_, fun k => ?_, fun k hk hk' => ?_⟩
    · rw [metas, Function.update_apply] at hk ⊢
      split_ifs at hk ⊢ with eq
      · exact ⟨rfl, by rw [eq]; exact Multiset.count_eq_zero.1 none⟩
      · obtain ⟨zero, absent⟩ := h.free k hk
        exact ⟨zero, fun hk => absent (Multiset.mem_cons_of_mem hk)⟩
    · rw [metas, Function.update_apply] at hk ⊢
      split_ifs at hk ⊢ with eq
      rw [h.count k hk, Multiset.count_cons_of_ne eq]
    · rw [metas, Function.update_apply]
      split_ifs
      · dsimp only
        omega
      · exact h.small k
    · rw [metas, Function.update_apply] at hk' ⊢
      split_ifs at hk' ⊢ with eq
      exact h.active k hk hk'

/-! ## Linking and unlinking -/

theorem Counted.cut (h : Counted s R) (linked : (s.metas id).linked = true)
    (slabbed : (s.metas id).slabbed = false) (stats : ItemStats) :
    Counted (s.cut id stats) (id ::ₘ R) := by
  have count := h.count id slabbed
  rw [linked, Bool.toNat_true] at count
  refine h.update id rfl rfl (fun k other => Multiset.count_cons_of_ne other _) slabbed
    (h.small id) ?_ ?_
  · dsimp only
    omega
  · dsimp only
    rw [Multiset.count_cons_self, count]
    simp [Nat.add_comm]

theorem SweepInv.slabbed_of_linked {p : ℕ} (inv : SweepInv s lay p)
    (linked : (s.metas id).linked = true) : (s.metas id).slabbed = false := by
  cases slabbed : (s.metas id).slabbed with
  | false => rfl
  | true =>
    have := inv.unlinked id ((inv.free id).2 slabbed)
    rw [linked] at this
    cases this

theorem Counted.doItemUnlink {p : ℕ} (h : Counted s R) (inv : SweepInv s lay p)
    (linked : (s.metas id).linked = true) (run : s.doItemUnlink id = .ok s') : Counted s' R := by
  have run := inv.doItemUnlink_ran linked run
  exact (h.cut linked (inv.slabbed_of_linked linked) _).doItemRemove run

theorem Counted.doItemLink (h : Counted s R) (room : (s.metas id).refcount < 2 ^ 16 - 1)
    (run : s.doItemLink id = .ok s') : Counted s' R := by
  obtain ⟨unlinked, slabbed, cas, casId, rfl⟩ := doItemLink_ran run
  have count := h.count id slabbed
  rw [unlinked, Bool.toNat_false] at count
  have next : ((s.metas id).refcount + 1) % 2 ^ 16 = (s.metas id).refcount + 1 :=
    Nat.mod_eq_of_lt (by omega)
  refine h.update id rfl rfl (fun _ _ => rfl) slabbed ?_ ?_ ?_
  · dsimp only
    omega
  · dsimp only
    omega
  · dsimp only
    rw [next, count]
    simp [Nat.add_comm]

theorem Counted.pop {it : ItemMeta} (h : Counted s R)
    (metas : s'.metas = Function.update s.metas id it)
    (limit : s'.log.memLimit = s.log.memLimit) (slabbed : (s.metas id).slabbed = true)
    (unlinked : (s.metas id).linked = false) (count : it.refcount = 1)
    (linked : it.linked = (s.metas id).linked) (used : it.slabbed = false) :
    Counted s' (id ::ₘ R) := by
  have absent := Multiset.count_eq_zero.2 (h.free id slabbed).2
  refine h.update id metas limit (fun k other => Multiset.count_cons_of_ne other _) used ?_ ?_ ?_
  · omega
  · omega
  · rw [Multiset.count_cons_self, absent, linked, unlinked, count]
    rfl

/-! ## Items that an operation does not touch -/

theorem doItemRemove_metas (run : s.doItemRemove id = .ok s') {k : ℕ} (other : k ≠ id) :
    s'.metas k = s.metas k := by
  obtain ⟨-, -, ⟨-, rfl⟩ | ⟨-, -, rfl⟩⟩ := doItemRemove_ran run
  · exact Function.update_of_ne other _ _
  · simp [Store.freelistFree, Store.refcountDecr, Store.updateMeta, Function.update_of_ne other]

theorem SweepInv.doItemUnlink_metas {p : ℕ} (inv : SweepInv s lay p)
    (run : s.doItemUnlink id = .ok s') {k : ℕ} (unlinked : (s.metas k).linked = false) :
    s'.metas k = s.metas k := by
  cases linked : (s.metas id).linked with
  | false => rw [doItemUnlink_unlinked linked run]
  | true =>
    have other : k ≠ id := by
      rintro rfl
      rw [linked] at unlinked
      cases unlinked
    have run := inv.doItemUnlink_ran linked run
    exact (doItemRemove_metas run other).trans (Function.update_of_ne other _ _)

theorem StoreInv.doItemGet_metas {key : Key} {it : Option ℕ} (inv : StoreInv s lay)
    (run : s.doItemGet key = .ok (s', it)) {k : ℕ} (unlinked : (s.metas k).linked = false) :
    s'.metas k = s.metas k := by
  have other (i : ℕ) (hit : s.assocFind key = some i) : k ≠ i := by
    rintro rfl
    rw [(inv.linked k).1 (assocFind_linked hit).1] at unlinked
    cases unlinked
  have incr (i : ℕ) (hit : s.assocFind key = some i) : (s.refcountIncr i).metas k = s.metas k :=
    Function.update_of_ne (other i hit) _ _
  cases doItemGet_ran run with
  | missing absent same => rw [same]
  | found i hit visible same => rw [same, incr i hit]
  | hidden i s₁ hit stale unlink remove =>
    rw [doItemRemove_metas remove (other i hit),
      inv.refcountIncr.doItemUnlink_metas unlink (by rw [incr i hit, unlinked]), incr i hit]

/-! ## References in motion -/

/-- What an operation of one connection keeps of an item that another one holds: its record, and
altogether when it is not linked and nobody else holds it. -/
structure Kept (s s' : Store) (k : ℕ) : Prop where
  item : s'.itemOf k = s.itemOf k
  linked : (s'.metas k).linked = true → (s.metas k).linked = true
  quiet : (s.metas k).linked = false → (s.metas k).refcount = 1 → s'.metas k = s.metas k

theorem Kept.trans {s₁ : Store} {k : ℕ} (h : Kept s s₁ k) (h' : Kept s₁ s' k) : Kept s s' k := by
  refine ⟨h'.item.trans h.item, fun linked => h.linked (h'.linked linked), fun unlinked one => ?_⟩
  have same := h.quiet unlinked one
  exact (h'.quiet (by rw [same, unlinked]) (by rw [same, one])).trans same

theorem Kept.of_metas {k : ℕ} (metas : s'.metas k = s.metas k) : Kept s s' k :=
  ⟨congrArg ItemMeta.item metas, fun linked => by rwa [metas] at linked, fun _ _ => metas⟩

/-- What a stretch of code does to the references of its connection, with those of everybody else
as a frame. -/
def Moves (s : Store) (own : Multiset ℕ) (s' : Store) (own' : Multiset ℕ) : Prop :=
  ∀ others, Counted s (own + others) →
    Counted s' (own' + others) ∧ ∀ k ∈ others, Kept s s' k

namespace Moves

variable {s₁ : Store} {A B C : Multiset ℕ}

theorem trans (h : Moves s A s₁ B) (h' : Moves s₁ B s' C) : Moves s A s' C := by
  intro others counted
  obtain ⟨counted₁, kept⟩ := h others counted
  obtain ⟨counted', kept'⟩ := h' others counted₁
  exact ⟨counted', fun k hk => (kept k hk).trans (kept' k hk)⟩

theorem frame (h : Moves s A s' B) (X : Multiset ℕ) : Moves s (A + X) s' (B + X) := by
  intro others counted
  rw [add_assoc] at counted ⊢
  obtain ⟨counted', kept⟩ := h (X + others) counted
  exact ⟨counted', fun k hk => kept k (Multiset.mem_add.2 (Or.inr hk))⟩

theorem beside (h : Moves s 0 s' B) (X : Multiset ℕ) : Moves s X s' (B + X) := by
  have := h.frame X
  rwa [zero_add] at this

theorem beside' (h : Moves s A s' 0) (X : Multiset ℕ) : Moves s (X + A) s' X := by
  have := h.frame X
  rwa [zero_add, add_comm] at this

theorem of_metas (metas : s'.metas = s.metas) (limit : s'.log.memLimit = s.log.memLimit) :
    Moves s A s' A := fun _ counted =>
  ⟨counted.congr metas limit, fun k _ => .of_metas (congrFun metas k)⟩

theorem refl (s : Store) (A : Multiset ℕ) : Moves s A s A := of_metas rfl rfl

theorem of_update {it : ItemMeta} (metas : s'.metas = Function.update s.metas id it)
    (item : it.item = (s.metas id).item)
    (busy : ∀ others, Counted s (A + others) → id ∈ others → (s.metas id).linked = true)
    (counted : ∀ others, Counted s (A + others) → Counted s' (B + others)) : Moves s A s' B := by
  intro others before
  refine ⟨counted others before, fun k hk => ?_⟩
  by_cases eq : k = id
  · subst eq
    have linked := busy others before hk
    refine ⟨by rw [Store.itemOf, metas, Function.update_self, item]; rfl, fun _ => linked,
      fun unlinked => ?_⟩
    rw [unlinked] at linked
    cases linked
  · exact .of_metas (by rw [metas, Function.update_of_ne eq])

theorem take (slabbed : (s.metas id).slabbed = false) (linked : (s.metas id).linked = true)
    (room : (s.metas id).refcount < 2 ^ 16 - 1) : Moves s 0 (s.refcountIncr id) {id} :=
  of_update rfl rfl (fun _ _ _ => linked) fun others before => by
    rw [Multiset.singleton_add]
    rw [zero_add] at before
    exact before.refcountIncr slabbed room

theorem drop (run : s.doItemRemove id = .ok s') : Moves s {id} s' 0 := by
  intro others before
  have counted : Counted s' (0 + others) := by
    rw [zero_add]
    exact (Multiset.singleton_add id others ▸ before).doItemRemove run
  have same := sameTable_doItemRemove run
  refine ⟨counted, fun k hk => ⟨same.item k, fun linked => by rwa [same.linked] at linked,
    fun unlinked one => ?_⟩⟩
  -- the item given back is held twice, or is another one
  have other : k ≠ id := by
    rintro rfl
    have held := before.held (Multiset.mem_add.2 (Or.inr hk))
    have count := before.count k held
    have := Multiset.count_pos.2 hk
    rw [Multiset.count_add, Multiset.count_singleton_self] at count
    omega
  exact doItemRemove_metas run other

theorem unlink {p : ℕ} (inv : SweepInv s lay p) (linked : (s.metas id).linked = true)
    (run : s.doItemUnlink id = .ok s') : Moves s 0 s' 0 := by
  have run := inv.doItemUnlink_ran linked run
  have slabbed : (s.metas id).slabbed = false := inv.slabbed_of_linked linked
  have cut : Moves s 0 (s.cut id (s.stats.unlink (s.measure id))) {id} :=
    of_update rfl rfl (fun _ _ _ => linked) fun others before => by
      rw [Multiset.singleton_add]
      rw [zero_add] at before
      exact before.cut linked slabbed _
  exact cut.trans (drop run)

theorem link (alone : (s.metas id).refcount = 1) (run : s.doItemLink id = .ok s') :
    Moves s {id} s' {id} := by
  obtain ⟨-, slabbed, cas, casId, rfl⟩ := doItemLink_ran run
  refine of_update rfl rfl (fun others before held => ?_) fun others before =>
    before.doItemLink (by omega) run
  have count := before.count id slabbed
  have := Multiset.count_pos.2 held
  rw [Multiset.count_add, Multiset.count_singleton_self] at count
  exact absurd alone (by omega)

theorem replace {newId : ℕ} {p : ℕ} (inv : SweepInv s lay p) (linked : (s.metas id).linked = true)
    (unlinked : (s.metas newId).linked = false) (alone : (s.metas newId).refcount = 1)
    (run : s.doItemReplace id newId = .ok s') : Moves s {newId} s' {newId} := by
  rw [Store.doItemReplace, check_bind_ran] at run
  obtain ⟨s₁, first, second⟩ := bind_ran.1 run.2
  have moved : Moves s {newId} s₁ {newId} := (unlink inv linked first).beside {newId}
  exact moved.trans (link (by rw [inv.doItemUnlink_metas first unlinked, alone]) second)

theorem alloc {flags exptime : ℕ} {nbytes : ℤ} {it : Option ℕ} {succeed : Bool} {key : Key}
    (inv : StoreInv s lay) (ok : AllocOk s key flags nbytes)
    (run : s.doItemAlloc key flags exptime nbytes = .ok (s', it, succeed)) :
    Moves s 0 s' (it.elim 0 ({·})) ∧
      ∀ newId, it = some newId → (s'.metas newId).refcount = 1 := by
  obtain ⟨lay', -, -, -, limit, alloc⟩ := inv.doItemAlloc ok run
  cases alloc with
  | failed live shape => exact ⟨of_metas (by rw [shape]) limit, by simp⟩
  | tombstone o marked live shape written => exact ⟨of_metas (by rw [shape]) limit, by simp⟩
  | item newId o rest plain live free shape written =>
    have head : newId ∈ s.freelist := by rw [free]; exact List.mem_cons_self ..
    have slabbed := (inv.free newId).1 head
    have metas : s'.metas = Function.update s.metas newId
        ⟨o, (s.metas newId).time, 1, 0, (s.metas newId).linked, false⟩ := by rw [shape]
    refine ⟨fun others before => ⟨?_, fun k hk => ?_⟩, fun _ eq => ?_⟩
    · rw [zero_add] at before
      exact before.pop metas limit slabbed (inv.unlinked newId head) rfl rfl rfl
    · have other : k ≠ newId := by
        rintro rfl
        have := before.held (Multiset.mem_add.2 (Or.inr hk))
        rw [slabbed] at this
        cases this
      exact .of_metas (by rw [metas, Function.update_of_ne other])
    · cases eq
      rw [metas, Function.update_self]

theorem get {key : Key} {it : Option ℕ} (inv : StoreInv s lay)
    (room : ∀ k ∈ s.table, (s.metas k).refcount < 2 ^ 16 - 1)
    (run : s.doItemGet key = .ok (s', it)) : Moves s 0 s' (it.elim 0 ({·})) := by
  have take (k : ℕ) (hit : s.assocFind key = some k) : Moves s 0 (s.refcountIncr k) {k} := by
    have member := (assocFind_linked hit).1
    have linked := (inv.linked k).1 member
    exact .take (inv.slabbed_of_linked linked) linked (room k member)
  cases doItemGet_ran run with
  | missing absent same => exact same ▸ refl s 0
  | found k hit visible same => exact same ▸ take k hit
  | hidden k s₁ hit stale first second =>
    have linked : ((s.refcountIncr k).metas k).linked = true := by
      rw [sameTable_refcountIncr.linked]
      exact (inv.linked k).1 (assocFind_linked hit).1
    exact ((take k hit).trans ((unlink inv.refcountIncr linked first).beside {k})).trans
      (drop second)

/-! ## The cleaner -/

theorem freeItem {p n : ℕ} (inv : SweepInv s lay p) (limit : s'.log.memLimit = s.log.memLimit)
    (run : s.memlogFreeItem = .ok (s', n)) : Moves s 0 s' 0 := by
  obtain ⟨s₁, evict, run⟩ := bind_ran.1 run
  obtain ⟨rfl, -⟩ := pair_ran.1 run
  obtain ⟨-, -, rfl | ⟨k, -, member, first, cut⟩⟩ := inv.memlogEvict evict
  · exact of_metas rfl limit
  · exact (unlink inv ((inv.linked k).1 member) first).trans
      (of_metas rfl (limit.trans (by rw [cut.log])))

theorem freeChunk {p q fuel : ℕ} (inv : SweepInv s lay p) (short : Short s.log)
    (run : s.memlogFreeChunk fuel p = .ok (s', q)) : Moves s 0 s' 0 :=
  inv.freeChunk_rule short (refl · 0) .trans (fun inv limit first => freeItem inv limit first) run

theorem clean {n : ℕ} (inv : StoreInv s lay) (guard : lruMaintainerGuard s.log = true)
    (run : s.memlogClean = .ok (s', n)) : Moves s 0 s' 0 := by
  obtain ⟨⟨s₁, q⟩, chunk, run⟩ := bind_ran.1 run
  obtain ⟨rfl, rfl⟩ := pair_ran.1 run
  have short := inv.log.short inv.limit guard
  obtain ⟨lay₁, gone, k, -, inv₁, -, -⟩ := inv.memlogFreeChunk short chunk
  obtain ⟨-, -, -, -, limit⟩ := inv₁.log.settle
  exact (freeChunk inv short chunk).trans (of_metas rfl limit)

end Moves

end LogMemcached

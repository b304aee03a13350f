import LogMemcached.ServerRuns
import LogMemcached.ReplicaSteps
import LogMemcached.Network
import LogMemcached.Sequence

/-!
# Relinking under `lru_log`

With `lru_log` on, an access to an item that has been read often enough copies it to the front of the
log, in the middle of the command that accessed it.  `do_item_get_update` gives back the caller's
reference to the old item and its own to the new one, and none of its three callers knows: `get`
records the new item without a reference, the binary `get` records the old item, which is gone, and
`add` releases both once more.  `Counted` shows each of them.
-/

namespace LogMemcached

open ByteMem CText Fallible Transition

/-! ## Binary retrieval -/

/-- The response `process_bin_get_or_touch` queues for a hit; `item` is `c->item`. -/
structure BinHit where
  item : ℕ
  keylen : ℕ
  bodylen : ℕ
  cas : ℕ
  flags : ℕ
  segments : List Store.Segment
deriving DecidableEq, Repr

namespace Store

/-- The response for a hit, with the length the item had before `item_update`. -/
def binHit (s : Store) (cmd : BinCmd) (nkey : ℕ) (nbytes : ℤ) (id : ℕ) : BinHit :=
  let m := s.log.mem
  let o := s.itemOf id
  let shouldReturnKey : Bool := cmd = .getk ∨ cmd = .gatk
  let bodylen := 4 + (nbytes - 2)
  { item := id
    keylen := if shouldReturnKey then nkey else 0
    bodylen := intBits (if cmd = .touch then bodylen - (nbytesInt m o - 2)
      else if shouldReturnKey then bodylen + nkey else bodylen)
    cas := itemGetCas m o
    flags := clientFlagsOf m o
    segments := (if shouldReturnKey then [.range (itemKey m o) nkey] else []) ++
      if cmd = .touch then [] else [.range (itemData m o) (nbytesOf m o - 2)] }

/-- `process_bin_get_or_touch` up to the response; without an item the client is told that there is
none. -/
def processBinGetOrTouch (s : Store) (cmd : BinCmd) (key : Key) (expiration : ℤ) :
    Except Abort (Store × Option BinHit) := do
  let shouldTouch : Bool := cmd = .touch ∨ cmd = .gat ∨ cmd = .gatk
  let (s, it) ← if shouldTouch then s.doItemTouch key (s.realtime expiration) else s.doItemGet key
  match it with
  | none => pure (s, none)
  | some id => do
      let nbytes := nbytesInt s.log.mem (s.itemOf id)
      -- the result of `item_update` is dropped
      let (s, _) ← s.doItemUpdate id
      pure (s, some (s.binHit cmd key.length nbytes id))

/-! ## Accesses -/

/-- The test of `do_item_update` for a call of `do_item_get_update`. -/
def relinks (s : Store) (id : ℕ) : Bool :=
  decide ((s.metas id).time < (s.currentTime + (2 ^ 32 - itemUpdateInterval)) % 2 ^ 32) &&
    (s.metas id).linked && s.settings.lruLogEnabled &&
    decide ((s.metas id).getCount ≥ s.settings.lruLogGetCount)

end Store

/-- The three commands that call `item_update` on an item they looked up: `get` of a key, the binary
`get` or `getk`, and `add` with the uploaded item. -/
inductive Access
  | get (returnCas : Bool) (key : Key)
  | binGet (returnKey : Bool) (key : Key)
  | add (id : ℕ)
deriving DecidableEq, Repr

namespace Access

def key (s : Store) : Access → Key
  | get _ key => key
  | binGet _ key => key
  | add id => s.keyAt id

/-- The reference the command has before: that to the uploaded item. -/
def held : Access → Multiset ℕ
  | add id => {id}
  | _ => 0

/-- The command, with the items it records in `c->ilist` or `c->item` and releases later. -/
def run (s : Store) : Access → Except Abort (Store × Multiset ℕ)
  | get returnCas key => do
      let (s, hit) ← s.getKey returnCas key
      pure (s, hit.elim 0 fun (id, _) => {id})
  | binGet returnKey key => do
      let (s, hit) ← s.processBinGetOrTouch (if returnKey then .getk else .get) key 0
      pure (s, hit.elim 0 fun hit => {hit.item})
  | add id => do
      let (s, _) ← s.doStoreItem .add id
      pure (s, {id})

/-- The command goes through, records one item, and owns exactly one reference to it beside the
references `R` of everybody else. -/
def Accounted (s : Store) (R : Multiset ℕ) (a : Access) : Prop :=
  ∃ s' own, a.run s = .ok (s', own) ∧ own.card = 1 ∧ Counted s' (own + R)

end Access

/-- Items of the table are linked and in use, those on the freelist are free. -/
structure Store.Pooled (s : Store) : Prop where
  table : ∀ id ∈ s.table, (s.metas id).linked = true ∧ (s.metas id).slabbed = false
  freelist : ∀ id ∈ s.freelist, (s.metas id).slabbed = true

section

variable {s s₁ s' : Store} {lay : Layout} {R : Multiset ℕ} {id n : ℕ} {new : Option ℕ}

theorem SweepInv.pooled {p : ℕ} (inv : SweepInv s lay p) : s.Pooled :=
  ⟨fun k member => ⟨(inv.linked k).1 member, inv.slabbed_of_linked ((inv.linked k).1 member)⟩,
    fun k => (inv.free k).1⟩

/-! ## What the operations do to the metadata -/

/-- An allocation without a new item leaves the metadata alone; a new one comes from the
freelist. -/
theorem doItemAlloc_metas {key : Key} {flags exptime : ℕ} {nbytes : ℤ} {succeed : Bool}
    (run : s.doItemAlloc key flags exptime nbytes = .ok (s', new, succeed)) :
    new = none ∧ s'.metas = s.metas ∨ ∃ n ∈ s.freelist, new = some n ∧ ∃ o,
      s'.metas = Function.update s.metas n
        { s.metas n with slabbed := false, refcount := 1, getCount := 0, item := o } := by
  obtain ⟨l, got, -, ran⟩ := doItemAlloc_ran run
  cases ran with
  | full => exact .inl ⟨rfl, rfl⟩
  | tombstone => exact .inl ⟨rfl, rfl⟩
  | @item _ o n _ _ free shape => exact .inr ⟨n, free ▸ List.mem_cons_self, rfl, o, shape ▸ rfl⟩

theorem slabbed_updateMeta {f : ItemMeta → ItemMeta} (same : ∀ it, (f it).slabbed = it.slabbed)
    (k : ℕ) : ((s.updateMeta id f).metas k).slabbed = (s.metas k).slabbed := by
  simp only [Store.updateMeta, Function.update_apply]
  split_ifs with eq
  · rw [same, eq]
  · rfl

theorem doItemUnlink_cuts (linked : (s.metas id).linked = true) (run : s.doItemUnlink id = .ok s') :
    ∃ s₁ : Store, s₁.metas = Function.update s.metas id { s.metas id with linked := false } ∧
      s₁.doItemRemove id = .ok s' := by
  rw [Store.doItemUnlink, if_pos linked] at run
  obtain ⟨s₁, delete, run⟩ := bind_ran.1 run
  obtain ⟨-, same⟩ := check_bind_ran.1 delete
  obtain rfl := pure_ran.1 same
  exact ⟨_, rfl, run⟩

theorem doItemRemove_self (run : s.doItemRemove id = .ok s')
    (small : (s.metas id).refcount < 2 ^ 16) :
    (s.metas id).slabbed = false ∧
      ((s.metas id).refcount = 1 ∧ (s.metas id).linked = false ∧ (s'.metas id).slabbed = true ∨
        1 < (s.metas id).refcount ∧
          s'.metas id = { s.metas id with refcount := (s.metas id).refcount - 1 }) := by
  obtain ⟨slabbed, positive, ⟨more, rfl⟩ | ⟨last, unlinked, rfl⟩⟩ := doItemRemove_ran run
  · have next : ((s.metas id).refcount + (2 ^ 16 - 1)) % 2 ^ 16 = (s.metas id).refcount - 1 := by
      omega
    refine ⟨slabbed, .inr ⟨by omega, ?_⟩⟩
    rw [← next]
    exact Function.update_self ..
  · refine ⟨slabbed, .inl ⟨by omega, unlinked, ?_⟩⟩
    simp [Store.freelistFree, Store.updateMeta]

theorem doItemRemove_linked (run : s.doItemRemove id = .ok s')
    (linked : (s.metas id).linked = true) (small : (s.metas id).refcount < 2 ^ 16) :
    1 < (s.metas id).refcount ∧
      s'.metas id = { s.metas id with refcount := (s.metas id).refcount - 1 } := by
  obtain ⟨-, ⟨-, unlinked, -⟩ | ⟨more, same⟩⟩ := doItemRemove_self run small
  · rw [unlinked] at linked
    cases linked
  · exact ⟨more, same⟩

/-! ## `do_item_get_update` -/

theorem doItemGetUpdate_none (linked : (s.metas id).linked = true)
    (small : (s.metas id).refcount < 2 ^ 16) (run : s.doItemGetUpdate id = .ok (s', none)) :
    1 < (s.metas id).refcount ∧
      s'.metas id = { s.metas id with refcount := (s.metas id).refcount - 1 } := by
  obtain ⟨⟨s₁, new, succeed⟩, alloc, run⟩ := bind_ran.1 run
  rcases doItemAlloc_metas alloc with ⟨rfl, metas⟩ | ⟨n, -, rfl, -⟩
  · obtain ⟨s₂, remove, run⟩ := bind_ran.1 run
    obtain ⟨rfl, -⟩ := pair_ran.1 run
    have removed := doItemRemove_linked remove (by rw [metas]; exact linked)
      (by rw [metas]; exact small)
    rwa [metas] at removed
  · obtain ⟨s₂, -, run⟩ := bind_ran.1 run
    obtain ⟨s₃, -, run⟩ := bind_ran.1 run
    obtain ⟨s₄, -, run⟩ := bind_ran.1 run
    cases run

/-- The metadata after a relink: the new item has the reference of the table and no other, the old
one has lost two. -/
structure Relinked (s s' : Store) (id n : ℕ) : Prop where
  other : n ≠ id
  one : (s'.metas n).refcount = 1
  linked : (s'.metas n).linked = true
  used : (s'.metas n).slabbed = false
  old : (s'.metas id).slabbed = true ∨
    (s'.metas id).linked = false ∧ (s'.metas id).refcount + 2 = (s.metas id).refcount

theorem doItemGetUpdate_some (free : ∀ k ∈ s.freelist, (s.metas k).slabbed = true)
    (linked : (s.metas id).linked = true) (used : (s.metas id).slabbed = false)
    (small : (s.metas id).refcount < 2 ^ 16) (run : s.doItemGetUpdate id = .ok (s', some n)) :
    Relinked s s' id n := by
  obtain ⟨⟨s₁, new, succeed⟩, alloc, run⟩ := bind_ran.1 run
  rcases doItemAlloc_metas alloc with ⟨rfl, -⟩ | ⟨k, member, rfl, o, metas₁⟩
  · obtain ⟨s₂, -, run⟩ := bind_ran.1 run
    cases run
  obtain ⟨s₃, replace, run⟩ := bind_ran.1 run
  obtain ⟨s₄, remove, run⟩ := bind_ran.1 run
  obtain ⟨s₅, removeNew, run⟩ := bind_ran.1 run
  obtain ⟨rfl, eq⟩ := pair_ran.1 run
  obtain rfl := Option.some.inj eq
  have other : k ≠ id := by
    rintro rfl
    rw [free k member] at used
    cases used
  obtain ⟨-, replace⟩ := check_bind_ran.1 replace
  obtain ⟨s₂, unlink, link⟩ := bind_ran.1 replace
  have old₁ : (s₁.copyData id k).metas id = s.metas id := by
    change s₁.metas id = s.metas id
    rw [metas₁, Function.update_of_ne other.symm]
  obtain ⟨s₀, metas₀, cut⟩ := doItemUnlink_cuts (by rw [old₁]; exact linked) unlink
  have old₀ : s₀.metas id = { s.metas id with linked := false } := by
    rw [metas₀, Function.update_self, old₁]
  obtain ⟨-, -, cas, casId, rfl⟩ := doItemLink_ran link
  -- the new item: one reference from the allocation, one from the table
  have new₂ : s₂.metas k = s₁.metas k := by
    rw [doItemRemove_metas cut other, metas₀, Function.update_of_ne other]
    rfl
  have new₄ : s₄.metas k = { s₁.metas k with
      linked := true, time := s₂.currentTime, refcount := 2 } := by
    rw [doItemRemove_metas remove other]
    simp only [Store.join, Function.update_self, new₂]
    rw [metas₁, Function.update_self]
    rfl
  have small₄ : (s₄.metas k).refcount < 2 ^ 16 := by
    rw [new₄]
    norm_num
  obtain ⟨-, new₅⟩ := doItemRemove_linked removeNew (by rw [new₄]) small₄
  have used₁ : (s₁.metas k).slabbed = false := by rw [metas₁, Function.update_self]
  -- the old item loses the reference of the table and that of the caller
  have old₃ (stats : ItemStats) : (s₂.join k cas casId stats).metas id = s₂.metas id :=
    Function.update_of_ne other.symm _ _
  have old₅ : s₅.metas id = s₄.metas id := doItemRemove_metas removeNew other.symm
  rw [new₄] at new₅
  refine ⟨other, by rw [new₅]; rfl, by rw [new₅], by rw [new₅]; exact used₁, ?_⟩
  rw [old₅]
  obtain ⟨-, ⟨-, -, freed⟩ | ⟨more, kept⟩⟩ := doItemRemove_self cut (by rw [old₀]; exact small)
  · obtain ⟨busy, -⟩ := doItemRemove_ran remove
    rw [old₃, freed] at busy
    cases busy
  rw [old₀] at more kept
  have small₃ : (s₂.metas id).refcount < 2 ^ 16 := by
    rw [kept]
    dsimp only
    omega
  obtain ⟨-, ⟨-, -, freed⟩ | ⟨more', kept'⟩⟩ := doItemRemove_self remove (by rw [old₃]; exact small₃)
  · exact .inl freed
  · rw [old₃, kept] at more' kept'
    refine .inr ⟨by rw [kept'], ?_⟩
    rw [kept']
    dsimp only at more more' ⊢
    omega

/-! ## `do_item_update` -/

def Store.Touched (s s' : Store) (id : ℕ) : Prop :=
  ∃ it, s' = { s with metas := Function.update s.metas id it } ∧
    it.refcount = (s.metas id).refcount ∧ it.linked = (s.metas id).linked ∧
    it.slabbed = (s.metas id).slabbed

theorem doItemUpdate_still (used : (s.metas id).slabbed = false) (still : s.relinks id = false) :
    ∃ s', s.doItemUpdate id = .ok (s', none) ∧ s.Touched s' id := by
  have stay : s.Touched s id := ⟨s.metas id, by rw [Function.update_eq_self], rfl, rfl, rfl⟩
  unfold Store.doItemUpdate
  by_cases old : (s.metas id).time < (s.currentTime + (2 ^ 32 - Store.itemUpdateInterval)) % 2 ^ 32
  swap
  · exact ⟨s, by rw [if_neg old]; rfl, stay⟩
  rw [if_pos old, used]
  cases linked : (s.metas id).linked with
  | false => exact ⟨s, rfl, stay⟩
  | true =>
    have retimed : (s.retime id).metas id = { s.metas id with time := s.currentTime } :=
      Function.update_self ..
    cases on : s.settings.lruLogEnabled with
    | false =>
      refine ⟨s.retime id, ?_, _, rfl, rfl, rfl, rfl⟩
      change (if (s.retime id).settings.lruLogEnabled = true then _ else _) = _
      exact if_neg (by rw [show (s.retime id).settings = s.settings from rfl, on]; decide)
    | true =>
      have few : ¬ ((s.retime id).metas id).getCount ≥ (s.retime id).settings.lruLogGetCount := by
        simp only [Store.relinks, old, linked, on, decide_true, Bool.true_and,
          decide_eq_false_iff_not] at still
        rw [retimed]
        exact still
      refine ⟨(s.retime id).updateMeta id fun it => { it with getCount := (it.getCount + 1) % 2 ^ 32 },
        ?_, { s.metas id with
          time := s.currentTime, getCount := ((s.metas id).getCount + 1) % 2 ^ 32 }, ?_, rfl, rfl, rfl⟩
      · change (if (s.retime id).settings.lruLogEnabled = true then
          if ((s.retime id).metas id).getCount ≥ (s.retime id).settings.lruLogGetCount then _ else _
          else _) = _
        rw [if_pos (show (s.retime id).settings.lruLogEnabled = true from on), if_neg few]
        rfl
      · simp [Store.retime, Store.updateMeta]

/-- A relink is `do_item_get_update` after the time has been set. -/
theorem doItemUpdate_relinks (relinks : s.relinks id = true)
    (run : s.doItemUpdate id = .ok (s', new)) :
    ∃ s₁, (s.retime id).doItemGetUpdate id = .ok (s₁, new) ∧
      s' = new.elim s₁ fun n => s₁.updateMeta n fun it => { it with getCount := 0 } := by
  simp only [Store.relinks, Bool.and_eq_true, decide_eq_true_eq] at relinks
  obtain ⟨⟨⟨old, linked⟩, on⟩, often⟩ := relinks
  have often' : ((s.retime id).metas id).getCount ≥ (s.retime id).settings.lruLogGetCount := by
    rw [show (s.retime id).metas id = { s.metas id with time := s.currentTime } from
      Function.update_self ..]
    exact often
  rw [Store.doItemUpdate, if_pos old] at run
  obtain ⟨-, run⟩ := check_bind_ran.1 run
  rw [if_pos linked] at run
  change (if (s.retime id).settings.lruLogEnabled = true then
    if ((s.retime id).metas id).getCount ≥ (s.retime id).settings.lruLogGetCount then _ else _
    else _) = _ at run
  rw [if_pos (show (s.retime id).settings.lruLogEnabled = true from on), if_pos often'] at run
  obtain ⟨⟨s₁, new'⟩, update, run⟩ := bind_ran.1 run
  cases new' with
  | none =>
    obtain ⟨rfl, rfl⟩ := pair_ran.1 run
    exact ⟨_, update, rfl⟩
  | some n =>
    obtain ⟨rfl, rfl⟩ := pair_ran.1 run
    exact ⟨_, update, rfl⟩

theorem doItemUpdate_none (relinks : s.relinks id = true)
    (small : (s.metas id).refcount < 2 ^ 16) (run : s.doItemUpdate id = .ok (s', none)) :
    (s'.metas id).refcount + 1 = (s.metas id).refcount ∧ (s'.metas id).linked = true ∧
      (s'.metas id).slabbed = (s.metas id).slabbed := by
  have linked : (s.metas id).linked = true := by
    simp only [Store.relinks, Bool.and_eq_true] at relinks
    exact relinks.1.1.2
  have retimed : (s.retime id).metas id = { s.metas id with time := s.currentTime } :=
    Function.update_self ..
  obtain ⟨_, update, rfl⟩ := doItemUpdate_relinks relinks run
  obtain ⟨more, same⟩ := doItemGetUpdate_none (by rw [retimed]; exact linked)
    (by rw [retimed]; exact small) update
  rw [retimed] at more same
  rw [same]
  exact ⟨Nat.sub_add_cancel (Nat.le_of_lt more), linked, rfl⟩

theorem doItemUpdate_some (free : ∀ k ∈ s.freelist, (s.metas k).slabbed = true)
    (used : (s.metas id).slabbed = false) (relinks : s.relinks id = true)
    (small : (s.metas id).refcount < 2 ^ 16) (run : s.doItemUpdate id = .ok (s', some n)) :
    Relinked s s' id n := by
  have linked : (s.metas id).linked = true := by
    simp only [Store.relinks, Bool.and_eq_true] at relinks
    exact relinks.1.1.2
  have retimed : (s.retime id).metas id = { s.metas id with time := s.currentTime } :=
    Function.update_self ..
  have free' : ∀ k ∈ (s.retime id).freelist, ((s.retime id).metas k).slabbed = true := by
    intro k member
    apply (slabbed_updateMeta _ k).trans (free k member)
    exact fun _ => rfl
  obtain ⟨s₁, update, rfl⟩ := doItemUpdate_relinks relinks run
  have relinked := doItemGetUpdate_some free' (by rw [retimed]; exact linked)
    (by rw [retimed]; exact used) (by rw [retimed]; exact small) update
  have new : (s₁.updateMeta n fun it => { it with getCount := 0 }).metas n =
      { s₁.metas n with getCount := 0 } := Function.update_self ..
  have old : (s₁.updateMeta n fun it => { it with getCount := 0 }).metas id = s₁.metas id :=
    Function.update_of_ne relinked.other.symm _ _
  refine ⟨relinked.other, ?_, ?_, ?_, ?_⟩
  · rw [Option.elim_some, new]
    exact relinked.one
  · rw [Option.elim_some, new]
    exact relinked.linked
  · rw [Option.elim_some, new]
    exact relinked.used
  · rw [Option.elim_some, old]
    have lost := relinked.old
    rwa [retimed] at lost

theorem Counted.touched (h : Counted s R) (touched : s.Touched s' id)
    (used : (s.metas id).slabbed = false) (positive : 0 < (s.metas id).refcount) : Counted s' R := by
  obtain ⟨it, rfl, refcount, linked, slabbed⟩ := touched
  refine h.update id rfl rfl (fun _ _ => rfl) (slabbed.trans used) ?_ ?_ ?_
  · rw [refcount]
    exact h.small id
  · rw [refcount]
    exact positive
  · rw [refcount, linked]
    exact h.count id used

/-! ## The accesses -/

/-- The store and the item as a lookup that hits leaves them. -/
structure Hit (s s₁ : Store) (R : Multiset ℕ) (id : ℕ) : Prop where
  same : s₁ = s.refcountIncr id
  linked : (s₁.metas id).linked = true
  used : (s₁.metas id).slabbed = false
  small : (s₁.metas id).refcount < 2 ^ 16
  free : ∀ k ∈ s₁.freelist, (s₁.metas k).slabbed = true
  relinks : s₁.relinks id = s.relinks id
  count : (s.metas id).refcount = 1 + R.count id
  next : (s₁.metas id).refcount = ((s.metas id).refcount + 1) % 2 ^ 16

theorem hit_of_get {key : Key} (pooled : s.Pooled) (counted : Counted s R)
    (get : s.doItemGet key = .ok (s₁, some id)) : Hit s s₁ R id := by
  cases doItemGet_ran get with
  | found _ hit visible same =>
    subst same
    obtain ⟨linked, used⟩ := pooled.table id (assocFind_linked hit).1
    have item : (s.refcountIncr id).metas id =
        { s.metas id with refcount := ((s.metas id).refcount + 1) % 2 ^ 16 } :=
      Function.update_self ..
    have count := counted.count id used
    rw [linked, Bool.toNat_true] at count
    refine ⟨rfl, by rw [item]; exact linked, by rw [item]; exact used, ?_, ?_, ?_, count,
      by rw [item]⟩
    · rw [item]
      exact Nat.mod_lt _ (by norm_num)
    · intro k member
      apply (slabbed_updateMeta _ k).trans (pooled.freelist k member)
      exact fun _ => rfl
    · simp only [Store.relinks, item]
      rfl

theorem Hit.still (hit : Hit s s₁ R id) (counted : Counted s R)
    (room : (s.metas id).refcount + 1 < 2 ^ 16) (still : s.relinks id = false) :
    ∃ s₂, s₁.doItemUpdate id = .ok (s₂, none) ∧ Counted s₂ (id ::ₘ R) ∧
      1 < (s₂.metas id).refcount ∧ (s₂.metas id).slabbed = false := by
  obtain ⟨s₂, update, touched⟩ := doItemUpdate_still hit.used (hit.relinks.trans still)
  have next : (s₁.metas id).refcount = (s.metas id).refcount + 1 :=
    hit.next.trans (Nat.mod_eq_of_lt room)
  have used : (s.metas id).slabbed = false := by
    rw [← hit.used, hit.same]
    apply (slabbed_updateMeta _ id).symm
    exact fun _ => rfl
  have held : Counted s₁ (id ::ₘ R) := by
    rw [hit.same]
    exact counted.refcountIncr used (by omega)
  have more : 1 < (s₁.metas id).refcount := by
    have := hit.count
    omega
  have after := held.touched touched hit.used (by omega)
  obtain ⟨it, rfl, refcount, -, slabbed⟩ := touched
  refine ⟨_, update, after, ?_, ?_⟩
  · change 1 < (Function.update s₁.metas id it id).refcount
    rw [Function.update_self, refcount]
    exact more
  · change (Function.update s₁.metas id it id).slabbed = false
    rw [Function.update_self, slabbed]
    exact hit.used

theorem Hit.full (hit : Hit s s₁ R id) (counted : Counted s R)
    (full : ¬ (s.metas id).refcount + 1 < 2 ^ 16) (still : s.relinks id = false) :
    ∃ s₂, s₁.doItemUpdate id = .ok (s₂, none) ∧ (s₂.metas id).refcount = 0 ∧
      (s₂.metas id).linked = true ∧ (s₂.metas id).slabbed = false := by
  have small := counted.small id
  have next := hit.next
  have last : (s.metas id).refcount + 1 = 2 ^ 16 := by omega
  rw [last, Nat.mod_self] at next
  obtain ⟨s₂, update, it, rfl, refcount, linked, slabbed⟩ :=
    doItemUpdate_still hit.used (hit.relinks.trans still)
  have item : Function.update s₁.metas id it id = it := Function.update_self ..
  refine ⟨_, update, ?_, ?_, ?_⟩
  · exact (congrArg ItemMeta.refcount item).trans (refcount.trans next)
  · exact (congrArg ItemMeta.linked item).trans (linked.trans hit.linked)
  · exact (congrArg ItemMeta.slabbed item).trans (slabbed.trans hit.used)

theorem Hit.relink_none {s₂ : Store} (hit : Hit s s₁ R id) (relinks : s.relinks id = true)
    (update : s₁.doItemUpdate id = .ok (s₂, none)) :
    (s₂.metas id).refcount ≤ 1 + R.count id ∧ (s₂.metas id).linked = true ∧
      (s₂.metas id).slabbed = false := by
  obtain ⟨less, linked, slabbed⟩ := doItemUpdate_none (hit.relinks.trans relinks) hit.small update
  refine ⟨?_, linked, slabbed.trans hit.used⟩
  have wraps := Nat.mod_le ((s.metas id).refcount + 1) (2 ^ 16)
  rw [← hit.next, hit.count] at wraps
  omega

theorem Hit.relink_some {s₂ : Store} (hit : Hit s s₁ R id) (relinks : s.relinks id = true)
    (update : s₁.doItemUpdate id = .ok (s₂, some n)) :
    n ≠ id ∧ (s₂.metas n).refcount = 1 ∧ (s₂.metas n).linked = true ∧
      (s₂.metas n).slabbed = false ∧ ((s₂.metas id).slabbed = true ∨
        (s₂.metas id).linked = false ∧ (s₂.metas id).refcount ≤ R.count id) := by
  have relinked := doItemUpdate_some hit.free hit.used (hit.relinks.trans relinks) hit.small update
  refine ⟨relinked.other, relinked.one, relinked.linked, relinked.used, ?_⟩
  rcases relinked.old with freed | ⟨unlinked, less⟩
  · exact .inl freed
  refine .inr ⟨unlinked, ?_⟩
  have wraps := Nat.mod_le ((s.metas id).refcount + 1) (2 ^ 16)
  rw [← hit.next, hit.count] at wraps
  omega

/-- Who records the item looked up, linked with at most the references of the others, owns none. -/
theorem not_counted_linked (less : (s.metas id).refcount ≤ 1 + R.count id)
    (linked : (s.metas id).linked = true) (used : (s.metas id).slabbed = false) :
    ¬ Counted s (id ::ₘ R) := by
  intro counted
  have count := counted.count id used
  rw [linked, Bool.toNat_true, Multiset.count_cons_self] at count
  omega

theorem not_counted_old (old : (s.metas id).slabbed = true ∨
    (s.metas id).linked = false ∧ (s.metas id).refcount ≤ R.count id) : ¬ Counted s (id ::ₘ R) := by
  intro counted
  have used := counted.held (Multiset.mem_cons_self id R)
  rcases old with freed | ⟨unlinked, less⟩
  · rw [used] at freed
    cases freed
  · have count := counted.count id used
    rw [unlinked, Bool.toNat_false, Multiset.count_cons_self] at count
    omega

/-- An access that records the item looked up in a counted store did not link it again. -/
theorem Hit.recorded {s₂ : Store} {new : Option ℕ} (hit : Hit s s₁ R id) (counted : Counted s R)
    (update : s₁.doItemUpdate id = .ok (s₂, new)) (after : new = none → Counted s₂ (id ::ₘ R))
    (renewed : ∀ n, new = some n → s.relinks id ≠ true) :
    (s.metas id).refcount + 1 < 2 ^ 16 ∧ s.relinks id = false := by
  cases relinks : s.relinks id with
  | true =>
    cases new with
    | none =>
      obtain ⟨less, linked, used⟩ := hit.relink_none relinks update
      exact absurd (after rfl) (not_counted_linked less linked used)
    | some n => exact absurd relinks (renewed n rfl)
  | false =>
    refine ⟨?_, rfl⟩
    by_contra full
    obtain ⟨s₄, update', zero, linked, used⟩ := hit.full counted full relinks
    rw [update'] at update
    obtain ⟨rfl, rfl⟩ := Prod.mk.inj (Except.ok.inj update)
    exact not_counted_linked (by omega) linked used (after rfl)

/-! ## The three accesses -/

theorem get_accounted_iff {returnCas : Bool} {key : Key} (pooled : s.Pooled) (counted : Counted s R)
    (get : s.doItemGet key = .ok (s₁, some id)) :
    (Access.get returnCas key).Accounted s R ↔
      (s.metas id).refcount + 1 < 2 ^ 16 ∧ s.relinks id = false := by
  have hit := hit_of_get pooled counted get
  constructor
  · rintro ⟨s', own, access, -, after⟩
    obtain ⟨⟨s₃, found⟩, run, last⟩ := bind_ran.1 access
    obtain ⟨rfl, rfl⟩ := pair_ran.1 last
    obtain ⟨p, get', run⟩ := bind_ran.1 run
    obtain rfl := Except.ok.inj (get.symm.trans get')
    obtain ⟨⟨s₂, new⟩, update, run⟩ := bind_ran.1 run
    refine hit.recorded counted update (fun eq => ?_) fun n eq relinks => ?_
    · subst eq
      obtain ⟨rfl, rfl⟩ := pair_ran.1 run
      exact after
    · subst eq
      obtain ⟨rfl, rfl⟩ := pair_ran.1 run
      obtain ⟨-, one, linked, used, -⟩ := hit.relink_some relinks update
      have less : (s₂.metas n).refcount ≤ 1 + R.count n := by omega
      exact not_counted_linked less linked used (after.congr rfl rfl)
  · rintro ⟨room, still⟩
    obtain ⟨s₂, update, after, -⟩ := hit.still counted room still
    have run : s.getKey returnCas key = .ok (s₂, some (id,
        Store.hitSegments s₁.log.mem (s₁.itemOf id) returnCas)) :=
      bind_ran.2 ⟨(s₁, some id), get, bind_ran.2 ⟨(s₂, none), update, rfl⟩⟩
    exact ⟨s₂, {id}, bind_ran.2 ⟨_, run, rfl⟩, Multiset.card_singleton id, after⟩

/-- The binary `get` on an item records it, whatever `item_update` does. -/
theorem processBinGetOrTouch_ran {cmd : BinCmd} {key : Key} {expiration : ℤ} {found : Option BinHit}
    (retrieves : cmd = .get ∨ cmd = .getk) (get : s.doItemGet key = .ok (s₁, some id)) :
    s.processBinGetOrTouch cmd key expiration = .ok (s', found) ↔
      ∃ new, s₁.doItemUpdate id = .ok (s', new) ∧
        some (s'.binHit cmd key.length (nbytesInt s₁.log.mem (s₁.itemOf id)) id) = found := by
  have look : ¬ (decide (cmd = .touch ∨ cmd = .gat ∨ cmd = .gatk)) = true := by
    rcases retrieves with rfl | rfl <;> decide
  unfold Store.processBinGetOrTouch
  dsimp only
  rw [if_neg look, bind_ran]
  constructor
  · rintro ⟨p, get', run⟩
    obtain rfl := Except.ok.inj (get.symm.trans get')
    obtain ⟨⟨s₂, new⟩, update, run⟩ := bind_ran.1 run
    obtain ⟨rfl, rfl⟩ := pair_ran.1 run
    exact ⟨new, update, rfl⟩
  · rintro ⟨new, update, rfl⟩
    exact ⟨_, get, bind_ran.2 ⟨_, update, rfl⟩⟩

theorem binGet_accounted_iff {returnKey : Bool} {key : Key} (pooled : s.Pooled)
    (counted : Counted s R) (get : s.doItemGet key = .ok (s₁, some id)) :
    (Access.binGet returnKey key).Accounted s R ↔
      (s.metas id).refcount + 1 < 2 ^ 16 ∧ s.relinks id = false := by
  have hit := hit_of_get pooled counted get
  have retrieves : (if returnKey then BinCmd.getk else .get) = .get ∨
      (if returnKey then BinCmd.getk else .get) = .getk := by
    cases returnKey <;> decide
  constructor
  · rintro ⟨s', own, access, -, after⟩
    obtain ⟨⟨s₂, found⟩, run, last⟩ := bind_ran.1 access
    obtain ⟨rfl, rfl⟩ := pair_ran.1 last
    obtain ⟨new, update, rfl⟩ := (processBinGetOrTouch_ran retrieves get).1 run
    refine hit.recorded counted update (fun _ => after) fun n eq relinks => ?_
    subst eq
    obtain ⟨-, -, -, -, old⟩ := hit.relink_some relinks update
    exact not_counted_old old after
  · rintro ⟨room, still⟩
    obtain ⟨s₂, update, after, -⟩ := hit.still counted room still
    have run : s.processBinGetOrTouch (if returnKey then .getk else .get) key 0 = .ok (s₂, _) :=
      (processBinGetOrTouch_ran retrieves get).2 ⟨none, update, rfl⟩
    exact ⟨s₂, {id}, bind_ran.2 ⟨_, run, rfl⟩, Multiset.card_singleton id, after⟩

theorem add_accounted_iff {up : ℕ} (pooled : s.Pooled) (counted : Counted s ({up} + R))
    (get : s.doItemGet (s.keyAt up) = .ok (s₁, some id)) :
    (Access.add up).Accounted s R ↔
      (s.metas id).refcount + 1 < 2 ^ 16 ∧ s.relinks id = false := by
  have hit := hit_of_get pooled counted get
  constructor
  · rintro ⟨s', own, access, -, after⟩
    obtain ⟨⟨s₅, result⟩, run, last⟩ := bind_ran.1 access
    obtain ⟨rfl, rfl⟩ := pair_ran.1 last
    obtain ⟨p, get', run⟩ := bind_ran.1 run
    obtain rfl := Except.ok.inj (get.symm.trans get')
    obtain ⟨⟨s₂, result', new, it⟩, branch, run⟩ := bind_ran.1 run
    obtain ⟨⟨s₂', new'⟩, update, branch⟩ := bind_ran.1 branch
    have branch := pure_ran.1 branch
    simp only [Prod.mk.injEq] at branch
    obtain ⟨rfl, -, rfl, -⟩ := branch
    obtain ⟨s₃, remove, run⟩ := bind_ran.1 run
    obtain ⟨s₄, removeNew, run⟩ := bind_ran.1 run
    obtain ⟨rfl, -⟩ := pair_ran.1 run
    have after : Counted s₄ ({up} + R) := by
      split_ifs at after
      · exact after.congr rfl rfl
      · exact after
    change s₂'.doItemRemove id = .ok s₃ at remove
    cases relinks : s.relinks id with
    | true =>
      exfalso
      cases new' with
      | none =>
        obtain rfl := pure_ran.1 removeNew
        obtain ⟨less, linked, used⟩ := hit.relink_none relinks update
        have small : (s₂'.metas id).refcount < 2 ^ 16 := by
          have := hit.count
          have := counted.small id
          omega
        obtain ⟨more, removed⟩ := doItemRemove_linked remove linked small
        have count := after.count id (by rw [removed]; exact used)
        rw [removed] at count
        dsimp only at count
        rw [linked, Bool.toNat_true] at count
        omega
      | some n =>
        obtain ⟨other, one, linked, -, -⟩ := hit.relink_some relinks update
        have same := doItemRemove_metas remove other
        obtain ⟨more, -⟩ := doItemRemove_linked removeNew (by rw [same]; exact linked)
          (by rw [same, one]; norm_num)
        rw [same, one] at more
        exact absurd more (lt_irrefl 1)
    | false =>
      refine ⟨?_, rfl⟩
      by_contra full
      obtain ⟨s₆, update', zero, -, -⟩ := hit.full counted full relinks
      rw [update'] at update
      obtain ⟨rfl, rfl⟩ := Prod.mk.inj (Except.ok.inj update)
      obtain ⟨-, positive, -⟩ := doItemRemove_ran remove
      rw [zero] at positive
      exact absurd positive (lt_irrefl 0)
  · rintro ⟨room, still⟩
    obtain ⟨s₂, update, held, more, used⟩ := hit.still counted room still
    have small := held.small id
    have remove : s₂.doItemRemove id = .ok (s₂.refcountDecr id) :=
      doItemRemove_of_two used (by omega) (by omega)
    have after := held.doItemRemove remove
    have run : s.doStoreItem .add up = .ok (s₂.refcountDecr id, .notStored) :=
      bind_ran.2 ⟨(s₁, some id), get, bind_ran.2 ⟨(s₂, .notStored, none, up),
        bind_ran.2 ⟨(s₂, none), update, rfl⟩, bind_ran.2 ⟨_, remove, rfl⟩⟩⟩
    exact ⟨_, {up}, bind_ran.2 ⟨_, run, rfl⟩, Multiset.card_singleton up, after⟩

/-- The command that accesses an item ends up with one reference to the item it records exactly when
the count has room for it and `do_item_get_update` is not called. -/
theorem relink_accounting_iff (a : Access) (pooled : s.Pooled) (counted : Counted s (a.held + R))
    (get : s.doItemGet (a.key s) = .ok (s₁, some id)) :
    a.Accounted s R ↔ (s.metas id).refcount + 1 < 2 ^ 16 ∧ s.relinks id = false := by
  cases a with
  | get returnCas key => exact get_accounted_iff pooled (zero_add R ▸ counted) get
  | binGet returnKey key => exact binGet_accounted_iff pooled (zero_add R ▸ counted) get
  | add up => exact add_accounted_iff pooled counted get

end

/-- The store with `lru_log` on. -/
def Store.lruLog (s : Store) : Store := { s with settings := { s.settings with lruLogEnabled := true } }

/-- An item linked within the last minute. -/
theorem relink_accounting_young : ∃ (s s₁ : Store) (id : ℕ), s.settings.lruLogEnabled = true ∧
    s.doItemGet [97] = .ok (s₁, some id) ∧ Counted s 0 ∧
      (Access.get false [97]).Accounted s 0 := by
  have eval : ((storing () .set [97] 0 [120]).foldlM
      (fun (srv : Server Unit) a => if srv.storesPlainly a then srv.next a else none)
      (.init started memlogDefaultSize 62)).map (fun srv => (srv.conns (),
        (srv.store.lruLog.doItemGet [97]).toOption.bind fun p => p.2.map fun id =>
          ((srv.store.metas id).refcount, srv.store.lruLog.relinks id))) =
      some (.idle, some (1, false)) := by
    decide +kernel
  obtain ⟨srv, run, last⟩ := Option.map_eq_some_iff.1 eval
  obtain ⟨idle, found⟩ := Prod.mk.inj last
  obtain ⟨⟨s₁, it⟩, get, found⟩ := Option.bind_eq_some_iff.1 found
  obtain ⟨id, eq, found⟩ := Option.map_eq_some_iff.1 found
  obtain ⟨one, still⟩ := Prod.mk.inj found
  dsimp only at eq
  subst eq
  have good : Run (Server.Good Server.NoLeak) (.init started memlogDefaultSize 62) _ srv :=
    (Run.of_foldlM run).mono fun s a t next => by
      rw [Option.ite_none_right_eq_some] at next
      obtain ⟨ok, extra, step⟩ := Server.good_of_plain next.1 next.2
      exact ⟨ok, extra.1, step⟩
  obtain ⟨lay, inv⟩ := serverInv_of_run rfl (by decide) (by decide) good
  have held : srv.refs = 0 := by
    simp [Server.refs, idle, Conn.refs]
  have counted : Counted srv.store.lruLog 0 := by
    have counted := inv.counted
    rw [held, add_zero] at counted
    exact counted.congr rfl rfl
  have pooled : srv.store.lruLog.Pooled := ⟨inv.inv.pooled.table, inv.inv.pooled.freelist⟩
  have get := ok_of_toOption get
  refine ⟨_, _, _, rfl, get, counted, ?_⟩
  refine (relink_accounting_iff (.get false [97]) pooled counted get).2 ⟨?_, still⟩
  change (srv.store.metas id).refcount + 1 < _
  rw [one]
  norm_num

/-- A server with `-o lru_log_get_count=0`, two minutes after `set a 0 0 1`. -/
def relinkStore : Option Store :=
  ((Store.init { started with lruLogEnabled := true } memlogDefaultSize 62).exec
    (.store .set [97] 0 0 0 [120, 13, 10])).toOption.map fun p => { p.1 with currentTime := 182 }

def Store.releaseAbort (s : Store) (items : List ℕ) : Option Abort :=
  match s.connReleaseItems items with
  | .ok _ => none
  | .error e => some e

/-- `get a` records an item that only the table holds, and the release of the response frees a linked
item: the assertion of `item_free` fails. -/
theorem relink_loses_reference : ∃ (s s' : Store) (n : ℕ) (segments : List Store.Segment),
    relinkStore = some s ∧ s.getKey false [97] = .ok (s', some (n, segments)) ∧
      s'.table = [n] ∧ (s'.metas n).refcount = 1 ∧
      s'.releaseAbort [n] = some .itemFreeLinked ∧
      ∀ R, ¬ (Access.get false [97]).Accounted s R := by
  have eval : (relinkStore.bind fun s => (s.getKey false [97]).toOption.bind fun p =>
      p.2.map fun hit => (decide (p.1.table = [hit.1]), (p.1.metas hit.1).refcount,
        (p.1.metas hit.1).linked, (p.1.metas hit.1).slabbed, p.1.releaseAbort [hit.1])) =
      some (true, 1, true, false, some .itemFreeLinked) := by
    decide +kernel
  obtain ⟨s, store, eval⟩ := Option.bind_eq_some_iff.1 eval
  obtain ⟨⟨s', hit⟩, get, eval⟩ := Option.bind_eq_some_iff.1 eval
  obtain ⟨⟨n, segments⟩, eq, eval⟩ := Option.map_eq_some_iff.1 eval
  simp only [Prod.mk.injEq, decide_eq_true_eq] at eq eval
  obtain ⟨table, one, linked, used, abort⟩ := eval
  have get := ok_of_toOption get
  rw [eq] at get
  refine ⟨s, s', n, segments, store, get, table, one, abort, ?_⟩
  rintro R ⟨s₁, own, access, -, after⟩
  obtain ⟨p, run, last⟩ := bind_ran.1 access
  obtain rfl := Except.ok.inj (get.symm.trans run)
  obtain ⟨rfl, rfl⟩ := Prod.mk.inj (pure_ran.1 last)
  exact not_counted_linked (by omega) linked used after

end LogMemcached

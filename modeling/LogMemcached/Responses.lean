import LogMemcached.SoundSteps

/-!
# Responses

A `get` command over all its keys: the references it queues, and the parts of the log that its
response points to.  A range of the log that lies in the key, or in the suffix and data, of a record
reads the same as long as the record stays what it is.
-/

namespace LogMemcached

open ByteMem Tiling Fallible Store

/-! ## Ranges of a record -/

namespace Rec

def keyOff (r : Rec) : ℕ := r.off + sizeofItemData + casRoom r.flags

def suffixOff (r : Rec) : ℕ := r.off + sizeofItemData + r.key.length + 1 + casRoom r.flags

/-- The range lies in the key, or in the suffix and data, of the record. -/
def Covers (r : Rec) (off len : ℕ) : Prop :=
  r.keyOff ≤ off ∧ off + len ≤ r.keyOff + r.key.length ∨
    r.suffixOff ≤ off ∧ off + len ≤ r.suffixOff + (r.suffix.length + r.data.length)

def read (r : Rec) (off len : ℕ) : List UInt8 :=
  if off + len ≤ r.keyOff + r.key.length then (r.key.drop (off - r.keyOff)).take len
  else ((r.suffix ++ r.data).drop (off - r.suffixOff)).take len

theorem Covers.drop {r : Rec} {off len n : ℕ} (h : r.Covers off len) (part : n < len) :
    r.Covers (off + n) (len - n) := by
  unfold Covers at h ⊢
  omega

end Rec

variable {s s₁ s' : Store} {lay lay' : Layout} {id : ℕ} {key : Key} {keys : List Key}
  {returnCas : Bool} {items : List ℕ} {segments : List Segment} {off len : ℕ}

theorem Rec.Covers.slice {m : Mem} {b : Block} (h : (recOf m b).Covers off len) :
    slice m off len = (recOf m b).read off len := by
  have key : ByteMem.slice m (recOf m b).keyOff (recOf m b).key.length = (recOf m b).key := by
    simp [Rec.keyOff, recOf, keyOf, itemKey]
  have rest : ByteMem.slice m (recOf m b).suffixOff
      ((recOf m b).suffix.length + (recOf m b).data.length) =
        (recOf m b).suffix ++ (recOf m b).data := by
    rw [slice_add]
    simp only [Rec.suffixOff, recOf, keyOf, suffixOf, dataOf, length_slice, itemSuffix, itemData,
      sizeofItemData]
    congr 2
    omega
  have order : (recOf m b).keyOff + (recOf m b).key.length < (recOf m b).suffixOff := by
    simp only [Rec.keyOff, Rec.suffixOff]
    omega
  unfold Rec.read
  rcases h with ⟨low, high⟩ | ⟨low, high⟩
  · obtain ⟨i, rfl⟩ := Nat.exists_eq_add_of_le low
    rw [if_pos high, Nat.add_sub_cancel_left, slice_sub m (n := (recOf m b).key.length) (by omega),
      key]
  · obtain ⟨i, rfl⟩ := Nat.exists_eq_add_of_le low
    rw [if_neg (by omega), Nat.add_sub_cancel_left,
      slice_sub m (n := (recOf m b).suffix.length + (recOf m b).data.length) (by omega), rest]

/-- A segment is text of its own or lies in the completed record of a held item. -/
def Pinned (s : Store) (lay : Layout) (items : List ℕ) : Segment → Prop
  | .text _ => True
  | .range off len => ∃ id ∈ items, s.recAt id ∈ s.journal lay ∧
      (s.recAt id).flags = storedFlags ∧ (s.recAt id).Covers off len

theorem pinned_hitSegments (mem : s.recAt id ∈ s.journal lay)
    (flags : (s.recAt id).flags = storedFlags) (two : 2 ≤ (s.recAt id).suffix.length)
    {segment : Segment} (hseg : segment ∈ hitSegments s.log.mem (s.itemOf id) returnCas) :
    Pinned s lay [id] segment := by
  have within {off len : ℕ} (covers : (s.recAt id).Covers off len) :
      Pinned s lay [id] (.range off len) :=
    ⟨id, List.mem_singleton_self id, mem, flags, covers⟩
  have lengths : nkeyOf s.log.mem (s.itemOf id) = (s.recAt id).key.length ∧
      nsuffixOf s.log.mem (s.itemOf id) = (s.recAt id).suffix.length ∧
      nbytesOf s.log.mem (s.itemOf id) = (s.recAt id).data.length := by
    simp [Store.recAt, recOf, keyOf, suffixOf, dataOf]
  obtain ⟨nkey, nsuffix, nbytes⟩ := lengths
  have atKey : itemKey s.log.mem (s.itemOf id) = (s.recAt id).keyOff := rfl
  have atSuffix : itemSuffix s.log.mem (s.itemOf id) = (s.recAt id).suffixOff := by
    simp only [itemSuffix, Rec.suffixOff, nkey]
    rfl
  have atData : itemData s.log.mem (s.itemOf id) =
      (s.recAt id).suffixOff + (s.recAt id).suffix.length := by
    rw [itemData_recAt]
    simp only [Rec.dataOff, Rec.suffixOff]
    omega
  unfold hitSegments at hseg
  rw [atKey, atSuffix, atData, nkey, nsuffix, nbytes] at hseg
  split_ifs at hseg <;>
    simp only [List.cons_append, List.nil_append, List.mem_cons, List.not_mem_nil, or_false] at hseg
  · rcases hseg with rfl | rfl | rfl | rfl | rfl
    · trivial
    · exact within (Or.inl (by omega))
    · exact within (Or.inr (by omega))
    · trivial
    · exact within (Or.inr (by omega))
  · rcases hseg with rfl | rfl | rfl
    · trivial
    · exact within (Or.inl (by omega))
    · exact within (Or.inr (by omega))

theorem Pinned.mono {segment : Segment} {more : List ℕ} (h : Pinned s lay items segment)
    (sub : ∀ id ∈ items, id ∈ more) : Pinned s lay more segment := by
  cases segment with
  | text bytes => trivial
  | range off len =>
    obtain ⟨id, hid, rest⟩ := h
    exact ⟨id, sub id hid, rest⟩

theorem Pinned.kept {segment : Segment} (h : Pinned s lay items segment)
    (kept : ∀ id ∈ items, s'.itemOf id = s.itemOf id ∧ (s.recAt id ∈ s.journal lay →
      (s.recAt id).flags = storedFlags → s.recAt id ∈ s'.journal lay')) :
    Pinned s' lay' items segment ∧ segment.render s'.log.mem = segment.render s.log.mem := by
  cases segment with
  | text bytes => exact ⟨trivial, rfl⟩
  | range off len =>
    obtain ⟨id, hid, mem, flags, covers⟩ := h
    obtain ⟨item, stays⟩ := kept id hid
    have mem' := stays mem flags
    have same : s'.recAt id = s.recAt id := recAt_eq mem' item.symm
    have covers' : (s'.recAt id).Covers off len := same ▸ covers
    refine ⟨⟨id, hid, same ▸ mem', same ▸ flags, covers'⟩, ?_⟩
    exact covers'.slice.trans ((congrArg (Rec.read · off len) same).trans covers.slice.symm)

/-! ## Releasing -/

theorem sameTable_removeAll (run : s.removeAll items = .ok s') : SameTable s s' := by
  induction items generalizing s with
  | nil => exact pure_ran.1 run ▸ .refl s
  | cons id ids ih =>
    obtain ⟨s₁, first, rest⟩ := bind_ran.1 run
    exact (sameTable_doItemRemove first).trans (ih rest)

theorem StoreInv.removeAll (h : StoreInv s lay) (run : s.removeAll items = .ok s') :
    StoreInv s' lay := by
  induction items generalizing s with
  | nil => exact pure_ran.1 run ▸ h
  | cons id ids ih =>
    obtain ⟨s₁, first, rest⟩ := bind_ran.1 run
    exact ih (h.doItemRemove first) rest

theorem Moves.removeAll (run : s.removeAll items = .ok s') : Moves s items s' 0 := by
  induction items generalizing s with
  | nil => exact pure_ran.1 run ▸ .refl s 0
  | cons id ids ih =>
    obtain ⟨s₁, first, rest⟩ := bind_ran.1 run
    have := (Moves.drop first).frame (ids : Multiset ℕ)
    rw [zero_add, Multiset.singleton_add] at this
    exact this.trans (ih rest)

/-- `conn_release_items` only adds an assertion. -/
theorem removeAll_of_release (run : s.connReleaseItems items = .ok s') :
    s.removeAll items = .ok s' := by
  induction items generalizing s with
  | nil => exact run
  | cons id ids ih =>
    obtain ⟨s₁, first, rest⟩ := bind_ran.1 (check_bind_ran.1 run).2
    exact bind_ran.2 ⟨s₁, first, ih rest⟩

/-! ## A whole `get` -/

theorem Store.Roomy.after {R R' : Multiset ℕ} {n : ℕ} (room : s.Roomy (n + 1)) (inv : StoreInv s lay)
    (inv' : StoreInv s' lay) (before : Counted s R) (after : Counted s' R')
    (step : ∀ k, R'.count k ≤ R.count k + 1) (table : ∀ k ∈ s'.table, k ∈ s.table) :
    s'.Roomy n := by
  intro k hk
  have linked := (inv.linked k).1 (table k hk)
  have linked' := (inv'.linked k).1 hk
  have count := before.count k (inv.slabbed_of_linked linked)
  have count' := after.count k (inv'.slabbed_of_linked linked')
  have := room k (table k hk)
  have := step k
  rw [linked, Bool.toNat_true] at count
  rw [linked', Bool.toNat_true] at count'
  omega

/-- What a `get` of `n` keys leaves. -/
structure Retrieves (s s' : Store) (lay : Layout) (n : ℕ) (own own' : Multiset ℕ) : Prop where
  inv : StoreInv s' lay
  setup : SameSetup s s'
  log : s'.log = s.log
  items : ∀ k, s'.itemOf k = s.itemOf k
  sound : (s'.view lay).Sound
  moves : s.Roomy n → Moves s own s' own'

theorem Retrieves.journal {n : ℕ} {own own' : Multiset ℕ} (h : Retrieves s s' lay n own own') :
    s'.journal lay = s.journal lay := by
  rw [Store.journal, Store.journal, h.log]

theorem StoreInv.processGetKeys {response : Option (List ℕ × List Segment)} (h : StoreInv s lay)
    (sound : (s.view lay).Sound) (off : s.settings.lruLogEnabled = false)
    (pinned : ∀ segment ∈ segments, Pinned s lay items segment)
    (run : s.processGetKeys returnCas items segments keys = .ok (s', response)) :
    Retrieves s s' lay keys.length items (response.elim 0 fun p => (p.1 : Multiset ℕ)) ∧
      ∀ p, response = some p → ∀ segment ∈ p.2, Pinned s' lay p.1 segment := by
  induction keys generalizing s items segments with
  | nil =>
    obtain ⟨rfl, rfl⟩ := pair_ran.1 run
    refine ⟨⟨h, .refl s, rfl, fun _ => rfl, sound, fun _ => .refl s _⟩, fun p eq segment hseg => ?_⟩
    cases eq
    rcases List.mem_append.1 hseg with hseg | hseg
    · exact pinned segment hseg
    · rw [List.mem_singleton.1 hseg]
      trivial
  | cons key keys ih =>
    rw [Store.processGetKeys] at run
    split_ifs at run with long
    · obtain ⟨s₁, remove, run⟩ := bind_ran.1 run
      obtain ⟨rfl, rfl⟩ := pair_ran.1 run
      have same := sameTable_removeAll remove
      have moves := Moves.removeAll remove
      rw [Multiset.coe_reverse] at moves
      exact ⟨⟨h.removeAll remove, same.setup, same.log, same.item, by rw [same.view]; exact sound,
        fun _ => moves⟩, by simp⟩
    · obtain ⟨⟨s₁, hit⟩, first, run⟩ := bind_ran.1 run
      obtain ⟨out, log, item, table, segs⟩ := h.getKey off first
      have quiet : s₁.settings.lruLogEnabled = false := by rw [out.setup.settings, off]
      have sound₁ : (s₁.view lay).Sound := by
        rw [out.view]
        split_ifs
        · exact sound.unlink key
        · exact sound
      -- the hits so far are still pinned, and the new one is
      have journal : s₁.journal lay = s.journal lay := by rw [Store.journal, Store.journal, log]
      have pinned₁ (segment : Segment) (more : List ℕ) (hp : Pinned s lay more segment) :
          Pinned s₁ lay more segment :=
        (hp.kept fun k _ => ⟨item k, fun mem _ => by rwa [journal]⟩).1
      -- one reference of the budget is spent
      have roomy {own' : Multiset ℕ} (moves : Moves s 0 s₁ own')
          (one : ∀ k, own'.count k ≤ 1) (room : s.Roomy (keys.length + 1)) {others : Multiset ℕ}
          (before : Counted s others) : s₁.Roomy keys.length := by
        obtain ⟨after, -⟩ := moves others (by rwa [zero_add])
        refine room.after h out.inv before after (fun k => ?_) table
        rw [Multiset.count_add]
        have := one k
        omega
      have budget (room : s.Roomy (keys.length + 1)) : s.Roomy 1 := fun k hk => by
        have := room k hk
        omega
      cases hit with
      | none =>
        obtain ⟨rest, pins⟩ := ih out.inv sound₁ quiet
          (fun segment hseg => pinned₁ segment items (pinned segment hseg)) run
        refine ⟨⟨rest.inv, out.setup.trans rest.setup, rest.log.trans log,
          fun k => (rest.items k).trans (item k), rest.sound, fun room others before => ?_⟩, pins⟩
        have moves : Moves s 0 s₁ 0 := out.moves (budget room)
        have second := rest.moves (roomy moves (by simp) room before)
        have both := (moves.frame (items : Multiset ℕ)).trans ((zero_add (items : Multiset ℕ)).symm ▸
          second)
        rw [zero_add] at both
        exact both others before
      | some p =>
        obtain ⟨id, more⟩ := p
        obtain ⟨found, rfl⟩ := segs id more rfl
        obtain ⟨f, holds⟩ := h.holds sound found
        have two : 2 ≤ (s.recAt id).suffix.length := by
          rw [holds.suffix]
          simp only [suffixText, List.length_cons, List.length_append]
          omega
        have pinned' : ∀ segment ∈ segments ++ hitSegments s.log.mem (s.itemOf id) returnCas,
            Pinned s₁ lay (items ++ [id]) segment := by
          intro segment hseg
          rcases List.mem_append.1 hseg with hseg | hseg
          · exact (pinned₁ segment items (pinned segment hseg)).mono fun k hk =>
              List.mem_append_left _ hk
          · exact (pinned₁ segment [id] (pinned_hitSegments holds.mem holds.flags two hseg)).mono
              fun k hk => List.mem_append_right _ hk
        obtain ⟨rest, pins⟩ := ih out.inv sound₁ quiet pinned' run
        refine ⟨⟨rest.inv, out.setup.trans rest.setup, rest.log.trans log,
          fun k => (rest.items k).trans (item k), rest.sound, fun room others before => ?_⟩, pins⟩
        have moves : Moves s 0 s₁ {id} := out.moves (budget room)
        have second := rest.moves (roomy moves (by
          intro k
          rw [Multiset.count_singleton]
          split_ifs <;> omega) room before)
        have first := moves.beside (items : Multiset ℕ)
        have total : ({id} : Multiset ℕ) + (items : Multiset ℕ) = ((items ++ [id] : List ℕ)) := by
          rw [add_comm, ← Multiset.coe_add]
          rfl
        rw [total] at first
        exact first.trans second others before

end LogMemcached

import LogMemcached.StorageSteps
import LogMemcached.Sound

/-!
# Commands keep the view sound

In a sound view no linked item carries client flags with the `ITEM_DELETED` bit, so that a command
that writes an item again never leaves a tombstone.  For each command: the view it leaves is sound,
all completed records are still in it, and only a header line adds a record under upload.
-/

namespace LogMemcached

open ByteMem Tiling Fallible

/-! ## Growing views -/

structure View.Grows (v v' : View) : Prop where
  kept : ∀ q ∈ v.recs, q ∈ v'.recs
  dirty : ∀ q ∈ v'.recs, q.flags = dirtyFlags → q ∈ v.recs

namespace View

variable {v v' : View} {r : Rec} {key : Key} {o : ℕ}

theorem Grows.of_recs (recs : v'.recs = v.recs) : v.Grows v' :=
  ⟨fun _ hq => by rwa [recs], fun _ hq _ => by rwa [recs] at hq⟩

theorem Grows.refl (v : View) : v.Grows v := .of_recs rfl

theorem Grows.unlink (h : v.Grows v') (key : Key) : v.Grows (v'.unlink key) := ⟨h.kept, h.dirty⟩

theorem Grows.link (h : v.Grows v') (key : Key) (o : ℕ) : v.Grows (v'.link key o) :=
  ⟨h.kept, h.dirty⟩

theorem Grows.log (v : View) (clean : r.flags ≠ dirtyFlags) : v.Grows (v.log r) := by
  refine ⟨fun q hq => List.mem_append_left _ hq, fun q hq dirty => ?_⟩
  rcases List.mem_append.1 hq with hq | hq
  · exact hq
  · rw [List.mem_singleton.1 hq] at dirty
    exact absurd dirty clean

theorem Sound.tombstone (h : v.Sound) (flags : r.flags = tombFlags)
    (new : ∀ q ∈ v.recs, q.off ≠ r.off) : (v.log r).Sound :=
  h.log (Or.inl flags) new

theorem Sound.relink (h : v.Sound) (proper : r.Proper) (flags : r.flags = storedFlags)
    (new : ∀ q ∈ v.recs, q.off ≠ r.off) : ((v.log r).link r.key r.off).Sound :=
  (h.log (Or.inr ⟨proper, Or.inr (Or.inl flags)⟩) new).link
    (List.mem_append_right _ (List.mem_singleton_self r)) flags

theorem Sound.complete (h : v.Sound) (mem : r ∈ v.recs) (dirty : r.flags = dirtyFlags) :
    ((v.put { r with flags := storedFlags }).link r.key r.off).Sound := by
  have proper : r.Proper := by
    rcases h.known r mem with tomb | ⟨proper, -⟩
    · exact absurd (dirty.symm.trans tomb) (by decide)
    · exact proper
  have known : Rec.Known { r with flags := storedFlags } :=
    Or.inr ⟨⟨proper.short, proper.flags, proper.two⟩, Or.inr (Or.inl rfl)⟩
  have sound : (v.put { r with flags := storedFlags }).Sound := h.put mem dirty rfl known
  have there := mem_put (v := v) (r := { r with flags := storedFlags }) mem rfl
  exact Sound.link (r := { r with flags := storedFlags }) sound there rfl

end View

variable {s s₁ s₂ s' : Store} {lay lay' : Layout} {id : ℕ} {key : Key} {flags : ℕ} {vlen : ℤ}
  {r : Rec} {comm : NreadComm} {own : Multiset ℕ}

/-! ## Linked items -/

theorem View.Sound.proper {v : View} (h : v.Sound) (mem : r ∈ v.recs) (plain : r.flags ≠ tombFlags) :
    r.Proper :=
  ((h.known r mem).resolve_left plain).1

theorem StoreInv.stored_of_linked {k : ℕ} (h : StoreInv s lay) (sound : (s.view lay).Sound)
    (linked : (s.metas k).linked = true) :
    s.recAt k ∈ s.journal lay ∧ (s.recAt k).flags = storedFlags := by
  have member := (h.linked k).2 linked
  have found : (s.view lay).table (s.keyAt k) = some (s.itemOf k) := by
    simp [Store.view, Store.lookup, h.assocFind_iff.2 ⟨member, rfl⟩]
  obtain ⟨r, hr, off, -, flags⟩ := sound.table _ _ found
  rw [recAt_eq hr off]
  exact ⟨hr, flags⟩

theorem Fresh.apart (fresh : Fresh s lay id r) (h : StoreInv s lay) (sound : (s.view lay).Sound) :
    ∀ k ∈ s.table, s.itemOf k ≠ r.off := by
  intro k hk same
  have dirty : r.flags = dirtyFlags := fresh.flags
  obtain ⟨mem, flags⟩ := h.stored_of_linked sound ((h.linked k).1 hk)
  rw [h.rec_inj mem fresh.mem same, dirty] at flags
  exact absurd flags (by decide)

theorem Fresh.proper (fresh : Fresh s lay id r) (sound : (s.view lay).Sound) : r.Proper := by
  have dirty : r.flags = dirtyFlags := fresh.flags
  exact sound.proper fresh.mem (by rw [dirty]; decide)

theorem StoreInv.apart_of_dirty {r : Rec} (h : StoreInv s lay) (sound : (s.view lay).Sound)
    (mem : r ∈ s.journal lay) (dirty : r.flags = dirtyFlags) : ∀ k ∈ s.table, s.itemOf k ≠ r.off := by
  intro k hk same
  obtain ⟨linked, stored⟩ := h.stored_of_linked sound ((h.linked k).1 hk)
  rw [h.rec_inj linked mem same, dirty] at stored
  exact absurd stored (by decide)

structure Holds (s : Store) (lay : Layout) (key : Key) (id : ℕ) (f : ℕ) : Prop where
  mem : s.recAt id ∈ s.journal lay
  key : (s.recAt id).key = key
  flags : (s.recAt id).flags = storedFlags
  word : f < 2 ^ 32
  plain : deletedBit f = false
  suffix : (s.recAt id).suffix = suffixText f (s.recAt id).data.length
  two : 2 ≤ (s.recAt id).data.length
  client : s.clientFlags id = f
  delta : s.deltaFlags id = f

theorem StoreInv.holds (h : StoreInv s lay) (sound : (s.view lay).Sound)
    (found : s.find key = some id) : ∃ f, Holds s lay key id f := by
  obtain ⟨member, hkey⟩ := assocFind_linked (find_eq_some.1 found).1
  obtain ⟨mem, flags⟩ := h.stored_of_linked sound ((h.linked id).1 member)
  have proper := sound.proper mem (by rw [flags]; decide)
  obtain ⟨f, word, plain, suffix⟩ := proper.flags
  have text : suffixOf s.log.mem (s.itemOf id) = suffixText f (s.recAt id).data.length := suffix
  refine ⟨f, mem, hkey, flags, word, plain, suffix, proper.two, ?_, ?_⟩
  · rw [Store.clientFlags, clientFlagsOf, text, strtoul_suffixText word]
  · rw [Store.deltaFlags, text, strtoul_drop_suffixText word]

/-- What `append` and `prepend` need, when the log can serve or refuse the record they make. -/
theorem Fresh.joinOk (fresh : Fresh s lay id r) (h : StoreInv s lay) (sound : (s.view lay).Sound)
    (second : comm = .append ∨ comm = .prepend → ∀ oldId, s.find r.key = some oldId →
      RoomFor s (s.joinSize id oldId)) : s.JoinOk comm id r := by
  intro joins oldId found
  obtain ⟨f, holds⟩ := h.holds sound found
  exact ⟨(fresh.proper sound).two, holds.two, second joins oldId found⟩

/-! ## Writing an item again -/

theorem Relogs.sound {given : ℕ → ℕ} (h : Relogs s s' lay lay' key given) (inv : StoreInv s lay)
    (sound : (s.view lay).Sound) (short : key.length ≤ 250)
    (reads : ∀ id f, s.find key = some id → Holds s lay key id f → given id = f) :
    ∃ v, Outcome s s' lay lay' 0 0 v ∧ v.Sound ∧ (s.view lay).Grows v := by
  cases h with
  | missing absent out => exact ⟨_, out, sound.unlink key, (View.Grows.refl _).unlink key⟩
  | refused out => exact ⟨_, out, sound, .refl _⟩
  | tombstone id r found marked hkey hflags new out =>
    obtain ⟨f, holds⟩ := inv.holds sound found
    rw [reads id f found holds, holds.plain] at marked
    cases marked
  | relinked id r found hkey hflags new suffix two out =>
    obtain ⟨f, holds⟩ := inv.holds sound found
    rw [reads id f found holds] at suffix
    subst hkey
    exact ⟨_, out, sound.relink ⟨short, ⟨f, holds.word, holds.plain, suffix⟩, two holds.two⟩ hflags
      new, (View.Grows.log _ (by rw [hflags]; decide)).link _ _⟩

/-! ## Storage commands -/

theorem Opens.sound {reply : Reply}
    (h : Opens s s' lay lay' comm key flags vlen (.reply reply)) (inv : StoreInv s lay)
    (sound : (s.view lay).Sound) :
    ∃ v, Outcome s s' lay lay' 0 0 v ∧ v.Sound ∧ (s.view lay).Grows v := by
  cases h with
  | rejected same layout =>
    subst same layout
    exact ⟨_, ⟨inv, .refl s', rfl, fun _ => .refl s' 0⟩, sound, .refl _⟩
  | full _ out =>
    refine ⟨_, out, ?_⟩
    split_ifs
    · exact ⟨sound.unlink key, (View.Grows.refl _).unlink key⟩
    · exact ⟨sound, .refl _⟩
  | tombstone _ r marked hkey hflags new out =>
    have logged := sound.tombstone hflags new
    have grows := View.Grows.log (s.view lay) (r := r) (by rw [hflags]; decide)
    refine ⟨_, out, ?_⟩
    split_ifs
    · exact ⟨logged.unlink key, grows.unlink key⟩
    · exact ⟨logged, grows⟩

/-- What a completed block leaves of the other records and, when it is accepted, of its own. -/
structure Settled (s : Store) (lay : Layout) (r : Rec) (accepts : Bool) (v : View) : Prop where
  sound : v.Sound
  kept : ∀ q ∈ s.journal lay, q.off ≠ r.off → q ∈ v.recs
  dirty : accepts = true → ∀ q ∈ v.recs, q.flags = dirtyFlags → q ∈ s.journal lay ∧ q.off ≠ r.off

theorem View.Sound.settled {f : UInt8} {accepts : Bool} {v : View} (sound : (s.view lay).Sound)
    (mem : r ∈ s.journal lay) (clean : f ≠ dirtyFlags) (recs : v.recs =
      ((s.view lay).put { r with flags := f }).recs) (vsound : v.Sound) :
    Settled s lay r accepts v := by
  have iff (q : Rec) : q ∈ v.recs ↔ q = { r with flags := f } ∨ q ∈ s.journal lay ∧ q ≠ r := by
    rw [recs]
    exact View.mem_put_iff sound mem rfl
  refine ⟨vsound, fun q hq other => ?_, fun _ q hq dirty => ?_⟩
  · refine (iff q).2 (Or.inr ⟨hq, ?_⟩)
    rintro rfl
    exact other rfl
  · rcases (iff q).1 hq with rfl | ⟨hq, other⟩
    · exact absurd dirty clean
    · exact ⟨hq, fun same => other (sound.inj q hq r mem same)⟩

theorem Stores.sound {result : StoreItemType} (h : Stores s s' lay lay' comm id r own result)
    (inv : StoreInv s lay) (sound : (s.view lay).Sound) (mem : r ∈ s.journal lay)
    (dirty : r.flags = dirtyFlags) :
    ∃ v, Outcome s s' lay lay' {id} own v ∧
      Settled s lay r (s.accepts comm id (s.find r.key)) v := by
  have proper := sound.proper mem (by rw [dirty]; decide)
  -- a command that is not accepted leaves the record as it is
  have rejected (v : View) (rejects : s.accepts comm id (s.find r.key) = false)
      (vsound : v.Sound) (grows : (s.view lay).Grows v) :
      Settled s lay r (s.accepts comm id (s.find r.key)) v :=
    ⟨vsound, fun q hq _ => grows.kept q hq, fun accepts => by rw [rejects] at accepts; cases accepts⟩
  have joining (oldId : ℕ) (found : s.find r.key = some oldId)
      (joins : comm = .append ∨ comm = .prepend) : s.accepts comm id (s.find r.key) = false := by
    rw [found]
    rcases joins with rfl | rfl <;> simp [Store.accepts]
  cases h with
  | stored accepts out =>
    exact ⟨_, out, sound.settled mem (by decide) rfl (sound.complete mem dirty)⟩
  | refused _ rejects failed out =>
    refine ⟨_, out, rejected _ rejects ?_ ?_⟩
    · split_ifs
      · exact sound.unlink r.key
      · exact sound
    · split_ifs
      · exact (View.Grows.refl _).unlink r.key
      · exact .refl _
  | tombstone oldId q found joins marked hkey hflags new out =>
    obtain ⟨f, holds⟩ := inv.holds sound found
    rw [holds.client, holds.plain] at marked
    cases marked
  | combined oldId q found joins hkey hflags new suffix two out =>
    obtain ⟨f, holds⟩ := inv.holds sound found
    rw [holds.client] at suffix
    rw [← hkey] at out
    exact ⟨_, out, rejected _ (joining oldId found joins)
      (sound.relink ⟨hkey ▸ proper.short, ⟨f, holds.word, holds.plain, suffix⟩, two⟩ hflags new)
      ((View.Grows.log _ (by rw [hflags]; decide)).link _ _)⟩

end LogMemcached

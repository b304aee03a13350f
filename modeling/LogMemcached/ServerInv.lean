import LogMemcached.Responses
import LogMemcached.Server

/-!
# The invariant of the server

The store invariant, exact reference counts up to references that a command has left behind, a
sound view, and for each connection the record it is filling.  `ServerInv.act` says what a step of
one connection has to establish: what it does to the store is framed by `Moves` and by the records
that stay.
-/

namespace LogMemcached

open ByteMem Fallible Store

/-- The record an upload is filling: as the header line left it, but for the bytes received. -/
structure Upload (s : Store) (lay : Layout) (id ritem rlbytes : ℕ) (start : Rec)
    (got : List UInt8) (r : Rec) : Prop where
  fresh : Fresh s lay id r
  alone : (s.metas id).refcount = 1
  cursor : ritem = r.dataOff + got.length
  left : got.length + rlbytes = r.data.length
  same : r = { start with data := r.data }
  data : r.data = got ++ start.data.drop got.length

def Conn.uploadOff (s : Store) : Conn → Option ℕ
  | .nread _ id _ _ _ _ => some (s.itemOf id)
  | _ => none

def ConnInv (s : Store) (lay : Layout) : Conn → Prop
  | .nread _ id ritem rlbytes start got => ∃ r, Upload s lay id ritem rlbytes start got r
  | .found key id => key.length ≤ 250 ∧ ((s.metas id).linked = true → s.keyAt id = key)
  | _ => True

/-- What is left of a queued response lies in records that are held, and reads as it did when the
response was queued. -/
def Answers (s : Store) (lay : Layout) : Conn → Prop
  | .mwrite items segments due =>
      (∀ segment ∈ segments, Pinned s lay items segment) ∧ renderAll s.log.mem segments = due
  | _ => True

section Sets

variable {ι : Type} [DecidableEq ι] {srv : Server ι} {c : ι} {s' : Store} {conn : Conn}

@[simp] theorem Server.set_store : (srv.set c s' conn).store = s' := rfl

@[simp] theorem Server.set_self : (srv.set c s' conn).conns c = conn := Function.update_self ..

theorem Server.set_other {c' : ι} (other : c' ≠ c) :
    (srv.set c s' conn).conns c' = srv.conns c' :=
  Function.update_of_ne other _ _

variable [Fintype ι]

def Server.rest (srv : Server ι) (c : ι) : Multiset ℕ :=
  ∑ c' ∈ Finset.univ.erase c, (srv.conns c').refs

theorem Server.refs_eq (srv : Server ι) (c : ι) :
    srv.refs = (srv.conns c).refs + srv.rest c :=
  (Finset.add_sum_erase _ _ (Finset.mem_univ c)).symm

theorem Server.refs_set (srv : Server ι) (c : ι) (s' : Store) (conn : Conn) :
    (srv.set c s' conn).refs = conn.refs + srv.rest c := by
  rw [Server.refs_eq _ c, Server.set_self]
  congr 1
  refine Finset.sum_congr rfl fun c' hc' => ?_
  rw [Server.set_other (Finset.ne_of_mem_erase hc')]

theorem Server.mem_rest {c' : ι} {k : ℕ} (other : c' ≠ c) (held : k ∈ (srv.conns c').refs) :
    k ∈ srv.rest c :=
  Multiset.mem_sum.2 ⟨c', Finset.mem_erase.2 ⟨other, Finset.mem_univ _⟩, held⟩

end Sets

/-! ## The invariant -/

section

variable {ι : Type} [Fintype ι]

/-- The invariant, with `leaked` references that no connection will give back. -/
structure ServerInv (srv : Server ι) (lay : Layout) (leaked : Multiset ℕ) : Prop where
  inv : StoreInv srv.store lay
  counted : Counted srv.store (srv.refs + leaked)
  sound : (srv.store.view lay).Sound
  conn : ∀ c, ConnInv srv.store lay (srv.conns c)
  apart : ∀ c c' o, (srv.conns c).uploadOff srv.store = some o →
    (srv.conns c').uploadOff srv.store = some o → c = c'

variable {srv : Server ι} {lay lay' : Layout} {leaked leak : Multiset ℕ} {c : ι} {s s' : Store}
  {conn : Conn}

theorem ConnInv.upload {o : ℕ} (h : ConnInv s lay conn) (eq : conn.uploadOff s = some o) :
    ∃ q ∈ s.journal lay, q.off = o ∧ q.flags = dirtyFlags := by
  cases conn with
  | nread comm id ritem rlbytes start got =>
    obtain ⟨r, up⟩ := h
    exact ⟨r, up.fresh.mem, up.fresh.off.trans (Option.some.inj eq), up.fresh.flags⟩
  | _ => cases eq

theorem ServerInv.not_upload (h : ServerInv srv lay leaked) {q : Rec}
    (mem : q ∈ srv.store.journal lay) (flags : q.flags ≠ dirtyFlags) (c : ι) :
    (srv.conns c).uploadOff srv.store ≠ some q.off := fun eq => by
  obtain ⟨r, hr, off, dirty⟩ := (h.conn c).upload eq
  exact flags (h.inv.rec_inj hr mem off ▸ dirty)

theorem Upload.kept {id ritem rlbytes : ℕ} {start : Rec} {got : List UInt8} {r : Rec}
    (up : Upload s lay id ritem rlbytes start got r) (kept : Kept s s' id)
    (mem : r ∈ s'.journal lay') : Upload s' lay' id ritem rlbytes start got r := by
  have same := kept.quiet up.fresh.unlinked up.alone
  exact { up with
    fresh := ⟨mem, up.fresh.off.trans kept.item.symm, up.fresh.flags, same ▸ up.fresh.unlinked,
      same ▸ up.fresh.used⟩
    alone := same ▸ up.alone }

theorem ConnInv.kept (inv : ConnInv s lay conn) (items : ∀ k ∈ conn.refs, Kept s s' k)
    (upload : ∀ q ∈ s.journal lay, conn.uploadOff s = some q.off → q ∈ s'.journal lay')
    (linked : ∀ k ∈ conn.refs, (s'.metas k).linked = true → s'.keyAt k = s.keyAt k) :
    ConnInv s' lay' conn := by
  cases conn with
  | nread comm id ritem rlbytes start got =>
    obtain ⟨r, up⟩ := inv
    refine ⟨r, up.kept (items id (Multiset.mem_singleton_self id)) (upload r up.fresh.mem ?_)⟩
    rw [up.fresh.off]
    rfl
  | found key id =>
    have held := Multiset.mem_singleton_self id
    refine ⟨inv.1, fun isLinked => ?_⟩
    rw [linked id held isLinked]
    exact inv.2 ((items id held).linked isLinked)
  | _ => trivial

theorem Answers.kept (inv : Answers s lay conn) (items : ∀ k ∈ conn.refs, s'.itemOf k = s.itemOf k)
    (stays : ∀ k ∈ conn.refs, s.recAt k ∈ s.journal lay → (s.recAt k).flags = storedFlags →
      s.recAt k ∈ s'.journal lay') : Answers s' lay' conn := by
  cases conn with
  | mwrite held segments due =>
    obtain ⟨pinned, eq⟩ := inv
    have kept (segment : Store.Segment) (hseg : segment ∈ segments) :
        Pinned s' lay' _ segment ∧ segment.render s'.log.mem = segment.render s.log.mem :=
      (pinned segment hseg).kept fun k hk => ⟨items k hk, stays k hk⟩
    refine ⟨fun segment hseg => (kept segment hseg).1, ?_⟩
    rw [← eq, renderAll, renderAll, List.flatMap_def, List.flatMap_def]
    exact congrArg List.flatten (List.map_congr_left fun segment hseg => (kept segment hseg).2)
  | _ => trivial

theorem uploadOff_kept (items : ∀ k ∈ conn.refs, Kept s s' k) :
    conn.uploadOff s' = conn.uploadOff s := by
  cases conn with
  | nread comm id ritem rlbytes start got =>
    exact congrArg some (items id (Multiset.mem_singleton_self id)).item
  | _ => rfl

end

/-! ## Steps of one connection -/

section

variable {ι : Type} [Fintype ι] [DecidableEq ι]
variable {srv srv' : Server ι} {lay lay' : Layout} {leaked leak : Multiset ℕ} {c : ι} {s' : Store}
  {conn : Conn}

/-- What a step of one connection does: the rest of the server is framed by `Moves` and by the
records that stay. -/
structure Acts (srv : Server ι) (c : ι) (s' : Store) (conn : Conn) (lay lay' : Layout)
    (leak : Multiset ℕ) : Prop where
  inv : StoreInv s' lay'
  settings : s'.settings = srv.store.settings
  limit : s'.log.memLimit = srv.store.log.memLimit
  sound : (s'.view lay').Sound
  moves : Moves srv.store (srv.conns c).refs s' (conn.refs + leak)
  kept : ∀ q ∈ srv.store.journal lay, (srv.conns c).uploadOff srv.store ≠ some q.off →
    q ∈ s'.journal lay'
  own : ConnInv s' lay' conn
  new : ∀ o, conn.uploadOff s' = some o → (srv.conns c).uploadOff srv.store = some o ∨
    ∀ q ∈ srv.store.journal lay, q.off ≠ o

theorem ServerInv.held (h : ServerInv srv lay leaked) (acts : Acts srv c s' conn lay lay' leak)
    {c' : ι} (other : c' ≠ c) : ∀ k ∈ (srv.conns c').refs, Kept srv.store s' k := fun k hk => by
  have before := h.counted
  rw [Server.refs_eq srv c, add_assoc] at before
  exact (acts.moves _ before).2 k (Multiset.mem_add.2 (Or.inl (Server.mem_rest other hk)))

theorem ServerInv.uploads (h : ServerInv srv lay leaked) (acts : Acts srv c s' conn lay lay' leak)
    {c' : ι} (other : c' ≠ c) : ((srv.set c s' conn).conns c').uploadOff s' =
      (srv.conns c').uploadOff srv.store := by
  rw [Server.set_other other]
  exact uploadOff_kept (h.held acts other)

theorem ServerInv.act (h : ServerInv srv lay leaked) (acts : Acts srv c s' conn lay lay' leak) :
    ServerInv (srv.set c s' conn) lay' (leaked + leak) := by
  refine ⟨acts.inv, ?_, acts.sound, fun c' => ?_, fun c₁ c₂ o eq₁ eq₂ => ?_⟩
  · have before := h.counted
    rw [Server.refs_eq srv c, add_assoc] at before
    have total : conn.refs + srv.rest c + (leaked + leak) =
        conn.refs + leak + (srv.rest c + leaked) := by
      rw [add_comm leaked, ← add_assoc, ← add_assoc, add_right_comm conn.refs]
    rw [Server.refs_set, total]
    exact (acts.moves _ before).1
  · by_cases other : c' = c
    · rw [other, Server.set_self]
      exact acts.own
    · rw [Server.set_other other]
      have held := h.held acts other
      refine (h.conn c').kept held (fun q hq eq => acts.kept q hq fun mine => ?_)
        fun k hk linked => ?_
      · exact other (h.apart c' c q.off eq mine)
      · -- the record of a linked item is nobody's upload, so it stays
        obtain ⟨mem, flags⟩ := h.inv.stored_of_linked h.sound ((held k hk).linked linked)
        have stays := acts.kept _ mem (h.not_upload mem (by rw [flags]; decide) c)
        exact congrArg Rec.key (recAt_eq stays (held k hk).item.symm)
  · have old {c' : ι} (other : c' ≠ c)
        (eq : ((srv.set c s' conn).conns c').uploadOff s' = some o) :
        (srv.conns c').uploadOff srv.store = some o := h.uploads acts other ▸ eq
    have mixed {c' : ι} (other : c' ≠ c)
        (eq : ((srv.set c s' conn).conns c').uploadOff s' = some o)
        (mine : ((srv.set c s' conn).conns c).uploadOff s' = some o) : False := by
      rw [Server.set_self] at mine
      rcases acts.new o mine with before | fresh
      · exact other (h.apart c' c o (old other eq) before)
      · obtain ⟨q, hq, off, -⟩ := (h.conn c').upload (old other eq)
        exact fresh q hq off
    rw [Server.set_store] at eq₁ eq₂
    by_cases first : c₁ = c <;> by_cases second : c₂ = c
    · rw [first, second]
    · exact (mixed second eq₂ (first ▸ eq₁)).elim
    · exact (mixed first eq₁ (second ▸ eq₂)).elim
    · exact h.apart c₁ c₂ o (old first eq₁) (old second eq₂)

def Server.Claimed (srv : Server ι) (lay : Layout) : Prop :=
  ∀ q ∈ srv.store.journal lay, q.flags = dirtyFlags →
    ∃ c, (srv.conns c).uploadOff srv.store = some q.off

def Tidy (srv : Server ι) (c : ι) (s' : Store) (conn : Conn) (lay lay' : Layout) : Prop :=
  ∀ q ∈ s'.journal lay', q.flags = dirtyFlags → conn.uploadOff s' = some q.off ∨
    q ∈ srv.store.journal lay ∧ (srv.conns c).uploadOff srv.store ≠ some q.off

theorem ServerInv.claimed (h : ServerInv srv lay leaked) (acts : Acts srv c s' conn lay lay' leak)
    (tidy : Tidy srv c s' conn lay lay') (claimed : srv.Claimed lay) :
    (srv.set c s' conn).Claimed lay' := by
  intro q hq dirty
  rcases tidy q hq dirty with mine | ⟨old, notMine⟩
  · exact ⟨c, by rw [Server.set_self]; exact mine⟩
  · obtain ⟨c', eq⟩ := claimed q old dirty
    have other : c' ≠ c := by
      rintro rfl
      exact notMine eq
    exact ⟨c', (h.uploads acts other).trans eq⟩

end

end LogMemcached

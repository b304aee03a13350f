import LogMemcached.Assertions
import LogMemcached.ClientFlags
import LogMemcached.Metadata

/-!
# Metadata in runs of the server

Along runs that lose no reference, whose cleaner spares what is held and whose records are at least
as long as their metadata, every metadata in use has a record of its own.  The pool is then never
empty when the log has room for one more record.
-/

namespace LogMemcached

open ByteMem Tiling Fallible Store Transition

/-! ## Records that stay -/

section Records

variable {s s' : Store} {lay lay' : Layout} {l l' : Memlog} {r q : Rec}

def Rec.block (r : Rec) : Block := ⟨r.off, r.size⟩

theorem StoreInv.records_view (h : StoreInv s lay) :
    s.log.records = (s.view lay).recs.map Rec.block := by
  have whole : ∀ b ∈ lay.live, Rec.block (recOf s.log.mem b) = b := fun b hb => by
    rw [Rec.block, (h.wholeRec hb).rec_size]
    rfl
  rw [h.log.records_eq]
  change lay.live = (lay.live.map (recOf s.log.mem)).map Rec.block
  rw [List.map_map]
  exact (List.map_id lay.live).symm.trans (List.map_congr_left fun b hb => (whole b hb).symm)

def Memlog.Extends (l l' : Memlog) : Prop :=
  l'.records = l.records ∨ ∃ b, l'.records = l.records ++ [b]

theorem Memlog.Extends.refl (l : Memlog) : l.Extends l := .inl rfl

theorem Memlog.Extends.mem (h : l.Extends l') {b : Block} (hb : b ∈ l.records) : b ∈ l'.records := by
  rcases h with eq | ⟨c, eq⟩
  · exact eq ▸ hb
  · rw [eq]
    exact List.mem_append_left _ hb

theorem extends_same (h : StoreInv s lay) (h' : StoreInv s' lay')
    (recs : (s'.view lay').recs = (s.view lay).recs) : s.log.Extends s'.log :=
  .inl (by rw [h.records_view, h'.records_view, recs])

theorem extends_log (h : StoreInv s lay) (h' : StoreInv s' lay')
    (recs : (s'.view lay').recs = (s.view lay).recs ++ [r]) : s.log.Extends s'.log :=
  .inr ⟨r.block, by rw [h.records_view, h'.records_view, recs, List.map_append]; rfl⟩

theorem extends_put (h : StoreInv s lay) (h' : StoreInv s' lay') (mem : r ∈ s.journal lay)
    (off : q.off = r.off) (size : q.size = r.size)
    (recs : (s'.view lay').recs = ((s.view lay).put q).recs) : s.log.Extends s'.log := by
  refine .inl ?_
  rw [h.records_view, h'.records_view, recs]
  change ((s.journal lay).map fun p => if p.off = q.off then q else p).map Rec.block = _
  rw [List.map_map]
  refine List.map_congr_left fun p hp => ?_
  rw [Function.comp]
  split_ifs with same
  · obtain rfl := h.rec_inj hp mem (same.trans off)
    rw [Rec.block, Rec.block, off, size]
  · rfl

theorem Opens.extends {comm : NreadComm} {key : Key} {flags : ℕ} {vlen : ℤ} {update : Update}
    (opens : Opens s s' lay lay' comm key flags vlen update) (h : StoreInv s lay) :
    s.log.Extends s'.log := by
  cases opens with
  | rejected same layout =>
    rw [same]
    exact .refl _
  | upload id r plain fresh alone new hkey short value suffix length out =>
    exact extends_log h out.inv (congrArg View.recs out.view)
  | full reply out =>
    refine extends_same h out.inv (congrArg View.recs out.view |>.trans ?_)
    split_ifs <;> rfl
  | tombstone reply r marked hkey hflags new out =>
    refine extends_log (r := r) h out.inv (congrArg View.recs out.view |>.trans ?_)
    split_ifs <;> rfl

theorem Rec.size_flags {f : UInt8} (room : ntotalCasRoom f = 8) (dirty : r.flags = dirtyFlags) :
    ({ r with flags := f } : Rec).size = r.size := by
  rw [Rec.size, Rec.size, dirty, room, show ntotalCasRoom dirtyFlags = 8 by decide]

theorem Stores.extends {comm : NreadComm} {id : ℕ} {own : Multiset ℕ} {result : StoreItemType}
    (stores : Stores s s' lay lay' comm id r own result) (h : StoreInv s lay)
    (mem : r ∈ s.journal lay) (dirty : r.flags = dirtyFlags) : s.log.Extends s'.log := by
  cases stores with
  | stored accepts out =>
    have size := Rec.size_flags (f := storedFlags) (by decide) dirty
    exact extends_put (q := { r with flags := storedFlags }) h out.inv mem rfl size
      (by rw [out.view]; rfl)
  | refused result rejects failed out =>
    refine extends_same h out.inv (congrArg View.recs out.view |>.trans ?_)
    split_ifs <;> rfl
  | tombstone oldId q found joins marked hkey hflags new out =>
    exact extends_log h out.inv (congrArg View.recs out.view)
  | combined oldId q found joins hkey hflags new suffix two out =>
    exact extends_log h out.inv (congrArg View.recs out.view)

theorem Relogs.extends {key : Key} {given : ℕ → ℕ} (relogs : Relogs s s' lay lay' key given)
    (h : StoreInv s lay) : s.log.Extends s'.log := by
  cases relogs with
  | missing absent out => exact extends_same h out.inv (by rw [out.view]; rfl)
  | refused out => exact extends_same h out.inv (congrArg View.recs out.view)
  | tombstone id r found marked hkey hflags new out =>
    exact extends_log h out.inv (congrArg View.recs out.view)
  | relinked id r found hkey hflags new suffix two out =>
    exact extends_log h out.inv (congrArg View.recs out.view)

end Records

/-! ## Steps -/

section Steps

variable {ι : Type} [Fintype ι] [DecidableEq ι] {srv srv' : Server ι} {lay : Layout}
  {leaked : Multiset ℕ} {a : Action ι}

theorem ServerInv.extends (h : ServerInv srv lay leaked) (ok : srv.StepOk a) (step : srv.Step a srv')
    (other : a ≠ .clean) : srv.store.log.Extends srv'.store.log := by
  have same {s' : Store} (log : s'.log = srv.store.log) : srv.store.log.Extends s'.log :=
    log ▸ .refl _
  cases step.performs with
  | reply idle run =>
    obtain ⟨lay', opens⟩ := h.inv.processUpdateCommand (UInt32.toNat_lt _) ok.fits run
    exact opens.extends h.inv
  | upload idle run =>
    obtain ⟨lay', opens⟩ := h.inv.processUpdateCommand (UInt32.toNat_lt _) ok.fits run
    exact opens.extends h.inv
  | @recv c bytes comm id ritem rlbytes start got nread fits =>
    have own := h.conn c
    rw [nread] at own
    obtain ⟨r, up⟩ := own
    obtain ⟨r', fills, -⟩ := up.recv h.inv fits
    exact .inl (by rw [Server.set_store, fills.inv.log.records_eq, h.inv.log.records_eq])
  | @complete c comm id ritem start got s' reply nread run =>
    have own := h.conn c
    rw [nread] at own
    obtain ⟨r, up⟩ := own
    have dirty : r.flags = dirtyFlags := up.fresh.flags
    obtain ⟨lay', ⟨ends, result, -, stores⟩ | ⟨ends, -, out⟩⟩ :=
      h.completes ok nread up.fresh up.alone run
    · exact stores.extends h.inv up.fresh.mem dirty
    · have size := Rec.size_flags (f := corruptedFlags) (by decide) dirty
      exact extends_put (q := { r with flags := corruptedFlags }) h.inv out.inv up.fresh.mem rfl size
        (by rw [Server.set_store, out.view])
  | get idle run =>
    obtain ⟨retrieves, -⟩ := h.inv.processGetKeys h.sound ok.quiet (by simp) run
    exact same retrieves.log
  | send mwrite => exact same rfl
  | release mwrite run => exact same (sameTable_removeAll (removeAll_of_release run)).log
  | @touch c key exptime s' reply idle run =>
    unfold Store.processTouchCommand at run
    split_ifs at run with long
    · cases pure_ran.1 run
      exact same rfl
    · obtain ⟨⟨s₁, it⟩, touch, run⟩ := bind_ran.1 run
      cases pure_ran.1 run
      obtain ⟨lay', relogs⟩ := h.inv.doItemTouch (not_lt.1 long) ok.fits touch
      exact relogs.extends h.inv
  | @arithmetic c key incr delta s' reply idle run =>
    unfold Store.processArithmeticCommand at run
    split_ifs at run with long
    · cases pure_ran.1 run
      exact same rfl
    · obtain ⟨⟨s₁, result⟩, delta, run⟩ := bind_ran.1 run
      cases pure_ran.1 run
      obtain ⟨lay', relogs | ⟨id, found, tiny, out⟩⟩ :=
        h.inv.doAddDelta (not_lt.1 long) (fun _ _ _ => ok.fits) delta
      · exact relogs.extends h.inv
      · exact extends_same h.inv out.inv (congrArg View.recs out.view)
  | deleteLong idle long => exact same rfl
  | deleteLookup idle short run => exact same (sameLog_doItemGet run).log
  | @deleteLog c key id s' succeed found run =>
    have own := h.conn c
    rw [found] at own
    have room := ok.fits (deleteRequest key) (by simp only [Server.request, found])
    obtain ⟨lay', -, -, ⟨failed, out⟩ | ⟨-, r, hkey, hflags, new, out⟩⟩ :=
      h.inv.deleteLog own.1 room run
    · exact extends_same h.inv out.inv (congrArg View.recs out.view)
    · exact extends_log h.inv out.inv (congrArg View.recs out.view)
  | deleteUnlink logged run =>
    obtain ⟨s₁, unlink, remove⟩ := bind_ran.1 run
    exact same ((sameLog_doItemUnlink unlink).trans (sameLog_doItemRemove remove)).log
  | @flushAll c exptime idle =>
    obtain ⟨oldestLive, oldestCas, casId, eq⟩ := flushAll_eq srv.store exptime
    rw [Server.set_store, eq]
    exact same rfl
  | closeIdle idle => exact same rfl
  | closeUpload nread run => exact same (sameTable_doItemRemove run).log
  | closeResponse mwrite run => exact same (sameTable_removeAll (removeAll_of_release run)).log
  | clean run => exact absurd rfl other
  | tick n => exact same rfl

theorem ServerInv.allots (h : ServerInv srv lay leaked) (ok : srv.StepOk a)
    (step : srv.Step a srv') :
    Yields srv.store srv'.store ∨ ∃ n id, srv.request a = some n ∧ a ≠ .clean ∧
      (∀ c, a ≠ .deleteLog c) ∧ Draws srv.store srv'.store lay n id ∧
      ((srv'.store.metas id).linked = true ∨
        ∃ c, (srv'.conns c).uploadOff srv'.store = some (srv'.store.itemOf id)) := by
  cases step.performs with
  | @reply c comm key flags exptime vlen cas s' r idle run =>
    rcases h.inv.draws_update (UInt32.toNat_lt _) ok.fits run with
      ⟨-, yields⟩ | ⟨n, id, eq, -, -⟩
    · exact .inl yields
    · cases eq
  | @upload c comm key flags exptime vlen cas s' id idle run =>
    rcases h.inv.draws_update (UInt32.toNat_lt _) ok.fits run with
      ⟨⟨r, eq⟩, -⟩ | ⟨n, id', eq, request, draws⟩
    · cases eq
    · obtain rfl := Update.upload.inj eq
      refine .inr ⟨n, id, request, by simp, by simp, draws, .inr ⟨c, ?_⟩⟩
      rw [Server.set_self]
      rfl
  | recv nread fits => exact .inl (.of_metas rfl)
  | @complete c comm id ritem start got s' reply nread run =>
    have own := h.conn c
    rw [nread] at own
    obtain ⟨r, up⟩ := own
    have request : srv.request (.complete c) = srv.store.joinRequest comm id := by
      simp only [Server.request, nread, Store.joinRequest]
    rw [request]
    rcases up.fresh.allots_complete h.inv (up.fresh.proper h.sound).short
      (h.joinOk ok nread up.fresh) ok.quiet run with yields | ⟨n, newId, eq, draws, linked⟩
    · exact .inl yields
    · exact .inr ⟨n, newId, eq, by simp, by simp, draws, .inl linked⟩
  | get idle run => exact .inl (yields_processGetKeys ok.quiet run)
  | send mwrite => exact .inl (.refl _)
  | release mwrite run => exact .inl (yields_removeAll (removeAll_of_release run))
  | @touch c key exptime s' reply idle run =>
    unfold Store.processTouchCommand at run
    split_ifs at run with long
    · cases pure_ran.1 run
      exact .inl (.refl _)
    · obtain ⟨⟨s₁, it⟩, touch, run⟩ := bind_ran.1 run
      cases pure_ran.1 run
      rcases h.inv.allots_touch (not_lt.1 long) ok.fits touch with
        yields | ⟨n, newId, eq, draws, linked⟩
      · exact .inl yields
      · exact .inr ⟨n, newId, eq, by simp, by simp, draws, .inl linked⟩
  | @arithmetic c key incr delta s' reply idle run =>
    unfold Store.processArithmeticCommand at run
    split_ifs at run with long
    · cases pure_ran.1 run
      exact .inl (.refl _)
    · obtain ⟨⟨s₁, result⟩, delta, run⟩ := bind_ran.1 run
      cases pure_ran.1 run
      rcases h.inv.allots_delta (not_lt.1 long) ok.fits delta with
        yields | ⟨n, newId, eq, draws, linked⟩
      · exact .inl yields
      · exact .inr ⟨n, newId, eq, by simp, by simp, draws, .inl linked⟩
  | deleteLong idle long => exact .inl (.refl _)
  | deleteLookup idle short run => exact .inl (sameLog_doItemGet run).yields
  | @deleteLog c key id s' succeed found run =>
    have own := h.conn c
    rw [found] at own
    have room := ok.fits (deleteRequest key) (by simp only [Server.request, found])
    exact .inl (yields_deleteLog h.inv own.1 room run)
  | deleteUnlink logged run =>
    obtain ⟨s₁, unlink, remove⟩ := bind_ran.1 run
    exact .inl ((sameLog_doItemUnlink unlink).yields.trans (sameLog_doItemRemove remove).yields)
  | @flushAll c exptime idle =>
    obtain ⟨oldestLive, oldestCas, casId, eq⟩ := flushAll_eq srv.store exptime
    rw [Server.set_store, eq]
    exact .inl (.of_metas rfl)
  | closeIdle idle => exact .inl (.refl _)
  | closeUpload nread run => exact .inl (sameLog_doItemRemove run).yields
  | closeResponse mwrite run => exact .inl (yields_removeAll (removeAll_of_release run))
  | clean run => exact .inl (yields_lruMaintainerFree run)
  | tick n => exact .inl (.of_metas rfl)

/-! ## A record for every metadata -/

/-- Every metadata in use has a record of its own, at least as long as itself. -/
structure Server.Housed (srv : Server ι) : Prop where
  home : ∀ id < freelistSize srv.store.log.memLimit, (srv.store.metas id).slabbed = false →
    ∃ b ∈ srv.store.log.records, b.off = srv.store.itemOf id ∧ sizeofItemMetadata ≤ b.size
  apart : ∀ id < freelistSize srv.store.log.memLimit, ∀ id' < freelistSize srv.store.log.memLimit,
    (srv.store.metas id).slabbed = false → (srv.store.metas id').slabbed = false →
    srv.store.itemOf id = srv.store.itemOf id' → id = id'

/-- Every record that a step makes for an item is at least as long as its metadata. -/
def Server.Heavy (srv : Server ι) (a : Action ι) : Prop :=
  (∀ c, a ≠ .deleteLog c) → ∀ n, srv.request a = some n → sizeofItemMetadata ≤ n

omit [Fintype ι] [DecidableEq ι] in
theorem Server.Housed.yields (housed : srv.Housed)
    (limit : srv'.store.log.memLimit = srv.store.log.memLimit)
    (yields : Yields srv.store srv'.store)
    (stays : ∀ id < freelistSize srv.store.log.memLimit, (srv'.store.metas id).slabbed = false →
      ∀ b ∈ srv.store.log.records, b.off = srv.store.itemOf id → b ∈ srv'.store.log.records) :
    srv'.Housed := by
  refine ⟨fun id pool used => ?_, fun id pool id' pool' used used' same => ?_⟩
  · rw [limit] at pool
    obtain ⟨before, item⟩ := yields id used
    obtain ⟨b, hb, off, size⟩ := housed.home id pool before
    exact ⟨b, stays id pool used b hb off, off.trans item.symm, size⟩
  · rw [limit] at pool pool'
    obtain ⟨before, item⟩ := yields id used
    obtain ⟨before', item'⟩ := yields id' used'
    exact housed.apart id pool id' pool' before before' (item.symm.trans (same.trans item'))

/-- The last record of a log ends at `mem_current`. -/
theorem LogInv.last_stop {l : Memlog} {bs : List Block} {b : Block} (h : LogInv l lay 0)
    (live : lay.live = bs ++ [b]) (positive : 0 < l.memCurrent) : b.stop = l.memCurrent := by
  have last {lo hi : ℕ} {cs : List Block} (tiles : Tiles lo (cs ++ [b]) hi) : b.stop = hi := by
    obtain ⟨mid, -, -, -, stop⟩ := tiles.split
    exact stop
  cases lay with
  | flat blocks =>
    have live : blocks = bs ++ [b] := live
    exact last (live ▸ FlatInv.tiles h)
  | ended new => exact absurd (EndedInv.swept h) (lt_irrefl 0)
  | wrapped tail old new =>
    have tiles : Tiles 0 new l.memCurrent := WrappedInv.newTiles h
    have live : old ++ new = bs ++ [b] := live
    rcases List.eq_nil_or_concat new with rfl | ⟨cs, c, rfl⟩
    · obtain current : 0 = l.memCurrent := tiles
      omega
    · rw [List.concat_eq_append, ← List.append_assoc] at live
      obtain ⟨-, eq⟩ := List.append_inj' live rfl
      rw [List.concat_eq_append, eq] at tiles
      exact last tiles

omit [Fintype ι] [DecidableEq ι] in
theorem Server.Housed.draws {lay' : Layout} {n newId : ℕ} (housed : srv.Housed)
    (inv : StoreInv srv.store lay) (inv' : StoreInv srv'.store lay')
    (limit : srv'.store.log.memLimit = srv.store.log.memLimit)
    (extends_ : srv.store.log.Extends srv'.store.log)
    (draws : Draws srv.store srv'.store lay n newId) (large : sizeofItemMetadata ≤ n)
    (there : ∃ b ∈ srv'.store.log.records, b.off = srv'.store.itemOf newId) : srv'.Housed := by
  obtain ⟨b, hb, here⟩ := there
  have new (c : Block) (hc : c ∈ srv.store.log.records) : c.off ≠ srv'.store.itemOf newId := by
    rw [inv.log.records_eq] at hc
    exact draws.fresh c hc
  -- the new record is the one that was added
  have size : b.size = n := by
    rcases extends_ with eq | ⟨c, eq⟩
    · exact absurd here (new b (eq ▸ hb))
    · have added : b = c := by
        rw [eq, List.mem_append, List.mem_singleton] at hb
        rcases hb with old | rfl
        · exact absurd here (new b old)
        · rfl
      have positive : 0 < n := lt_of_lt_of_le (by decide) large
      have ends := draws.ends
      have live : lay'.live = srv.store.log.records ++ [b] := by
        rw [← inv'.log.records_eq, eq, added]
      have stop := inv'.log.last_stop live (by omega)
      rw [Block.stop] at stop
      omega
  have old (id : ℕ) (other : id ≠ newId) (pool : id < freelistSize srv.store.log.memLimit)
      (used : (srv'.store.metas id).slabbed = false) : ∃ c ∈ srv.store.log.records,
        c.off = srv'.store.itemOf id ∧ sizeofItemMetadata ≤ c.size := by
    obtain ⟨before, item⟩ := draws.others id other used
    obtain ⟨c, hc, off, size⟩ := housed.home id pool before
    exact ⟨c, hc, off.trans item.symm, size⟩
  refine ⟨fun id pool used => ?_, fun id pool id' pool' used used' same => ?_⟩
  · rw [limit] at pool
    by_cases other : id = newId
    · exact ⟨b, hb, other ▸ here, size ▸ large⟩
    · obtain ⟨c, hc, off, size⟩ := old id other pool used
      exact ⟨c, extends_.mem hc, off, size⟩
  · rw [limit] at pool pool'
    by_cases first : id = newId <;> by_cases second : id' = newId
    · rw [first, second]
    · obtain ⟨c, hc, off, -⟩ := old id' second pool' used'
      exact absurd (off.trans (same.symm.trans (by rw [first]))) (new c hc)
    · obtain ⟨c, hc, off, -⟩ := old id first pool used
      exact absurd (off.trans (same.trans (by rw [second]))) (new c hc)
    · obtain ⟨before, item⟩ := draws.others id first used
      obtain ⟨before', item'⟩ := draws.others id' second used'
      exact housed.apart id pool id' pool' before before' (item.symm.trans (same.trans item'))

omit [DecidableEq ι] in
theorem ServerInv.housed_clean {s' : Store} (h : ServerInv srv lay 0) (ok : srv.StepOk .clean)
    (spares : srv.Spares .clean) (housed : srv.Housed) (run : srv.store.lruMaintainerFree = .ok s') :
    Server.Housed { srv with store := s' } := by
  have yields := yields_lruMaintainerFree run
  obtain ⟨guard, n, clean⟩ | rfl := lruMaintainerFree_ran run
  · obtain ⟨lay', k, out, near, items⟩ := h.inv.clean guard clean
    have inv' : StoreInv s' lay' := out.inv
    have records : s'.log.records = ((srv.store.journal lay).drop k).map Rec.block := by
      rw [inv'.records_view, out.view]
      rfl
    have counted := h.counted
    rw [← zero_add (srv.refs + 0)] at counted
    obtain ⟨after, -⟩ := out.moves ok.roomy _ counted
    rw [zero_add, add_zero] at after
    refine @Server.Housed.yields ι srv ⟨s', srv.conns⟩ housed out.setup.limit yields
      fun id pool used b hb off => ?_
    have live : b ∈ lay.live := h.inv.log.records_eq ▸ hb
    have positive := after.active id (by rw [out.setup.limit]; exact pool) used
    rw [after.count id used] at positive
    by_cases held : id ∈ srv.refs
    · -- a record that is held is not passed
      obtain ⟨c, -, held⟩ := Multiset.mem_sum.1 held
      rw [h.inv.records_view] at hb
      obtain ⟨r, mem, rfl⟩ := List.mem_map.1 hb
      change r ∈ srv.store.journal lay at mem
      rw [← List.take_append_drop k (srv.store.journal lay), List.mem_append] at mem
      rcases mem with gone | stays
      · obtain ⟨low, high⟩ := near r gone
        have off : r.off = srv.store.itemOf id := off
        exact absurd ⟨rfl, guard, off ▸ low, off ▸ high⟩ (spares c id held)
      · rw [records]
        exact List.mem_map.2 ⟨r, stays, rfl⟩
    · -- otherwise it is linked, and its record is there
      have linked : (s'.metas id).linked = true := by
        rw [Multiset.count_eq_zero.2 held, add_zero] at positive
        cases linked : (s'.metas id).linked with
        | true => rfl
        | false =>
          rw [linked] at positive
          exact absurd positive (lt_irrefl 0)
      obtain ⟨b', hb', off'⟩ := inv'.live id ((inv'.linked id).2 linked)
      have mem : b' ∈ s'.log.records := inv'.log.records_eq ▸ hb'
      have old : b' ∈ lay.live := by
        rw [records] at mem
        obtain ⟨r, hr, rfl⟩ := List.mem_map.1 mem
        rw [← h.inv.log.records_eq, h.inv.records_view]
        exact List.mem_map.2 ⟨r, List.mem_of_mem_drop hr, rfl⟩
      have same : b' = b := by
        by_contra other
        have apart := h.inv.log.disjoint old live other
        have size := (h.inv.log.sized live).header
        have size' := (h.inv.log.sized old).header
        have items := items id
        simp only [Block.Disjoint, Block.stop] at apart
        omega
      exact same ▸ mem
  · exact housed

theorem ServerInv.housed_step (h : ServerInv srv lay 0) (ok : srv.StepOk a)
    (spares : srv.Spares a) (heavy : srv.Heavy a) (step : srv.Step a srv') (housed : srv.Housed) :
    srv'.Housed := by
  obtain ⟨lay', leak, advances⟩ := h.step ok step
  have inv := advances.inv
  by_cases cleaning : a = .clean
  · subst cleaning
    cases step.performs with
    | clean run => exact h.housed_clean ok spares housed run
  · have extends_ := h.extends ok step cleaning
    rcases h.allots ok step with yields | ⟨n, id, request, -, other, draws, place⟩
    · exact housed.yields advances.limit yields fun _ _ _ b hb _ => extends_.mem hb
    · refine housed.draws h.inv inv.inv advances.limit extends_ draws (heavy other n request) ?_
      rcases place with linked | ⟨c, upload⟩
      · obtain ⟨b, hb, off⟩ := inv.inv.live id ((inv.inv.linked id).2 linked)
        exact ⟨b, inv.inv.log.records_eq ▸ hb, off⟩
      · obtain ⟨q, hq, off, -⟩ := (inv.conn c).upload upload
        obtain ⟨b, hb, rfl⟩ := SweepInv.mem_journal.1 hq
        exact ⟨b, inv.inv.log.records_eq ▸ hb, off⟩

omit [Fintype ι] [DecidableEq ι] in
theorem Server.Housed.left (housed : srv.Housed) (h : StoreInv srv.store lay) : srv.store.Left := by
  intro n large room served
  obtain ⟨o, alloc⟩ := Option.isSome_iff_exists.1 served
  have pair : memlogAllocRetry 3 srv.store.log n = ((memlogAllocRetry 3 srv.store.log n).1, some o) :=
    Prod.ext rfl alloc
  have size := room.size
  have metadata : sizeofItemMetadata = 48 := rfl
  obtain ⟨lay', (cut : Reserved _ lay lay' o n), -, limit⟩ :=
    memlogAllocRetry_eq h.log room.wrap h.limit (by omega) (by omega) pair
  intro empty
  -- with an empty pool every metadata is in use
  have used (id : ℕ) : (srv.store.metas id).slabbed = false := by
    cases slabbed : (srv.store.metas id).slabbed with
    | false => rfl
    | true =>
      have free := (h.free id).2 slabbed
      rw [empty] at free
      cases free
  have home (i : Fin (freelistSize srv.store.log.memLimit)) := housed.home i i.2 (used i)
  choose place there off long using home
  have live (i : Fin (freelistSize srv.store.log.memLimit)) : place i ∈ lay.live :=
    h.log.records_eq ▸ there i
  let block : Option (Fin (freelistSize srv.store.log.memLimit)) → Block := fun i =>
    i.elim ⟨o, n⟩ place
  have count : (Finset.univ : Finset (Option (Fin (freelistSize srv.store.log.memLimit)))).card *
      sizeofItemMetadata ≤ srv.store.log.memLimit := by
    refine card_mul_le (f := block) (fun i _ => ?_) (fun i _ => ?_) fun i _ j _ different => ?_
    · cases i with
      | none => exact large
      | some i => exact long i
    · cases i with
      | none => exact cut.inside.trans limit.le
      | some i =>
        have stop := h.log.stop_le (live i)
        exact (Nat.le_add_right _ _).trans stop
    · cases i with
      | none =>
        cases j with
        | none => exact absurd rfl different
        | some j => exact (cut.apart _ (live j)).symm
      | some i =>
        cases j with
        | none => exact cut.apart _ (live i)
        | some j =>
          refine h.log.disjoint (live i) (live j) fun same => different (congrArg some (Fin.ext ?_))
          refine housed.apart i i.2 j j.2 (used i) (used j) ?_
          have same : place i = place j := same
          rw [← off i, ← off j, same]
  rw [Finset.card_univ, Fintype.card_option, Fintype.card_fin, freelistSize, metadata] at count
  omega

theorem ServerInv.supplied (h : ServerInv srv lay leaked) (left : srv.store.Left)
    (ok : srv.StepOk a) (heavy : srv.Heavy a) : srv.step a ≠ .error .outOfMetadata := by
  have provided : srv.Provided a := fun other n request =>
    left n (heavy other n request) (ok.fits n request)
  obtain ⟨r, ran⟩ := h.step_ok ok provided
  intro failed
  rw [ran] at failed
  cases failed

end Steps

/-! ## Runs -/

section Runs

variable {ι : Type} [Fintype ι] [DecidableEq ι] {srv : Server ι} {as : List (Action ι)}
  {settings : Settings} {limit now : ℕ}

theorem housed_of_run (cas : settings.useCas = true) (large : 35 ≤ limit) (small : limit < 2 ^ 32)
    (run : Run (Server.Good fun srv a => srv.NoLeak a ∧ srv.Spares a ∧ srv.Heavy a)
      (.init settings limit now) as srv) :
    (∃ lay, ServerInv srv lay 0) ∧ srv.Housed := by
  refine run.invariant (fun srv => (∃ lay, ServerInv srv lay 0) ∧ srv.Housed) ?_
    ⟨⟨_, .init cas large small⟩, ?_⟩
  · rintro srv a srv' ⟨⟨lay, h⟩, housed⟩ ⟨ok, ⟨noLeak, spares, heavy⟩, step⟩
    refine ⟨?_, h.housed_step ok spares heavy step housed⟩
    obtain ⟨lay', leak, advances⟩ := h.step ok step
    have inv := advances.inv
    rw [advances.noLeak noLeak, add_zero] at inv
    exact ⟨lay', inv⟩
  · have unused (id : ℕ) (pool : id < freelistSize limit) (used : decide (id < freelistSize limit) = false) :
        False := by
      rw [decide_eq_false_iff_not] at used
      exact used pool
    exact ⟨fun id pool used => (unused id pool used).elim,
      fun id pool _ _ used => (unused id pool used).elim⟩

/-- Along runs that lose no reference, whose cleaner spares what is held and whose items have
records at least as long as their metadata, a request the log serves finds metadata, and the
assertion on the pool never fails. -/
theorem metadata_outlasts_log (cas : settings.useCas = true) (large : 35 ≤ limit)
    (small : limit < 2 ^ 32)
    (run : Run (Server.Good fun srv a => srv.NoLeak a ∧ srv.Spares a ∧ srv.Heavy a)
      (.init settings limit now) as srv) :
    (∀ n l o, sizeofItemMetadata ≤ n → RoomFor srv.store n →
        memoryAllocate srv.store.log n = (l, some o) → srv.store.freelist ≠ []) ∧
      ∀ a, srv.StepOk a → srv.Heavy a → srv.step a ≠ .error .outOfMetadata := by
  obtain ⟨⟨lay, h⟩, housed⟩ := housed_of_run cas large small run
  have left := housed.left h.inv
  refine ⟨fun n l o long room served => left n long room ?_, fun a ok heavy =>
    h.supplied left ok heavy⟩
  rw [memlogAllocRetry, served]
  rfl

end Runs

/-- A step of a storage command whose record is long enough, in a form that can be evaluated. -/
def Server.storesHeavily (srv : Server Unit) (a : Action Unit) : Bool :=
  srv.storesPlainly a && (srv.request a).all fun n => decide (sizeofItemMetadata ≤ n)

theorem metadata_outlasts_log_set :
    ∃ srv, Run (Server.Good fun srv a => srv.NoLeak a ∧ srv.Spares a ∧ srv.Heavy a)
        (.init started memlogDefaultSize 62)
        (storing () .set [97] 0 [97, 98, 99, 100, 101, 102, 103, 104, 105, 106, 107, 108, 109, 110]) srv ∧
      (∀ n l o, sizeofItemMetadata ≤ n → RoomFor srv.store n →
        memoryAllocate srv.store.log n = (l, some o) → srv.store.freelist ≠ []) ∧
      ∀ a, srv.StepOk a → srv.Heavy a → srv.step a ≠ .error .outOfMetadata := by
  have eval : ((storing () .set [97] 0
      [97, 98, 99, 100, 101, 102, 103, 104, 105, 106, 107, 108, 109, 110]).foldlM
      (fun (srv : Server Unit) a => if srv.storesHeavily a then srv.next a else none)
      (.init started memlogDefaultSize 62)).isSome = true := by
    decide +kernel
  obtain ⟨srv, run⟩ := Option.isSome_iff_exists.1 eval
  have good : Run (Server.Good fun srv a => srv.NoLeak a ∧ srv.Spares a ∧ srv.Heavy a)
      (.init started memlogDefaultSize 62) _ srv := (Run.of_foldlM run).mono fun s a t next => by
    rw [Option.ite_none_right_eq_some, Server.storesHeavily, Bool.and_eq_true,
      Option.all_eq_true] at next
    obtain ⟨⟨plain, heavy⟩, next⟩ := next
    obtain ⟨ok, ⟨noLeak, -, spares⟩, step⟩ := Server.good_of_plain plain next
    exact ⟨ok, ⟨noLeak, spares, fun _ n request => of_decide_eq_true (heavy n request)⟩, step⟩
  exact ⟨srv, good, metadata_outlasts_log rfl (by decide) (by decide) good⟩

/-! ## Small records -/

section Small

def seriesLetter (d : ℕ) : UInt8 := UInt8.ofNat (33 + d % 94)

/-- The `i`-th key of four printable characters. -/
def seriesKey (i : ℕ) : Key :=
  [seriesLetter i, seriesLetter (i / 94), seriesLetter (i / 94 / 94), seriesLetter (i / 94 / 94 / 94)]

theorem seriesLetter_inj {d e : ℕ} (same : seriesLetter d = seriesLetter e) : d % 94 = e % 94 := by
  have eq := congrArg UInt8.toNat same
  rw [seriesLetter, seriesLetter, UInt8.toNat_ofNat', UInt8.toNat_ofNat'] at eq
  omega

theorem seriesKey_inj {i j : ℕ} (hi : i < 94 ^ 4) (hj : j < 94 ^ 4) (same : seriesKey i = seriesKey j) :
    i = j := by
  simp only [seriesKey, List.cons.injEq, and_true] at same
  obtain ⟨h₀, h₁, h₂, h₃⟩ := same
  have d₀ := seriesLetter_inj h₀
  have d₁ := seriesLetter_inj h₁
  have d₂ := seriesLetter_inj h₂
  have d₃ := seriesLetter_inj h₃
  omega

theorem seriesKey_total (i : ℕ) : allocTotal started.useCas (seriesKey i).length 0 2 = 37 := by
  change allocTotal started.useCas 4 0 2 = 37
  decide +kernel

/-- One connection sets `n` empty values under different keys. -/
def smallSets (n : ℕ) : List (Action Unit) :=
  (List.range n).flatMap fun i => storing () .set (seriesKey i) 0 []

structure Crammed (srv : Server Unit) (n : ℕ) : Prop where
  inv : ∃ lay, ServerInv srv lay 0
  idle : srv.conns () = .idle
  settings : srv.store.settings = started
  limit : srv.store.log.memLimit = memlogDefaultSize
  current : srv.store.log.memCurrent = 37 * n
  avail : srv.store.log.memAvail + 37 * n = memlogDefaultSize
  absent : ∀ i, n ≤ i → i < 94 ^ 4 → srv.store.lookup (seriesKey i) = none
  pool : srv.store.freelist.length + n = freelistSize memlogDefaultSize

variable {srv : Server Unit} {n id : ℕ} {rest : List ℕ} {s s' : Store}

theorem crammed_init : Crammed (.init started memlogDefaultSize 62) 0 where
  inv := ⟨_, .init rfl (by decide) (by decide)⟩
  idle := rfl
  settings := rfl
  limit := rfl
  current := rfl
  avail := Nat.add_zero _
  absent _ _ _ := rfl
  pool := (Nat.add_zero _).trans (length_down _)

theorem Crammed.served (h : Crammed srv n) (few : n ≤ 22369621) :
    memoryAllocate srv.store.log 37 = ({ srv.store.log with
      memCurrent := 37 * (n + 1), memAvail := srv.store.log.memAvail - 37 }, some (37 * n)) := by
  obtain ⟨-, -, -, limit, current, avail, -, -⟩ := h
  have size : memlogDefaultSize = 1073741824 := rfl
  have far : srv.store.log.nearEnd 37 = false := by
    simp only [Memlog.nearEnd, current, limit, decide_eq_false_iff_not, not_lt]
    exact (Nat.mod_le _ _).trans (by omega)
  rw [memoryAllocate, Memlog.turn, far, if_neg Bool.false_ne_true, if_neg (by omega), current]
  rfl

theorem Crammed.room (h : Crammed srv n) (few : n ≤ 22369621) : RoomFor srv.store 37 := by
  obtain ⟨-, -, -, limit, current, -, -, -⟩ := h
  have size : memlogDefaultSize = 1073741824 := rfl
  refine ⟨by omega, fun near => ?_⟩
  have : (srv.store.log.memCurrent + 37) % 2 ^ 64 > srv.store.log.memLimit - 35 := of_decide_eq_true near
  have le := Nat.mod_le (srv.store.log.memCurrent + 37) (2 ^ 64)
  omega

theorem Crammed.abort (h : Crammed srv n) (few : n ≤ 22369621) (empty : srv.store.freelist = []) :
    srv.step (.update () .set (seriesKey n) 0 0 0 0) = .error .outOfMetadata := by
  have alloc (exptime : ℕ) : srv.store.doItemAlloc (seriesKey n) 0 exptime 2 =
      .error .outOfMetadata := by
    rw [Store.doItemAlloc, h.settings, seriesKey_total, memlogAllocRetry, h.served few]
    dsimp only
    rw [if_neg (by decide), Store.freelistAlloc]
    dsimp only
    rw [empty]
  have header : srv.store.processUpdateCommand .set (seriesKey n) 0 0 0 0 = .error .outOfMetadata := by
    rw [Store.processUpdateCommand, if_neg (by simp [seriesKey, keyMaxLength]), if_neg (by decide)]
    exact congrArg (· >>= _) (alloc _)
  rw [Server.step, h.idle]
  exact congrArg (· >>= _) header

/-- The header line of the next `set` takes one metadata. -/
theorem Crammed.opens (h : Crammed srv n) (few : n ≤ 22369621) (free : srv.store.freelist = id :: rest) :
    ∃ s', srv.store.processUpdateCommand .set (seriesKey n) 0 0 0 0 = .ok (s', .upload id) ∧
      s'.freelist = rest ∧ s'.log.memCurrent = 37 * (n + 1) ∧
      s'.log.memAvail + 37 * (n + 1) = memlogDefaultSize := by
  have alloc (exptime : ℕ) : ∃ s₁, srv.store.doItemAlloc (seriesKey n) 0 exptime 2 =
      .ok (s₁, some id, true) ∧ s₁.freelist = rest ∧ s₁.log.memCurrent = 37 * (n + 1) ∧
        s₁.log.memAvail = srv.store.log.memAvail - 37 := by
    rw [Store.doItemAlloc, h.settings, seriesKey_total, memlogAllocRetry, h.served few]
    dsimp only
    rw [if_neg (by decide), Store.freelistAlloc]
    dsimp only
    rw [free]
    exact ⟨_, rfl, rfl, rfl, rfl⟩
  obtain ⟨s₁, alloc, list, current, avail⟩ := alloc (srv.store.updateExptime 0)
  refine ⟨s₁.setMem (itemSetCas s₁.log.mem (s₁.itemOf id) 0), ?_, list, current, ?_⟩
  · rw [Store.processUpdateCommand, if_neg (by simp [seriesKey, keyMaxLength]), if_neg (by decide)]
    exact congrArg (· >>= _) alloc
  · change s₁.log.memAvail + _ = _
    have before := h.avail
    have size : memlogDefaultSize = 1073741824 := rfl
    omega

/-- The completion of a `set` under a key that is not in the table. -/
theorem complete_absent (absent : s.assocFind (s.keyAt id) = none) (ends : s.dataBlockEnds id = true)
    (unlinked : (s.metas id).linked = false) (used : (s.metas id).slabbed = false)
    (alone : (s.metas id).refcount = 1) :
    s.completeNreadAscii .set id =
      .ok (((s.linkedIn id).markItemStored id).refcountDecr id, .stored) := by
  set t := (s.linkedIn id).markItemStored id
  have get : s.doItemGet (s.keyAt id) = .ok (s, none) := by
    rw [Store.doItemGet, absent]
    rfl
  have store : s.doStoreItem .set id = .ok (t, .stored) := by
    rw [Store.doStoreItem, get, ok_bind]
    dsimp only
    rw [storeBranch_accepts rfl, Store.storeLink, doItemLink_ok unlinked used]
    rfl
  have joined : t.metas id = { s.metas id with
      linked := true
      time := s.currentTime
      refcount := ((s.metas id).refcount + 1) % 2 ^ 16 } := Function.update_self ..
  have count : (t.metas id).refcount = 2 := by simp [joined, alone]
  have slabbed : (t.metas id).slabbed = false := by rw [joined, used]
  have released : (t.refcountDecr id).metas id = { t.metas id with
      refcount := ((t.metas id).refcount + (2 ^ 16 - 1)) % 2 ^ 16 } := Function.update_self ..
  have decr : ((t.refcountDecr id).metas id).refcount = 1 := by simp [released, count]
  have remove : t.doItemRemove id = .ok (t.refcountDecr id) := by
    simp only [Store.doItemRemove, check_bind_ran, slabbed, count, decr]
    exact ⟨rfl, rfl, rfl⟩
  rw [Store.completeNreadAscii, Store.storeBlock, if_pos ends, store]
  change (t.doItemRemove id >>= fun s => pure (s, Reply.stored)) = _
  rw [remove]
  rfl

theorem ServerInv.stepOk_alone {lay : Layout} {a : Action Unit} (h : ServerInv srv lay 0)
    (quiet : srv.store.settings.lruLogEnabled = false)
    (fits : ∀ n, srv.request a = some n → RoomFor srv.store n) (once : a.lookups = 1)
    (other : a ≠ .clean) (one : (srv.conns ()).refs.card ≤ 1) : srv.StepOk a := by
  refine ⟨quiet, fits, fun k member => ?_, fun _ _ _ passes => other passes.1⟩
  have linked := (h.inv.linked k).1 member
  have count := h.counted.count k (h.inv.slabbed_of_linked linked)
  have refs : srv.refs + 0 = (srv.conns ()).refs := by simp [Server.refs]
  have few := ((srv.conns ()).refs.count_le_card k).trans one
  rw [linked, refs, Bool.toNat_true] at count
  omega

/-- One more `set`, unless the pool is empty. -/
theorem Crammed.set (h : Crammed srv n) (few : n ≤ 22369621) (left : srv.store.freelist ≠ []) :
    ∃ srv', Run Server.Step srv (storing () .set (seriesKey n) 0 []) srv' ∧ Crammed srv' (n + 1) := by
  obtain ⟨id, rest, free⟩ := List.exists_cons_of_ne_nil left
  obtain ⟨s₁, header, list, current, avail⟩ := h.opens few free
  obtain ⟨lay, inv⟩ := h.inv
  have quiet : srv.store.settings.lruLogEnabled = false := by rw [h.settings]; rfl
  have request : updateRequest (seriesKey n) 0 0 = some 37 := by
    rw [updateRequest, if_neg (by simp [seriesKey, keyMaxLength])]
    exact congrArg some (seriesKey_total n)
  have fits (m : ℕ) (eq : updateRequest (seriesKey n) 0 0 = some m) : RoomFor srv.store m := by
    rw [request] at eq
    exact Option.some.inj eq ▸ h.room few
  -- the header line
  have ok₁ : srv.StepOk (.update () .set (seriesKey n) 0 0 0 0) :=
    inv.stepOk_alone quiet fits rfl (by simp) (by rw [h.idle]; exact Nat.zero_le _)
  have step₁ : srv.Step (.update () .set (seriesKey n) 0 0 0 0)
      (srv.set () s₁ (.opened s₁ .set 0 id)) := by
    rw [Server.Step, Server.step, h.idle]
    exact congrArg (· >>= _) header
  obtain ⟨lay₁, opens⟩ := inv.inv.processUpdateCommand (by norm_num) fits header
  have inv₁ := (inv.opens_upload (a := .tick 0) ok₁.roomy (by norm_num) h.idle opens).inv
  cases opens with
  | upload _ r plain fresh alone new hkey short value suffix length out =>
    -- the line end of the empty data block
    set srv₁ := srv.set () s₁ (.opened s₁ .set 0 id)
    have nread₁ : srv₁.conns () = .nread .set id (itemData s₁.log.mem (s₁.itemOf id)) 2 (s₁.recAt id) [] :=
      Server.set_self
    have own := inv₁.conn ()
    rw [nread₁] at own
    obtain ⟨r₁, up₁⟩ := own
    set s₂ := s₁.setMem (write s₁.log.mem (itemData s₁.log.mem (s₁.itemOf id)) [13, 10])
    set srv₂ := srv₁.set () s₂ (.nread .set id (itemData s₁.log.mem (s₁.itemOf id) + 2) 0 (s₁.recAt id)
      [13, 10])
    have step₂ : srv₁.Step (.recv () [13, 10]) srv₂ := by
      rw [Server.Step, Server.step, nread₁]
      rfl
    have inv₂ : ServerInv srv₂ lay₁ 0 := (inv₁.recv (a := .tick 0) nread₁ le_rfl).inv
    obtain ⟨r₂, fills, up₂⟩ := up₁.recv inv₁.inv (le_rfl : ([13, 10] : List UInt8).length ≤ 2)
    have up₂ : Upload s₂ lay₁ id (itemData s₁.log.mem (s₁.itemOf id) + 2) 0 (s₁.recAt id) [13, 10] r₂ :=
      up₂
    have mine : s₁.recAt id = r := recAt_eq fresh.mem fresh.off
    have key₂ : r₂.key = seriesKey n := by rw [up₂.same, mine, hkey]
    have data : r₂.data = [13, 10] := by
      have left : 2 + 0 = r₂.data.length := up₂.left
      rw [up₂.data, List.length_append] at left
      have none : (s₁.recAt id).data.drop 2 = [] := List.length_eq_zero_iff.1 (Nat.add_left_cancel left).symm
      exact up₂.data.trans (congrArg ([13, 10] ++ ·) none)
    have lookup : s₂.lookup = srv.store.lookup :=
      (congrArg View.table fills.view).trans (congrArg View.table out.view)
    have absent : s₂.assocFind (s₂.keyAt id) = none := by
      have none := h.absent n le_rfl (few.trans_lt (by norm_num))
      rw [← lookup, Store.lookup, Option.map_eq_none_iff] at none
      rw [up₂.fresh.keyAt, key₂, none]
    have ends : s₂.dataBlockEnds id = true := by
      have whole : dataOf s₂.log.mem (s₂.itemOf id) = [13, 10] := by
        rw [← data, ← recAt_eq up₂.fresh.mem up₂.fresh.off]
        rfl
      have two : 2 ≤ nbytesOf s₂.log.mem (s₂.itemOf id) := by
        rw [nbytesOf_recAt, recAt_eq up₂.fresh.mem up₂.fresh.off, data]
        exact le_rfl
      rw [dataBlockEnds_eq two, whole]
      decide
    -- the completion
    have run := complete_absent absent ends up₂.fresh.unlinked up₂.fresh.used up₂.alone
    set s₃ := ((s₂.linkedIn id).markItemStored id).refcountDecr id
    have nread₂ : srv₂.conns () = .nread .set id (itemData s₁.log.mem (s₁.itemOf id) + 2) 0
      (s₁.recAt id) [13, 10] := Server.set_self
    have step₃ : srv₂.Step (.complete ()) (srv₂.set () s₃ .idle) := by
      rw [Server.Step, Server.step, nread₂]
      exact congrArg (· >>= _) run
    have settings₂ : srv₂.store.settings = started := out.setup.settings.trans h.settings
    have ok₃ : srv₂.StepOk (.complete ()) := by
      refine inv₂.stepOk_alone (by rw [settings₂]; rfl) (fun m eq => ?_) rfl (by simp) ?_
      · simp only [Server.request, nread₂] at eq
        simp at eq
      · rw [nread₂]
        exact le_rfl
    obtain ⟨lay₃, leak, advances⟩ := inv₂.step ok₃ step₃
    have inv₃ := advances.inv
    rw [advances.noLeak trivial] at inv₃
    refine ⟨_, .cons step₁ (.cons step₂ (.one step₃)), ⟨lay₃, inv₃⟩, Server.set_self,
      advances.settings.trans settings₂, advances.limit.trans (out.setup.limit.trans h.limit), current,
      avail, fun i le small => ?_, ?_⟩
    · obtain ⟨lay₄, ⟨-, result, -, stores⟩ | ⟨failed, -, -⟩⟩ :=
        inv₂.completes ok₃ nread₂ up₂.fresh up₂.alone run
      · cases stores with
        | stored accepts out₃ =>
          have table : s₃.lookup = Function.update s₂.lookup r₂.key (some r₂.off) :=
            congrArg View.table out₃.view
          have differ : seriesKey i ≠ r₂.key := fun same => by
            have := seriesKey_inj small (few.trans_lt (by norm_num)) (same.trans key₂)
            omega
          change s₃.lookup (seriesKey i) = none
          rw [table, Function.update_of_ne differ, lookup]
          exact h.absent i (by omega) small
        | refused result rejects failed out₃ =>
          cases found : srv₂.store.find r₂.key <;> rw [found] at rejects <;> cases rejects
        | tombstone oldId q found joins => simp at joins
        | combined oldId q found joins => simp at joins
      · rw [show srv₂.store = s₂ from rfl, ends] at failed
        cases failed
    · change s₁.freelist.length + (n + 1) = _
      have pool := h.pool
      rw [free, List.length_cons] at pool
      rw [list]
      omega

theorem crammed_series (few : n ≤ 22369621) :
    ∃ srv, Run Server.Step (.init started memlogDefaultSize 62) (smallSets n) srv ∧ Crammed srv n := by
  induction n with
  | zero => exact ⟨_, .nil _, crammed_init⟩
  | succ n ih =>
    obtain ⟨srv, run, crammed⟩ := ih (by omega)
    have left : srv.store.freelist ≠ [] := fun empty => by
      have pool := crammed.pool
      have size : freelistSize memlogDefaultSize = 22369621 := by decide
      rw [empty, size, List.length_nil] at pool
      omega
    obtain ⟨srv', more, crammed'⟩ := crammed.set (by omega) left
    refine ⟨srv', ?_, crammed'⟩
    rw [smallSets, List.range_succ, List.flatMap_append]
    exact run.append (by simpa using more)

/-- After 22369621 empty values under different keys the pool is empty, the log has room for 246
million bytes more, and the next header line fails the assertion. -/
theorem metadata_runs_out_first :
    ∃ srv, Run Server.Step (.init started memlogDefaultSize 62) (smallSets 22369621) srv ∧
      (∃ l, memoryAllocate srv.store.log 37 = (l, some 827675977)) ∧ srv.store.freelist = [] ∧
      srv.step (.update () .set (seriesKey 22369621) 0 0 0 0) = .error .outOfMetadata := by
  obtain ⟨srv, run, crammed⟩ := crammed_series le_rfl
  have empty : srv.store.freelist = [] := by
    have pool := crammed.pool
    have size : freelistSize memlogDefaultSize = 22369621 := by decide
    rw [size] at pool
    exact List.length_eq_zero_iff.1 (by omega)
  exact ⟨srv, run, ⟨_, crammed.served le_rfl⟩, empty, crammed.abort le_rfl empty⟩

end Small

end LogMemcached

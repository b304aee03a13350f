import LogMemcached.Scan
import LogMemcached.ServerSteps

/-!
# Runs of the server

What holds after any sequence of steps of any number of connections: exact reference counts, no
abandoned record, and held records that nobody changes.  Each needs its own condition on the steps,
and each fails on a short run that violates it.
-/

namespace LogMemcached

open ByteMem Tiling Fallible Store Transition

section

variable {ι : Type} [Fintype ι] [DecidableEq ι] {srv : Server ι} {settings : Settings}
  {limit now : ℕ} {as : List (Action ι)}

omit [DecidableEq ι] in
theorem ServerInv.init (cas : settings.useCas = true) (large : 35 ≤ limit) (small : limit < 2 ^ 32) :
    ServerInv (Server.init settings limit now : Server ι) (.flat []) 0 := by
  refine ⟨Store.init_inv large small cas, ?_, ?_, fun _ => trivial, fun c c' o eq => by cases eq⟩
  · have none : (Server.init settings limit now : Server ι).refs = 0 := by
      simp [Server.refs, Server.init, Conn.refs]
    rw [none]
    exact .init settings limit now
  · exact View.Sound.init

/-- The steps that meet the conditions of the invariant and a further one. -/
def Server.Good (extra : Server ι → Action ι → Prop) (srv : Server ι) (a : Action ι)
    (srv' : Server ι) : Prop :=
  srv.StepOk a ∧ extra srv a ∧ srv.Step a srv'

/-! ## References -/

/-- Every item carries one reference for being linked and one for each connection that holds it,
and it is on the freelist exactly when it carries none. -/
def Server.Balanced (srv : Server ι) : Prop :=
  ∀ id < freelistSize srv.store.log.memLimit,
    (srv.store.metas id).refcount = (srv.store.metas id).linked.toNat + srv.refs.count id ∧
      (id ∈ srv.store.freelist ↔ (srv.store.metas id).linked.toNat + srv.refs.count id = 0)

omit [DecidableEq ι] in
theorem ServerInv.balanced {lay : Layout} (h : ServerInv srv lay 0) : srv.Balanced := by
  have counted := h.counted
  rw [add_zero] at counted
  intro id pool
  cases slabbed : (srv.store.metas id).slabbed with
  | true =>
    have free := (h.inv.free id).2 slabbed
    obtain ⟨zero, absent⟩ := counted.free id slabbed
    have total : (srv.store.metas id).linked.toNat + srv.refs.count id = 0 := by
      rw [h.inv.unlinked id free, Multiset.count_eq_zero.2 absent]
      rfl
    exact ⟨zero.trans total.symm, fun _ => total, fun _ => free⟩
  | false =>
    have count := counted.count id slabbed
    have active := counted.active id pool slabbed
    refine ⟨count, fun free => ?_, fun none => ?_⟩
    · rw [(h.inv.free id).1 free] at slabbed
      cases slabbed
    · omega

theorem serverInv_of_run (cas : settings.useCas = true) (large : 35 ≤ limit)
    (small : limit < 2 ^ 32)
    (run : Run (Server.Good Server.NoLeak) (.init settings limit now : Server ι) as srv) :
    ∃ lay, ServerInv srv lay 0 := by
  refine run.invariant (fun srv => ∃ lay, ServerInv srv lay 0) ?_ ⟨_, .init cas large small⟩
  rintro srv a srv' ⟨lay, h⟩ ⟨ok, noLeak, step⟩
  obtain ⟨lay', leak, advances⟩ := h.step ok step
  have inv := advances.inv
  rw [advances.noLeak noLeak, add_zero] at inv
  exact ⟨lay', inv⟩

/-- Reference counts stay exact as long as `incr` and `decr` meet values of at least one byte and
every tombstone finds room. -/
theorem references_balanced (cas : settings.useCas = true) (large : 35 ≤ limit)
    (small : limit < 2 ^ 32)
    (run : Run (Server.Good Server.NoLeak) (.init settings limit now : Server ι) as srv) :
    srv.Balanced := by
  obtain ⟨lay, inv⟩ := serverInv_of_run cas large small run
  exact inv.balanced

/-- The 16 bits of a count are the number of references: an item that is linked or held carries at
least one, and as many as the table and the connections have. -/
def Server.CountsExactly (srv : Server ι) : Prop :=
  ∀ id, (srv.store.metas id).linked = true ∨ id ∈ srv.refs →
    (srv.store.metas id).refcount ≠ 0 ∧
      (srv.store.metas id).refcount = (srv.store.metas id).linked.toNat + srv.refs.count id

/-- No count wraps as long as each step leaves room in the counts for the lookups it makes. -/
theorem refcounts_exact (cas : settings.useCas = true) (large : 35 ≤ limit) (small : limit < 2 ^ 32)
    (run : Run (Server.Good Server.NoLeak) (.init settings limit now : Server ι) as srv) :
    srv.CountsExactly := by
  obtain ⟨lay, inv⟩ := serverInv_of_run cas large small run
  have counted := inv.counted
  rw [add_zero] at counted
  rintro id (linked | held)
  · have count := counted.count id (inv.inv.slabbed_of_linked linked)
    refine ⟨?_, count⟩
    rw [count, linked, Bool.toNat_true]
    omega
  · have count := counted.count id (counted.held held)
    have positive := Multiset.count_pos.2 held
    exact ⟨by omega, count⟩

/-! ## Dirty records -/

/-- Every record of the log is completed, so that a reader can step over it. -/
def Server.AllStored (srv : Server ι) : Prop :=
  ∀ b ∈ srv.store.log.records, has (flagsOf srv.store.log.mem b.off) itemStored = true ∧
    has (flagsOf srv.store.log.mem b.off) itemDirty = false

/-- When every completed block is accepted and no connection closes during an upload, the log
holds only completed records whenever no upload is under way. -/
theorem no_abandoned_record (cas : settings.useCas = true) (large : 35 ≤ limit)
    (small : limit < 2 ^ 32)
    (run : Run (Server.Good Server.Settles) (.init settings limit now : Server ι) as srv)
    (none : ∀ c, (srv.conns c).uploadOff srv.store = none) : srv.AllStored := by
  obtain ⟨lay, leaked, inv, claimed⟩ := run.invariant
    (fun srv => ∃ lay leaked, ServerInv srv lay leaked ∧ srv.Claimed lay) (by
      rintro srv a srv' ⟨lay, leaked, h, claimed⟩ ⟨ok, settles, step⟩
      obtain ⟨lay', leak, advances⟩ := h.step ok step
      exact ⟨lay', leaked + leak, advances.inv, advances.claimed settles claimed⟩)
    ⟨_, _, .init cas large small, fun q hq => by simp [Store.journal, Layout.live] at hq⟩
  intro b hb
  rw [inv.inv.log.records_eq] at hb
  have mem : recOf srv.store.log.mem b ∈ srv.store.journal lay :=
    SweepInv.mem_journal.2 ⟨b, hb, rfl⟩
  have flags : flagsOf srv.store.log.mem b.off = (recOf srv.store.log.mem b).flags := rfl
  rw [flags]
  rcases inv.sound.known _ mem with tomb | ⟨-, dirty | stored | corrupted⟩
  · rw [tomb]
    decide
  · obtain ⟨c, eq⟩ := claimed _ mem dirty
    rw [none c] at eq
    cases eq
  · rw [stored]
    decide
  · rw [corrupted]
    decide

/-! ## Held records -/

/-- What a connection still has to send reads as it did when it was looked up, and the record under
upload is the one the header line left, with the bytes received since. -/
def Conn.Pins (s : Store) : Conn → Prop
  | .mwrite _ segments due => renderAll s.log.mem segments = due
  | .nread _ id _ _ start got =>
      s.recAt id = { start with data := got ++ start.data.drop got.length }
  | _ => True

/-- When the cleaner passes no record that is held, nobody changes what is held. -/
theorem held_records_pinned (cas : settings.useCas = true) (large : 35 ≤ limit)
    (small : limit < 2 ^ 32)
    (run : Run (Server.Good Server.Spares) (.init settings limit now : Server ι) as srv) :
    ∀ c, (srv.conns c).Pins srv.store := by
  obtain ⟨lay, leaked, inv, answers⟩ := run.invariant
    (fun srv => ∃ lay leaked, ServerInv srv lay leaked ∧
      ∀ c, Answers srv.store lay (srv.conns c)) (by
      rintro srv a srv' ⟨lay, leaked, h, answers⟩ ⟨ok, spares, step⟩
      obtain ⟨lay', leak, advances⟩ := h.step ok step
      exact ⟨lay', leaked + leak, advances.inv, advances.answers spares answers⟩)
    ⟨_, _, .init cas large small, fun _ => trivial⟩
  intro c
  have own := inv.conn c
  have answer := answers c
  cases conn : srv.conns c with
  | mwrite items segments due =>
    rw [conn] at answer
    exact answer.2
  | nread comm id ritem rlbytes start got =>
    rw [conn] at own
    obtain ⟨r, up⟩ := own
    exact (recAt_eq up.fresh.mem up.fresh.off).trans (up.data ▸ up.same)
  | _ => trivial

end

/-- The settings of a server started sixty-two seconds after `process_started`. -/
def started : Settings := settingsInit 1500000000

/-- A storage command of one connection, with its data block. -/
def storing {ι : Type} (c : ι) (comm : NreadComm) (key : Key) (flags : UInt32) (data : List UInt8) :
    List (Action ι) :=
  [.update c comm key flags 0 data.length 0, .recv c (data ++ [13, 10]), .complete c]

/-- A step of a storage command that meets every condition, in a form that can be evaluated. -/
def Server.storesPlainly (srv : Server Unit) (a : Action Unit) : Bool :=
  !srv.store.settings.lruLogEnabled &&
    (srv.request a).all (fun n =>
      decide (16 * n ≤ srv.store.log.memLimit) && decide (WrapOk srv.store.log n)) &&
    srv.store.table.all (fun k => decide ((srv.store.metas k).refcount + a.lookups < 2 ^ 16)) &&
    match a with
    | .update .. => true
    | .recv .. => true
    | .complete c =>
        match srv.conns c with
        | .nread comm id _ _ _ _ =>
            srv.store.accepts comm id (srv.store.find (srv.store.keyAt id))
        | _ => true
    | _ => false

theorem Server.good_of_plain {srv srv' : Server Unit} {a : Action Unit}
    (plain : srv.storesPlainly a = true) (next : srv.next a = some srv') :
    Server.Good (fun srv a => srv.NoLeak a ∧ srv.Settles a ∧ srv.Spares a) srv a srv' := by
  simp only [Server.storesPlainly, Bool.and_eq_true, Bool.not_eq_true', List.all_eq_true,
    Option.all_eq_true, decide_eq_true_eq] at plain
  obtain ⟨⟨⟨quiet, fits⟩, roomy⟩, kind⟩ := plain
  have stays (o : ℕ) : ¬srv.Passes a o := by
    rintro ⟨rfl, -⟩
    cases kind
  refine ⟨⟨quiet, fun n request => ⟨(fits n request).1, (fits n request).2⟩, roomy,
    fun _ _ _ => stays _⟩, ⟨?_, ?_, fun _ _ _ => stays _⟩, Server.step_of_next next⟩
  · cases a with
    | arithmetic => cases kind
    | deleteLog => cases kind
    | _ => trivial
  · cases a with
    | complete c =>
      intro comm id ritem rlbytes start got conn _
      simpa only [conn] using kind
    | close => cases kind
    | _ => trivial

/-- `set a 0 0 1`, a run that meets every condition. -/
theorem set_good : ∃ srv, Run
    (Server.Good fun srv a => srv.NoLeak a ∧ srv.Settles a ∧ srv.Spares a)
    (.init started memlogDefaultSize 62) (storing () .set [97] 0 [120]) srv ∧
      srv.conns () = .idle := by
  have eval : ((storing () .set [97] 0 [120]).foldlM
      (fun (srv : Server Unit) a => if srv.storesPlainly a then srv.next a else none)
      (.init started memlogDefaultSize 62)).map (fun srv => srv.conns ()) = some .idle := by
    decide +kernel
  obtain ⟨srv, run, idle⟩ := Option.map_eq_some_iff.1 eval
  refine ⟨srv, (Run.of_foldlM run).mono fun s a t next => ?_, idle⟩
  rw [Option.ite_none_right_eq_some] at next
  exact Server.good_of_plain next.1 next.2

theorem references_balanced_set : ∃ srv, Run (Server.Good Server.NoLeak)
    (.init started memlogDefaultSize 62) (storing () .set [97] 0 [120]) srv ∧ srv.Balanced := by
  obtain ⟨srv, good, -⟩ := set_good
  have run := good.mono fun s a t ⟨ok, extra, step⟩ => (⟨ok, extra.1, step⟩ : s.Good _ a t)
  exact ⟨srv, run, references_balanced rfl (by decide) (by decide) run⟩

/-- `set` of an empty value, then `incr`: the reference of the lookup is not given back. -/
def leakTrace : List (Action Unit) :=
  storing () .set [97] 0 [] ++ [.arithmetic () [97] true 1]

theorem reference_leaked :
    ∃ srv, Run Server.Step (.init started memlogDefaultSize 62 : Server Unit) leakTrace srv ∧
      (∀ c, srv.conns c = .idle) ∧ ¬srv.Balanced := by
  have eval : (leakTrace.foldlM Server.next (.init started memlogDefaultSize 62)).map
      (fun srv => (srv.conns (), srv.store.log.memLimit, (srv.store.metas 22369620).refcount,
        (srv.store.metas 22369620).linked)) = some (.idle, memlogDefaultSize, 2, true) := by
    decide +kernel
  obtain ⟨srv, run, eq⟩ := Option.map_eq_some_iff.1 eval
  simp only [Prod.mk.injEq] at eq
  obtain ⟨idle, limit, count, linked⟩ := eq
  refine ⟨srv, Server.run_of_next run, fun _ => idle, fun balanced => ?_⟩
  have held : srv.refs = 0 := by
    simp [Server.refs, idle, Conn.refs]
  have := (balanced 22369620 (by rw [limit]; decide)).1
  rw [count, linked, held] at this
  simp at this

theorem refcounts_exact_set : ∃ srv, Run (Server.Good Server.NoLeak)
    (.init started memlogDefaultSize 62) (storing () .set [97] 0 [120]) srv ∧ srv.CountsExactly := by
  obtain ⟨srv, good, -⟩ := set_good
  have run := good.mono fun s a t ⟨ok, extra, step⟩ => (⟨ok, extra.1, step⟩ : s.Good _ a t)
  exact ⟨srv, run, refcounts_exact rfl (by decide) (by decide) run⟩

section

variable {s : Store} {key : Key} {id : ℕ}

theorem metas_refcountIncr : (s.refcountIncr id).metas id =
    { s.metas id with refcount := ((s.metas id).refcount + 1) % 2 ^ 16 } :=
  Function.update_self ..

theorem getKey_recent (found : s.find key = some id)
    (recent : ¬(s.metas id).time < (s.currentTime + (2 ^ 32 - itemUpdateInterval)) % 2 ^ 32)
    (returnCas : Bool) :
    s.getKey returnCas key = .ok (s.refcountIncr id,
      some (id, hitSegments s.log.mem (s.itemOf id) returnCas)) := by
  obtain ⟨hit, visible⟩ := find_eq_some.1 found
  have get : s.doItemGet key = .ok (s.refcountIncr id, some id) := by
    have shown : ¬((s.refcountIncr id).itemIsFlushed id || (s.refcountIncr id).itemIsExpired id) =
        true := by
      change ¬(s.refcountIncr id).itemIsHidden id = true
      rw [itemIsHidden_refcountIncr, visible]
      exact Bool.false_ne_true
    simp only [Store.doItemGet, hit]
    rw [if_neg shown]
    rfl
  have update : (s.refcountIncr id).doItemUpdate id = .ok (s.refcountIncr id, none) := by
    rw [Store.doItemUpdate, if_neg (by rw [metas_refcountIncr]; exact recent)]
    rfl
  rw [Store.getKey, get, ok_bind]
  dsimp only
  rw [update, ok_bind, sameTable_refcountIncr.item]
  rfl

theorem processGetKeys_replicate (found : s.find key = some id)
    (recent : ¬(s.metas id).time < (s.currentTime + (2 ^ 32 - itemUpdateInterval)) % 2 ^ 32)
    (short : key.length ≤ keyMaxLength) (small : (s.metas id).refcount < 2 ^ 16) (returnCas : Bool)
    (n : ℕ) (items : List ℕ) (segments : List Segment) :
    ∃ s' segments', s.processGetKeys returnCas items segments (List.replicate n key) =
        .ok (s', some (items ++ List.replicate n id, segments')) ∧
      (s'.metas id).linked = (s.metas id).linked ∧
      (s'.metas id).refcount = ((s.metas id).refcount + n) % 2 ^ 16 := by
  induction n generalizing s items segments with
  | zero =>
    refine ⟨s, segments ++ [.text [69, 78, 68, 13, 10]], ?_, rfl, (Nat.mod_eq_of_lt small).symm⟩
    rw [List.replicate_zero, List.replicate_zero, List.append_nil, Store.processGetKeys]
    rfl
  | succ n ih =>
    have found' : (s.refcountIncr id).find key = some id := by
      obtain ⟨hit, visible⟩ := find_eq_some.1 found
      rw [find_eq_some, sameTable_refcountIncr.assocFind, itemIsHidden_refcountIncr]
      exact ⟨hit, visible⟩
    obtain ⟨s', segments', run, linked, count⟩ := ih found'
      (by rw [metas_refcountIncr]; exact recent)
      (by rw [metas_refcountIncr]; exact Nat.mod_lt _ (by norm_num)) (items ++ [id])
      (segments ++ hitSegments s.log.mem (s.itemOf id) returnCas)
    refine ⟨s', segments', ?_, by rw [linked, metas_refcountIncr], ?_⟩
    · rw [List.replicate_succ, Store.processGetKeys, if_neg (not_lt.2 short),
        getKey_recent found recent, ok_bind]
      dsimp only
      rw [run, List.append_assoc]
      rfl
    · rw [count, metas_refcountIncr]
      dsimp only
      omega

theorem Server.get_replicate {srv : Server Unit} (idle : srv.conns () = .idle)
    (found : srv.store.find key = some id)
    (recent : ¬(srv.store.metas id).time <
      (srv.store.currentTime + (2 ^ 32 - itemUpdateInterval)) % 2 ^ 32)
    (short : key.length ≤ keyMaxLength) (small : (srv.store.metas id).refcount < 2 ^ 16) (n : ℕ) :
    ∃ srv', srv.Step (.get () false (List.replicate n key)) srv' ∧
      (srv'.store.metas id).linked = (srv.store.metas id).linked ∧
      (srv'.store.metas id).refcount = ((srv.store.metas id).refcount + n) % 2 ^ 16 ∧
      srv'.refs.count id = n := by
  obtain ⟨s', segments, get, linked, count⟩ :=
    processGetKeys_replicate found recent short small false n [] []
  refine ⟨srv.set () s' (.mwrite (List.replicate n id) segments (renderAll s'.log.mem segments)), ?_,
    linked, count, ?_⟩
  · simp only [Server.Step, Server.step, idle, Store.processGetCommand, get, List.nil_append]
    rfl
  · simp [Server.refs, Server.set, Conn.refs]

end

/-- `get` of one key in 65535 words: the count of the item is back at zero, with the item linked and
its references held by the answer. -/
theorem refcount_wraps : ∃ srv srv' id,
    Run Server.Step (.init started memlogDefaultSize 62 : Server Unit)
      (storing () .set [97] 0 [120]) srv ∧
    srv.Step (.get () false (List.replicate 65535 [97])) srv' ∧
    (srv'.store.metas id).linked = true ∧ (srv'.store.metas id).refcount = 0 ∧
    srv'.refs.count id = 65535 ∧ ¬srv'.CountsExactly := by
  have eval : ((storing () .set [97] 0 [120]).foldlM Server.next
      (.init started memlogDefaultSize 62)).map
      (fun srv => decide (srv.conns () = .idle) && (srv.store.find [97]).any (fun id =>
        decide (¬(srv.store.metas id).time <
          (srv.store.currentTime + (2 ^ 32 - itemUpdateInterval)) % 2 ^ 32) &&
        decide ((srv.store.metas id).refcount = 1) && (srv.store.metas id).linked)) = some true := by
    decide +kernel
  obtain ⟨srv, run, eq⟩ := Option.map_eq_some_iff.1 eval
  rw [Bool.and_eq_true, decide_eq_true_eq, Option.any_eq_true] at eq
  obtain ⟨idle, id, found, eq⟩ := eq
  simp only [Bool.and_eq_true, decide_eq_true_eq] at eq
  obtain ⟨⟨recent, one⟩, linked⟩ := eq
  obtain ⟨srv', step, linked', count, held⟩ :=
    Server.get_replicate idle found recent (by decide) (by omega) 65535
  have wrapped : (srv'.store.metas id).refcount = 0 := by
    rw [count, one]
    norm_num
  exact ⟨srv, srv', id, Server.run_of_next run, step, linked'.trans linked, wrapped, held,
    fun exactly => (exactly id (.inl (linked'.trans linked))).1 wrapped⟩

theorem no_abandoned_record_set : ∃ srv, Run (Server.Good Server.Settles)
    (.init started memlogDefaultSize 62) (storing () .set [97] 0 [120]) srv ∧ srv.AllStored := by
  obtain ⟨srv, good, idle⟩ := set_good
  have run := good.mono fun s a t ⟨ok, extra, step⟩ => (⟨ok, extra.2.1, step⟩ : s.Good _ a t)
  exact ⟨srv, run, no_abandoned_record rfl (by decide) (by decide) run fun _ => by rw [idle]; rfl⟩

/-- `replace` of a missing key. -/
def abandonTrace : List (Action Unit) := storing () .replace [97] 0 [120]

theorem record_abandoned :
    ∃ srv, Run Server.Step (.init started memlogDefaultSize 62 : Server Unit) abandonTrace srv ∧
      (∀ c, (srv.conns c).uploadOff srv.store = none) ∧ ¬srv.AllStored := by
  have eval : (abandonTrace.foldlM Server.next (.init started memlogDefaultSize 62)).map
      (fun srv => (srv.conns (), srv.store.log.records, flagsOf srv.store.log.mem 0)) =
        some (.idle, [⟨0, 35⟩], dirtyFlags) := by
    decide +kernel
  obtain ⟨srv, run, eq⟩ := Option.map_eq_some_iff.1 eval
  simp only [Prod.mk.injEq] at eq
  obtain ⟨idle, records, dirty⟩ := eq
  refine ⟨srv, Server.run_of_next run, fun _ => by rw [idle]; rfl, fun stored => ?_⟩
  have := (stored ⟨0, 35⟩ (by rw [records]; exact List.mem_singleton_self _)).1
  rw [dirty] at this
  exact absurd this (by decide)

theorem held_records_pinned_set : ∃ srv, Run (Server.Good Server.Spares)
    (.init started memlogDefaultSize 62) (storing () .set [97] 0 [120]) srv ∧
      ∀ c, (srv.conns c).Pins srv.store := by
  obtain ⟨srv, good, -⟩ := set_good
  have run := good.mono fun s a t ⟨ok, extra, step⟩ => (⟨ok, extra.2.2, step⟩ : s.Good _ a t)
  exact ⟨srv, run, held_records_pinned rfl (by decide) (by decide) run⟩

/-- One connection queues the answer to `get a`; another one fills the log with thirteen header
lines of 67000000 bytes, and the cleaner passes the record of `a`. -/
def zeroTrace : List (Action Bool) :=
  storing true .set [97] 0 [120] ++ [.get true false [[97]]] ++
    (List.replicate 13 [.update false .set [98] 0 0 67000000 0, .close false]).flatten ++ [.clean]

def Conn.renders (m : Mem) : Conn → Bool
  | .mwrite _ segments due => decide (renderAll m segments = due)
  | _ => true

theorem held_record_zeroed :
    ∃ srv, Run Server.Step (.init started memlogDefaultSize 62 : Server Bool) zeroTrace srv ∧
      ¬(srv.conns true).Pins srv.store := by
  have eval : (zeroTrace.foldlM Server.next (.init started memlogDefaultSize 62)).map
      (fun srv => (srv.conns true).renders srv.store.log.mem) = some false := by
    decide +kernel
  obtain ⟨srv, run, eq⟩ := Option.map_eq_some_iff.1 eval
  refine ⟨srv, Server.run_of_next run, fun pins => ?_⟩
  cases conn : srv.conns true with
  | mwrite items segments due =>
    rw [conn] at pins eq
    exact of_decide_eq_false eq pins
  | _ =>
    rw [conn] at eq
    cases eq

end LogMemcached

import LogMemcached.ServerRuns
import LogMemcached.StorageSpec

/-!
# Storage commands along runs of the server

In every state of a run each entry ends its line and was accessed no later than now
(`Contents.Tended`).  From such a state `do_store_item` answers as the command says, and changes the map
from keys to values, flags and expiry times under its own key only.
-/

namespace LogMemcached

open ByteMem Tiling Fallible Store Transition

def Content.value (e : Content) : List UInt8 := e.data.take (e.data.length - 2)

def Content.shown (e : Content) : List UInt8 × ℕ × ℕ × ℕ := (e.data, e.flags, e.exptime, e.cas)

namespace Contents

variable {c c' : Contents} {key : Key} {e req : Content} {comm : NreadComm} {served : Bool}

/-- Every entry ends its line and was accessed no later than now. -/
def Tended (c : Contents) : Prop :=
  ∀ key e, c.entries key = some e → LineEnded e.data ∧ e.time ≤ c.now

theorem Fades.tended (h : c.Fades c') (tended : c.Tended) : c'.Tended := by
  intro key e' found
  obtain ⟨e, linked, rfl | ⟨-, rfl⟩⟩ := h.entries key e' found
  · rw [h.now]
    exact tended key e' linked
  · exact ⟨(tended key e linked).1, h.now.ge⟩

theorem Tended.link (tended : c.Tended) (ended : LineEnded e.data) : (c.link key e).Tended := by
  intro k e' found
  simp only [Contents.link, Function.update_apply] at found
  split_ifs at found
  · obtain rfl := Option.some.inj found
    exact ⟨ended, le_rfl⟩
  · exact tended k e' found

theorem Turns.tended (h : c.Turns c' key fun e => LineEnded e.data) (tended : c.Tended) :
    c'.Tended := by
  rcases h with fades | ⟨e, ended, fades⟩
  · exact fades.tended tended
  · exact fades.tended (tended.link ended)

theorem Tended.visible (tended : c.Tended) (shown : c.visible key = some e) :
    LineEnded e.data ∧ e.time ≤ c.now :=
  tended key e (visible_eq_some.1 shown).1

end Contents

/-! ## The storage commands, one part at a time -/

/-- What a storage command answers: by the entry a client sees, the id that was sent, and whether
the log has room for a joined record. -/
def NreadComm.answer (comm : NreadComm) (seen : Option Content) (cas : ℕ) (served : Bool) :
    StoreItemType :=
  match comm, seen with
  | .set, _ => .stored
  | .add, none => .stored
  | .add, some _ => .notStored
  | .replace, none => .notStored
  | .replace, some _ => .stored
  | .append, none => .notStored
  | .append, some _ => if served then .stored else .notStored
  | .prepend, none => .notStored
  | .prepend, some _ => if served then .stored else .notStored
  | .cas, none => .notFound
  | .cas, some e => if cas = e.cas then .stored else .exists

/-- The value, flags and expiry time that a command leaves when it goes through. -/
def NreadComm.leaves (comm : NreadComm) (seen : Option Content) (req : Content) : List UInt8 × ℕ × ℕ :=
  match comm, seen with
  | .append, some e => (e.value ++ req.value, e.flags, e.exptime)
  | .prepend, some e => (req.value ++ e.value, e.flags, e.exptime)
  | _, _ => (req.value, req.flags, req.exptime)

/-- The parts of a storage command: what it answers, what it leaves under its key when it goes
through, what a client sees when it does not, and what becomes of other keys. -/
structure Contents.Stores (c c' : Contents) (comm : NreadComm) (key : Key) (req : Content) (served : Bool)
    (result : StoreItemType) : Prop where
  answer : result = comm.answer (c.visible key) req.cas served
  stored : result = .stored → ∃ e, c'.entries key = some e ∧
    e.data = (comm.leaves (c.visible key) req).1 ++ [13, 10] ∧
    (e.flags, e.exptime) = (comm.leaves (c.visible key) req).2
  refused : result ≠ .stored →
    (c'.visible key).map Content.shown = (c.visible key).map Content.shown
  others : ∀ k ≠ key, c'.entries k = c.entries k ∧ c'.visible k = c.visible k

namespace Contents

variable {c c' : Contents} {key : Key} {e req old : Content} {comm : NreadComm} {served : Bool}

theorem value_data (ended : LineEnded e.data) : e.data = e.value ++ [13, 10] := by
  obtain ⟨value, eq⟩ := ended
  rw [Content.value, eq]
  simp

theorem stores_link {result : StoreItemType} (ended : LineEnded req.data) (done : result = .stored)
    (answer : result = comm.answer (c.visible key) req.cas served)
    (plain : comm.leaves (c.visible key) req = (req.value, req.flags, req.exptime)) :
    c.Stores (c.link key req) comm key req served result := by
  refine ⟨answer, fun _ => ⟨c.stamp req, Function.update_self .., ?_, ?_⟩,
    fun failed => absurd done failed,
    fun k other => ⟨Function.update_of_ne other .., visible_link_other other⟩⟩
  · rw [plain]
    exact value_data ended
  · rw [plain]
    rfl

theorem stores_refused {result : StoreItemType} (failed : result ≠ .stored)
    (answer : result = comm.answer (c.visible key) req.cas served)
    (same : (c'.visible key).map Content.shown = (c.visible key).map Content.shown)
    (others : ∀ k ≠ key, c'.entries k = c.entries k) (fades : c.Fades c') :
    c.Stores c' comm key req served result := by
  refine ⟨answer, fun done => absurd done failed, fun _ => same, fun k other => ⟨others k other, ?_⟩⟩
  rw [visible, visible, others k other]
  simp only [fades.hides]

theorem visible_remove : (c.remove key).visible key = none := by
  simp [visible, remove]

theorem stores_remove {result : StoreItemType} (failed : result ≠ .stored)
    (answer : result = comm.answer (c.visible key) req.cas served) (missing : c.visible key = none) :
    c.Stores (c.remove key) comm key req served result :=
  stores_refused failed answer (by rw [visible_remove, missing])
    (fun _ other => Function.update_of_ne other ..) (fades_remove c key)

theorem visible_access (tended : c.Tended) (shown : c.visible key = some e) :
    ((c.access key).visible key).map Content.shown = some e.shown := by
  obtain ⟨linked, seen⟩ := visible_eq_some.1 shown
  have before := (tended key e linked).2
  have seen' : c.hides { e with time := c.now } = false := by
    simp only [hides, flushed, expired, Bool.or_eq_false_iff] at seen ⊢
    refine ⟨?_, seen.2⟩
    have first := seen.1
    split_ifs at first ⊢ with idle
    · rfl
    · simp only [Bool.or_eq_false_iff, decide_eq_false_iff_not] at first ⊢
      refine ⟨?_, first.2⟩
      omega
  have hides (x : Content) : (c.access key).hides x = c.hides x := (fades_access shown).hides x
  simp only [visible, hides]
  simp only [access, Function.update_self, linked, Option.map_some]
  split_ifs
  · simp [Option.filter, seen', Content.shown]
  · simp [Option.filter, seen]

theorem stores_access {result : StoreItemType} (tended : c.Tended) (shown : c.visible key = some e)
    (failed : result ≠ .stored) (answer : result = comm.answer (c.visible key) req.cas served) :
    c.Stores (c.access key) comm key req served result :=
  stores_refused failed answer (by rw [visible_access tended shown, shown]; rfl)
    (fun _ other => Function.update_of_ne other ..) (fades_access shown)

theorem stores_kept {result : StoreItemType} (failed : result ≠ .stored)
    (answer : result = comm.answer (c.visible key) req.cas served) :
    c.Stores c comm key req served result :=
  stores_refused failed answer rfl (fun _ _ => rfl) (.refl c)

theorem combined_data (ended : LineEnded old.data) (ended' : LineEnded req.data) :
    comm.combined old.data req.data =
      (if comm = .append then old.value ++ req.value else req.value ++ old.value) ++ [13, 10] := by
  unfold NreadComm.combined joinBlocks
  split_ifs
  · rw [List.append_assoc, ← value_data ended']
    rfl
  · rw [List.append_assoc, ← value_data ended]
    rfl

theorem stores_combine (tended : c.Tended) (ended : LineEnded req.data)
    (shown : c.visible key = some old) (ascii : req.cas = 0)
    (joins : comm = .append ∨ comm = .prepend) :
    c.Stores (c.combine comm key old req served).1 comm key req served
      (c.combine comm key old req served).2 := by
  have answer : comm.answer (c.visible key) req.cas served =
      if served then .stored else .notStored := by
    rw [shown]
    rcases joins with rfl | rfl <;> rfl
  have leaves : comm.leaves (c.visible key) req =
      (if comm = .append then old.value ++ req.value else req.value ++ old.value, old.flags,
        old.exptime) := by
    rw [shown]
    rcases joins with rfl | rfl <;> rfl
  unfold combine
  rw [if_neg fun mismatch => mismatch.1 ascii]
  cases served with
  | false => exact stores_kept (by simp) answer.symm
  | true =>
    refine ⟨answer.symm, fun _ => ⟨_, Function.update_self .., ?_, ?_⟩,
      fun failed => absurd rfl failed,
      fun k other => ⟨Function.update_of_ne other .., visible_link_other other⟩⟩
    · rw [leaves]
      exact combined_data (tended.visible shown).1 ended
    · rw [leaves]
      rfl

theorem store_stores (tended : c.Tended) (ended : LineEnded req.data)
    (ascii : comm ≠ .cas → req.cas = 0) :
    c.Stores (c.store comm key req served).1 comm key req served (c.store comm key req served).2 := by
  have notStored : StoreItemType.notStored ≠ .stored := by decide
  have notFound : StoreItemType.notFound ≠ .stored := by decide
  have differs : StoreItemType.exists ≠ .stored := by decide
  cases shown : c.visible key with
  | none =>
    rw [store_none shown]
    cases comm with
    | set => exact stores_link ended rfl (by rw [shown]; rfl) (by rw [shown]; rfl)
    | add => exact stores_link ended rfl (by rw [shown]; rfl) (by rw [shown]; rfl)
    | replace => exact stores_remove notStored (by rw [shown]; rfl) shown
    | append => exact stores_remove notStored (by rw [shown]; rfl) shown
    | prepend => exact stores_remove notStored (by rw [shown]; rfl) shown
    | cas => exact stores_remove notFound (by rw [shown]; rfl) shown
  | some old =>
    rw [store_some shown]
    cases comm with
    | set => exact stores_link ended rfl (by rw [shown]; rfl) (by rw [shown]; rfl)
    | add => exact stores_access tended shown notStored (by rw [shown]; rfl)
    | replace => exact stores_link ended rfl (by rw [shown]; rfl) (by rw [shown]; rfl)
    | append => exact stores_combine tended ended shown (ascii (by decide)) (.inl rfl)
    | prepend => exact stores_combine tended ended shown (ascii (by decide)) (.inr rfl)
    | cas =>
      dsimp only
      split_ifs with same
      · exact stores_link ended rfl (by rw [shown, NreadComm.answer, if_pos same]) (by rw [shown]; rfl)
      · exact stores_kept differs (by rw [shown, NreadComm.answer, if_neg same])

end Contents

/-! ## Runs -/

section

variable {ι : Type} [Fintype ι] [DecidableEq ι] {srv srv' : Server ι} {lay : Layout}
  {leaked : Multiset ℕ} {a : Action ι} {settings : Settings} {limit now : ℕ}
  {as : List (Action ι)} {c : ι} {comm : NreadComm} {id ritem : ℕ} {start : Rec} {got : List UInt8}

theorem ServerInv.tended_complete {s' : Store} {reply : Reply} (h : ServerInv srv lay leaked)
    (ok : srv.StepOk (.complete c)) (nread : srv.conns c = .nread comm id ritem 0 start got)
    (tended : srv.store.contents.Tended)
    (run : srv.store.completeNreadAscii comm id = .ok (s', reply)) : s'.contents.Tended := by
  have own := h.conn c
  rw [nread] at own
  obtain ⟨r, up⟩ := own
  have dirty : r.flags = dirtyFlags := up.fresh.flags
  have proper := h.sound.proper up.fresh.mem (by rw [dirty]; decide)
  rcases up.fresh.contents_complete h.inv h.sound up.alone (h.joinOk ok nread up.fresh) ok.quiet run with
    ⟨ends, result, -, eq⟩ | ⟨-, -, eq⟩
  · have data := (entryOf_rec up.fresh.mem up.fresh.off).1
    have ended := (dataBlockEnds_iff (by rw [data]; exact proper.two)).1 ends
    have turns : srv.store.contents.Turns s'.contents r.key fun e => LineEnded e.data := by
      rw [show s'.contents = _ from congrArg Prod.fst eq]
      refine Contents.turns_store ended fun old shown => ?_
      exact ⟨_, Contents.combined_data (tended.visible shown).1 ended⟩
    exact turns.tended tended
  · rw [eq]
    exact tended

theorem ServerInv.tended (h : ServerInv srv lay leaked) (ok : srv.StepOk a) (step : srv.Step a srv')
    (tended : srv.store.contents.Tended) : srv'.store.contents.Tended := by
  have faded {s' : Store} (fades : srv.store.contents.Fades s'.contents) : s'.contents.Tended :=
    fades.tended tended
  cases step.performs with
  | reply idle run =>
    exact faded (h.inv.fades_reply (UInt32.toNat_lt _) ok.fits run)
  | upload idle run =>
    exact faded (.of_eq (h.inv.contents_upload (UInt32.toNat_lt _) ok.fits run).1)
  | @recv c bytes comm id ritem rlbytes start got nread fits =>
    have own := h.conn c
    rw [nread] at own
    obtain ⟨r, up⟩ := own
    have left := up.left
    have base : itemData srv.store.log.mem (srv.store.itemOf id) = r.dataOff := by
      rw [itemData_recAt, recAt_eq up.fresh.mem up.fresh.off]
    exact faded (.of_eq (up.fresh.contents_write_data h.inv
      (h.inv.apart_of_dirty h.sound up.fresh.mem up.fresh.flags) ritem bytes
      (by rw [base, up.cursor]; omega) (by rw [base, up.cursor]; omega)))
  | complete nread run => exact h.tended_complete ok nread tended run
  | get idle run => exact faded (h.inv.fades_getKeys ok.quiet run)
  | send mwrite => exact tended
  | release mwrite run => exact faded (.of_eq (contents_removeAll (removeAll_of_release run)))
  | @touch c key exptime s' reply idle run =>
    have turns : srv.store.contents.Turns s'.contents key fun e => LineEnded e.data :=
      h.inv.turns_touch ok.fits (fun e t shown => (tended.visible shown).1) run
    exact turns.tended tended
  | @arithmetic c key incr delta s' reply idle run =>
    have turns : srv.store.contents.Turns s'.contents key fun e => LineEnded e.data :=
      h.inv.turns_arithmetic h.sound (fun _ _ _ => ok.fits) (fun e value shown => ⟨_, rfl⟩) run
    exact turns.tended tended
  | deleteLong idle long => exact tended
  | deleteLookup idle short run =>
    obtain ⟨look, -⟩ := h.inv.contents_get run
    exact faded (look ▸ Contents.fades_look _ _)
  | @deleteLog c key id s' succeed found run =>
    have own := h.conn c
    rw [found] at own
    have room := ok.fits (deleteRequest key) (by simp only [Server.request, found])
    exact faded (.of_eq (h.inv.contents_deleteLog own.1 room run))
  | deleteUnlink logged run => exact faded (h.inv.fades_deleteUnlink run)
  | flushAll idle =>
    obtain ⟨oldestLive, oldestCas, casId, eq⟩ := flushAll_eq srv.store _
    rw [Server.set_store, eq]
    exact tended
  | closeIdle idle => exact tended
  | closeUpload nread run => exact faded (.of_eq (contents_doItemRemove run))
  | closeResponse mwrite run => exact faded (.of_eq (contents_removeAll (removeAll_of_release run)))
  | clean run => exact faded (h.inv.fades_clean run)
  | tick n =>
    intro key e linked
    obtain ⟨ended, time⟩ := tended key e linked
    exact ⟨ended, Nat.le_add_right_of_le time⟩

theorem tended_of_run (cas : settings.useCas = true) (large : 35 ≤ limit) (small : limit < 2 ^ 32)
    (run : Run (Server.Good fun _ _ => True) (.init settings limit now : Server ι) as srv) :
    ∃ lay leaked, ServerInv srv lay leaked ∧ srv.store.contents.Tended := by
  refine run.invariant (fun srv => ∃ lay leaked, ServerInv srv lay leaked ∧ srv.store.contents.Tended) ?_
    ⟨_, _, .init cas large small, fun key e linked => by cases linked⟩
  rintro srv a srv' ⟨lay, leaked, h, tended⟩ ⟨ok, -, step⟩
  obtain ⟨lay', leak, advances⟩ := h.step ok step
  exact ⟨lay', leaked + leak, advances.inv, h.tended ok step tended⟩

/-- From every state of a run in which each request fits, reference counts have room and the cleaner
passes no record under upload, `do_store_item` returns, answers by what a client sees under the key,
and changes the value, flags and expiry time of that key only. -/
theorem storage_commands_specified (cas : settings.useCas = true) (large : 35 ≤ limit)
    (small : limit < 2 ^ 32)
    (run : Run (Server.Good fun _ _ => True) (.init settings limit now : Server ι) as srv)
    (nread : srv.conns c = .nread comm id ritem 0 start got)
    (block : srv.store.dataBlockEnds id = true)
    (ascii : comm ≠ .cas → (srv.store.entryOf id).cas = 0) (ok : srv.StepOk (.complete c))
    (free : comm = .append ∨ comm = .prepend → srv.store.freelist ≠ []) :
    ∃ s' result, srv.store.doStoreItem comm id = .ok (s', result) ∧
      (srv.store.entryOf id).data = got ∧
      srv.store.contents.Stores s'.contents comm (srv.store.keyAt id) (srv.store.entryOf id)
        (srv.store.joinServed id) result := by
  obtain ⟨lay, leaked, h, tended⟩ := tended_of_run cas large small run
  have own := h.conn c
  rw [nread] at own
  obtain ⟨r, up⟩ := own
  have dirty : r.flags = dirtyFlags := up.fresh.flags
  have proper := h.sound.proper up.fresh.mem (by rw [dirty]; decide)
  have counted := h.counted
  rw [Server.refs_eq srv c, nread, add_assoc] at counted
  have join := h.joinOk ok nread up.fresh
  obtain ⟨s', result, store⟩ := up.fresh.doStoreItem_ok h.inv counted ok.roomy up.alone proper.short
    join ok.quiet fun joins _ _ _ => free joins
  have data : (srv.store.entryOf id).data = r.data := (entryOf_rec up.fresh.mem up.fresh.off).1
  refine ⟨s', result, store, ?_, ?_⟩
  · have left := up.left
    have all := up.data
    have count : r.data.length = got.length + (start.data.drop got.length).length := by
      rw [all, List.length_append]
    rw [data, all, List.length_eq_zero_iff.1 (by omega : (start.data.drop got.length).length = 0),
      List.append_nil]
  · have eq := up.fresh.contents_doStoreItem h.inv up.alone proper.short join (fun oldId found => by
      obtain ⟨f, holds⟩ := h.inv.holds h.sound found
      rw [holds.client, holds.plain]) ok.quiet store
    have ended := (dataBlockEnds_iff (by rw [data]; exact proper.two)).1 block
    have stores : srv.store.contents.Stores _ comm r.key _ (srv.store.joinServed id) _ :=
      Contents.store_stores tended ended ascii
    rw [← eq] at stores
    rw [up.fresh.keyAt]
    exact stores

end

/-! ## An append, and an append that overruns the log -/

/-- A step that meets the conditions of the invariant and is not the cleaner's, in a form that can
be evaluated. -/
def Server.meets (srv : Server Unit) (a : Action Unit) : Bool :=
  !srv.store.settings.lruLogEnabled &&
    (srv.request a).all (fun n =>
      decide (16 * n ≤ srv.store.log.memLimit) && decide (WrapOk srv.store.log n)) &&
    srv.store.table.all (fun k => decide ((srv.store.metas k).refcount + a.lookups < 2 ^ 16)) &&
    match a with
    | .clean => false
    | _ => true

theorem Server.stepOk_of_meets {srv : Server Unit} {a : Action Unit} (meets : srv.meets a = true) :
    srv.StepOk a := by
  simp only [Server.meets, Bool.and_eq_true, Bool.not_eq_true', List.all_eq_true, Option.all_eq_true,
    decide_eq_true_eq] at meets
  obtain ⟨⟨⟨quiet, fits⟩, roomy⟩, kind⟩ := meets
  refine ⟨quiet, fun n request => ⟨(fits n request).1, (fits n request).2⟩, roomy, ?_⟩
  rintro c o - ⟨rfl, -⟩
  cases kind

theorem Server.good_of_meets {srv srv' : Server Unit} {as : List (Action Unit)}
    (eval : as.foldlM (fun srv a => if srv.meets a then srv.next a else none) srv = some srv') :
    Run (Server.Good fun _ _ => True) srv as srv' := by
  refine (Run.of_foldlM eval).mono fun s a t next => ?_
  rw [Option.ite_none_right_eq_some] at next
  exact ⟨Server.stepOk_of_meets next.1, trivial, Server.step_of_next next.2⟩

/-- `set a` with value `x`, then the header line and the block of `append a` with value `y`. -/
def appendTrace : List (Action Unit) :=
  storing () .set [97] 0 [120] ++ [.update () .append [97] 0 0 1 0, .recv () [121, 13, 10]]

/-- A whole `append` is to be stored, and its item passes a test. -/
def Conn.appends (test : ℕ → Bool) : Conn → Bool
  | .nread .append id _ 0 _ _ => test id
  | _ => false

theorem Conn.appends_spec {test : ℕ → Bool} {conn : Conn} (h : conn.appends test = true) :
    ∃ id ritem start got, conn = .nread .append id ritem 0 start got ∧ test id = true := by
  unfold Conn.appends at h
  split at h
  · exact ⟨_, _, _, _, rfl, h⟩
  · cases h

theorem storage_commands_specified_append : ∃ srv id ritem start got s' result,
    Run (Server.Good fun _ _ => True) (.init started memlogDefaultSize 62) appendTrace srv ∧
      srv.conns () = .nread .append id ritem 0 start got ∧
      srv.store.doStoreItem .append id = .ok (s', result) ∧
      (srv.store.entryOf id).data = got ∧
      srv.store.contents.Stores s'.contents .append (srv.store.keyAt id) (srv.store.entryOf id)
        (srv.store.joinServed id) result := by
  have eval : (appendTrace.foldlM (fun (srv : Server Unit) a =>
      if srv.meets a then srv.next a else none) (.init started memlogDefaultSize 62)).map
      (fun srv => (srv.conns ()).appends fun id => srv.store.dataBlockEnds id &&
        decide ((srv.store.entryOf id).cas = 0) && srv.meets (.complete ()) &&
        !srv.store.freelist.isEmpty) = some true := by
    decide +kernel
  obtain ⟨srv, fold, eq⟩ := Option.map_eq_some_iff.1 eval
  have run := Server.good_of_meets fold
  obtain ⟨id, ritem, start, got, nread, eq⟩ := Conn.appends_spec eq
  simp only [Bool.and_eq_true, decide_eq_true_eq, Bool.not_eq_true'] at eq
  obtain ⟨⟨⟨ends, zero⟩, meets⟩, free⟩ := eq
  obtain ⟨s', result, store, data, stores⟩ := storage_commands_specified rfl (by decide) (by decide)
    run nread ends (fun _ => zero) (Server.stepOk_of_meets meets)
    (fun _ none => by rw [none] at free; cases free)
  exact ⟨srv, id, ritem, start, got, s', result, run, nread, store, data, stores⟩

/-- A header line for a value of `vlen` bytes that is abandoned. -/
def abandoned (vlen : ℤ) : List (Action Unit) := [.update () .set [98] 0 0 vlen 0, .close ()]

/-- Large header lines fill the log, `a` and `c` are stored at its end, the log wraps and is filled
again up to the record of `a`, the last piece by the header line of `append c`. -/
def overrunTrace : List (Action Unit) :=
  (List.replicate 6 (abandoned 153391630)).flatten ++ [.clean, .clean] ++ abandoned 153391631 ++
    storing () .set [97] 0 [120] ++ storing () .set [99] 0 [120] ++
    (List.replicate 5 (abandoned 153391630 ++ [.clean])).flatten ++ abandoned 153391630 ++
    abandoned 153391536 ++
    [.update () .append [99] 0 0 60 0, .recv () (List.replicate 60 121 ++ [13, 10])]

/-- The append is refused, but its second allocation has written a cycle record over the record of
`a`, whose value is gone. -/
theorem append_overruns_other_key : ∃ srv id ritem start got s' result,
    Run Server.Step (.init started memlogDefaultSize 62 : Server Unit) overrunTrace srv ∧
      srv.conns () = .nread .append id ritem 0 start got ∧ srv.store.keyAt id = [99] ∧
      srv.store.dataBlockEnds id = true ∧ (srv.store.entryOf id).cas = 0 ∧
      srv.store.doStoreItem .append id = .ok (s', result) ∧
      (srv.store.entry [97]).map Content.data = some [120, 13, 10] ∧
      (s'.entry [97]).map Content.data = some [] ∧
      ¬srv.store.contents.Stores s'.contents .append (srv.store.keyAt id) (srv.store.entryOf id)
        (srv.store.joinServed id) result := by
  have eval : (overrunTrace.foldlM Server.next (.init started memlogDefaultSize 62)).map
      (fun srv => (srv.conns ()).appends fun id => decide (srv.store.keyAt id = [99]) &&
        srv.store.dataBlockEnds id && decide ((srv.store.entryOf id).cas = 0) &&
        decide ((srv.store.entry [97]).map Content.data = some [120, 13, 10]) &&
        decide ((srv.store.doStoreItem .append id).toOption.map (fun r =>
          (r.1.entry [97]).map Content.data) = some (some []))) = some true := by
    decide +kernel
  obtain ⟨srv, run, eq⟩ := Option.map_eq_some_iff.1 eval
  obtain ⟨id, ritem, start, got, nread, eq⟩ := Conn.appends_spec eq
  simp only [Bool.and_eq_true, decide_eq_true_eq] at eq
  obtain ⟨⟨⟨⟨key, ends⟩, zero⟩, before⟩, stored⟩ := eq
  obtain ⟨⟨s', result⟩, store, after⟩ := Option.map_eq_some_iff.1 stored
  refine ⟨srv, id, ritem, start, got, s', result, Server.run_of_next run, nread, key, ends, zero,
    ok_of_toOption store, before, after, fun stores => ?_⟩
  have same : s'.entry [97] = srv.store.entry [97] :=
    (stores.others [97] (by rw [key]; decide)).1
  rw [same, before] at after
  cases after

end LogMemcached

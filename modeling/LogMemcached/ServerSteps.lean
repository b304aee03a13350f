import LogMemcached.ServerInv

/-!
# Steps of the server

`ServerInv.step`: every step keeps the invariant of the server, given that the log can serve or
refuse what the step asks for, that the reference counts have room, that `lru_log` is off and that
the cleaner does not pass a record under upload.  The further conditions, `NoLeak`, `Settles` and
`Spares`, say when no reference is lost, when no dirty record is left behind, and when queued
responses stay intact.
-/

namespace LogMemcached

open ByteMem Tiling Fallible Store

variable {ι : Type} [Fintype ι] [DecidableEq ι]

/-! ## Conditions on a step -/

def Server.request (srv : Server ι) : Action ι → Option ℕ
  | .update _ _ key flags _ vlen _ => updateRequest key flags.toNat vlen
  | .complete c =>
      match srv.conns c with
      | .nread comm id _ _ _ _ =>
          if comm = .append ∨ comm = .prepend then
            (srv.store.find (srv.store.keyAt id)).map (srv.store.joinSize id)
          else none
      | _ => none
  | .touch _ key _ => srv.store.touchRequest key
  | .arithmetic _ key incr delta => srv.store.deltaRequest key incr delta
  | .deleteLog c =>
      match srv.conns c with
      | .found key _ => some (deleteRequest key)
      | _ => none
  | _ => none

def Action.lookups : Action ι → ℕ
  | .get _ _ keys => keys.length
  | _ => 1

/-- The cleaner, if the step runs it, passes the record at `o`. -/
def Server.Passes (srv : Server ι) (a : Action ι) (o : ℕ) : Prop :=
  a = .clean ∧ lruMaintainerGuard srv.store.log = true ∧ srv.store.log.memCurrentFreeing ≤ o ∧
    o < srv.store.log.memCurrentFreeing + srv.store.log.memLimit / 8

structure Server.StepOk (srv : Server ι) (a : Action ι) : Prop where
  quiet : srv.store.settings.lruLogEnabled = false
  fits : ∀ n, srv.request a = some n → RoomFor srv.store n
  roomy : srv.store.Roomy a.lookups
  spares : ∀ c o, (srv.conns c).uploadOff srv.store = some o → ¬srv.Passes a o

/-- No reference is lost: `incr` and `decr` find a value of at least one byte, and the tombstone of
a `delete` finds room. -/
def Server.NoLeak (srv : Server ι) : Action ι → Prop
  | .arithmetic _ key _ _ => ∀ id, srv.store.find key = some id →
      2 < nbytesInt srv.store.log.mem (srv.store.itemOf id)
  | .deleteLog c => ∀ key id, srv.conns c = .found key id →
      deleteRequest key ≤ (srv.store.log.turn (deleteRequest key)).memAvail
  | _ => True

/-- No upload is abandoned: a completed block with its line end is accepted, and no connection
closes during an upload. -/
def Server.Settles (srv : Server ι) : Action ι → Prop
  | .complete c => ∀ comm id ritem rlbytes start got,
      srv.conns c = .nread comm id ritem rlbytes start got → srv.store.dataBlockEnds id = true →
      srv.store.accepts comm id (srv.store.find (srv.store.keyAt id)) = true
  | .close c => (srv.conns c).uploadOff srv.store = none
  | _ => True

def Server.Spares (srv : Server ι) (a : Action ι) : Prop :=
  ∀ c, ∀ k ∈ (srv.conns c).refs, ¬srv.Passes a (srv.store.itemOf k)

structure Advances (srv srv' : Server ι) (lay lay' : Layout) (leaked leak : Multiset ℕ)
    (a : Action ι) : Prop where
  inv : ServerInv srv' lay' (leaked + leak)
  settings : srv'.store.settings = srv.store.settings
  limit : srv'.store.log.memLimit = srv.store.log.memLimit
  claimed : srv.Settles a → srv.Claimed lay → srv'.Claimed lay'
  answers : srv.Spares a → (∀ c, Answers srv.store lay (srv.conns c)) →
    ∀ c, Answers srv'.store lay' (srv'.conns c)
  noLeak : srv.NoLeak a → leak = 0

variable {srv srv' : Server ι} {lay lay' : Layout} {leaked leak : Multiset ℕ} {c : ι} {s' : Store}
  {conn : Conn} {a : Action ι} {v : View}

/-! ## Steps of one connection -/

theorem ServerInv.advance (h : ServerInv srv lay leaked) (acts : Acts srv c s' conn lay lay' leak)
    (tidy : srv.Settles a → Tidy srv c s' conn lay lay')
    (answers : Answers srv.store lay (srv.conns c) → Answers s' lay' conn)
    (noLeak : srv.NoLeak a → leak = 0) :
    Advances srv (srv.set c s' conn) lay lay' leaked leak a := by
  refine ⟨h.act acts, acts.settings, acts.limit,
    fun settles claimed => h.claimed acts (tidy settles) claimed, fun _ before c' => ?_, noLeak⟩
  by_cases other : c' = c
  · subst other
    rw [Server.set_self]
    exact answers (before c')
  · rw [Server.set_other other]
    refine (before c').kept (fun k hk => (h.held acts other k hk).item) fun k _ mem flags => ?_
    exact acts.kept _ mem (h.not_upload mem (by rw [flags]; decide) c)

theorem ServerInv.command (h : ServerInv srv lay leaked) (ok : srv.store.Roomy 1)
    (out : Outcome srv.store s' lay lay' (srv.conns c).refs (conn.refs + leak) v) (sound : v.Sound)
    (grows : (srv.store.view lay).Grows v) (before : (srv.conns c).uploadOff srv.store = none)
    (after : conn.uploadOff s' = none) (own : ConnInv s' lay' conn) (answers : Answers s' lay' conn)
    (noLeak : srv.NoLeak a → leak = 0) :
    Advances srv (srv.set c s' conn) lay lay' leaked leak a := by
  have journal : s'.journal lay' = v.recs := journal_of_view out.view
  have acts : Acts srv c s' conn lay lay' leak :=
    ⟨out.inv, out.setup.settings, out.setup.limit, out.view ▸ sound, out.moves ok,
      fun q hq _ => by rw [journal]; exact grows.kept q hq, own, by simp [after]⟩
  refine h.advance acts (fun _ q hq dirty => Or.inr ⟨?_, by simp [before]⟩) (fun _ => answers) noLeak
  rw [journal] at hq
  exact grows.dirty q hq dirty

/-! ## Storage commands -/

section Storage

variable {comm : NreadComm} {key : Key} {flags : ℕ} {vlen : ℤ} {id : ℕ} {r : Rec}

theorem ServerInv.opens_reply {reply : Reply} (h : ServerInv srv lay leaked)
    (ok : srv.store.Roomy 1) (idle : srv.conns c = .idle)
    (opens : Opens srv.store s' lay lay' comm key flags vlen (.reply reply)) :
    Advances srv (srv.set c s' .idle) lay lay' leaked 0 a := by
  obtain ⟨v, out, sound, grows⟩ := opens.sound h.inv h.sound
  exact h.command ok (by rw [idle]; exact out) sound grows (by rw [idle]; rfl) rfl trivial trivial
    fun _ => rfl

theorem ServerInv.opens_upload (h : ServerInv srv lay leaked) (ok : srv.store.Roomy 1)
    (word : flags < 2 ^ 32) (idle : srv.conns c = .idle)
    (opens : Opens srv.store s' lay lay' comm key flags vlen (.upload id)) :
    Advances srv (srv.set c s' (.opened s' comm vlen id)) lay lay' leaked 0 a := by
  cases opens with
  | upload _ r plain fresh alone new hkey short value suffix length out =>
    have journal : s'.journal lay' = srv.store.journal lay ++ [r] := journal_of_view out.view
    have mine : s'.recAt id = r := recAt_eq fresh.mem fresh.off
    have proper : r.Proper := ⟨hkey ▸ short, ⟨flags, word, plain, suffix⟩, by omega⟩
    have sound : (s'.view lay').Sound := by
      rw [out.view]
      exact h.sound.log (Or.inr ⟨proper, Or.inl fresh.flags⟩) new
    have upload : Upload s' lay' id (itemData s'.log.mem (s'.itemOf id)) (vlen + 2).toNat
        (s'.recAt id) [] r := by
      refine ⟨fresh, alone, ?_, ?_, ?_, ?_⟩
      · rw [itemData_recAt, mine]
        rfl
      · simp only [List.length_nil]
        omega
      · rw [mine]
      · rw [mine]
        rfl
    have acts : Acts srv c s' (.opened s' comm vlen id) lay lay' 0 := by
      refine ⟨out.inv, out.setup.settings, out.setup.limit, sound, ?_, fun q hq _ => ?_,
        ⟨r, upload⟩, fun o eq => ?_⟩
      · rw [idle]
        exact out.moves ok
      · rw [journal]
        exact List.mem_append_left _ hq
      · rw [← Option.some.inj eq, ← fresh.off]
        exact Or.inr new
    refine h.advance acts (fun _ q hq dirty => ?_) (fun _ => trivial) fun _ => rfl
    rw [journal] at hq
    rcases List.mem_append.1 hq with hq | hq
    · exact Or.inr ⟨hq, by rw [idle]; simp [Conn.uploadOff]⟩
    · rw [List.mem_singleton.1 hq, fresh.off]
      exact Or.inl rfl

theorem Upload.recv {s : Store} {ritem rlbytes : ℕ} {start : Rec} {got bytes : List UInt8}
    (up : Upload s lay id ritem rlbytes start got r) (h : StoreInv s lay)
    (fits : bytes.length ≤ rlbytes) :
    ∃ r', Fills s (s.setMem (write s.log.mem ritem bytes)) lay id r r' ∧
      Upload (s.setMem (write s.log.mem ritem bytes)) lay id (ritem + bytes.length)
        (rlbytes - bytes.length) start (got ++ bytes) r' := by
  have left := up.left
  have base : itemData s.log.mem (s.itemOf id) = r.dataOff := by
    rw [itemData_recAt, recAt_eq up.fresh.mem up.fresh.off]
  have data : slice s.log.mem r.dataOff r.data.length = r.data := by
    have mine := recAt_eq up.fresh.mem up.fresh.off
    have : (s.recAt id).data = slice s.log.mem (itemData s.log.mem (s.itemOf id))
        (nbytesOf s.log.mem (s.itemOf id)) := rfl
    rw [base, nbytesOf_recAt, mine] at this
    exact this.symm
  have fills := up.fresh.write_data h ritem bytes (by rw [base, up.cursor]; omega)
    (by rw [base, up.cursor]; omega)
  refine ⟨_, fills, fills.fresh, up.alone, ?_, ?_, ?_, ?_⟩
  · rw [up.cursor, List.length_append, Nat.add_assoc]
    rfl
  · rw [fills.length, List.length_append]
    omega
  · rw [fills.same, up.same]
  · change slice (write s.log.mem ritem bytes) (itemData s.log.mem (s.itemOf id)) r.data.length = _
    rw [base, up.cursor, slice_write_mid _ (by omega), data, up.data, List.take_left' rfl,
      List.length_append, List.drop_append, List.drop_eq_nil_of_le (by omega), List.nil_append,
      Nat.add_sub_cancel_left, List.drop_drop]

theorem ServerInv.recv {ritem rlbytes : ℕ} {start : Rec} {got bytes : List UInt8}
    (h : ServerInv srv lay leaked) (nread : srv.conns c = .nread comm id ritem rlbytes start got)
    (fits : bytes.length ≤ rlbytes) :
    Advances srv (srv.set c (srv.store.setMem (write srv.store.log.mem ritem bytes))
      (.nread comm id (ritem + bytes.length) (rlbytes - bytes.length) start (got ++ bytes)))
      lay lay leaked 0 a := by
  have own := h.conn c
  rw [nread] at own
  obtain ⟨r, up⟩ := own
  obtain ⟨r', fills, up'⟩ := up.recv h.inv fits
  have dirty : r.flags = dirtyFlags := up.fresh.flags
  have proper := h.sound.proper up.fresh.mem (by rw [dirty]; decide)
  have off : r'.off = r.off := by rw [fills.same]
  have known : r'.Known := by
    refine Or.inr ⟨⟨?_, ?_, ?_⟩, Or.inl up'.fresh.flags⟩
    · rw [fills.same]
      exact proper.short
    · obtain ⟨f, word, plain, suffix⟩ := proper.flags
      refine ⟨f, word, plain, ?_⟩
      rw [fills.length, ← suffix, fills.same]
    · rw [fills.length]
      exact proper.two
  have here : (srv.conns c).uploadOff srv.store = some r.off := by
    rw [nread, up.fresh.off]
    rfl
  have acts : Acts srv c (srv.store.setMem (write srv.store.log.mem ritem bytes))
      (.nread comm id (ritem + bytes.length) (rlbytes - bytes.length) start (got ++ bytes))
      lay lay 0 := by
    refine ⟨fills.inv, rfl, rfl, ?_, ?_, fun q hq other => ?_, ⟨r', up'⟩, fun o eq => ?_⟩
    · rw [fills.view]
      exact h.sound.put up.fresh.mem dirty off known
    · rw [nread]
      exact .of_metas rfl rfl
    · refine fills.mem hq fun same => other ?_
      rw [here, same]
    · refine Or.inl (here.trans ?_)
      rw [← eq, up.fresh.off]
      rfl
  refine h.advance acts (fun _ q hq _ => ?_) (fun _ => trivial) fun _ => rfl
  rw [journal_of_view fills.view, View.mem_put_iff h.sound up.fresh.mem off] at hq
  rcases hq with rfl | ⟨hq, other⟩
  · exact Or.inl (by rw [up'.fresh.off]; rfl)
  · refine Or.inr ⟨hq, fun eq => other ?_⟩
    rw [here] at eq
    exact h.sound.inj q hq r up.fresh.mem (Option.some.inj eq).symm

theorem ServerInv.settle {ritem rlbytes : ℕ} {start : Rec} {got : List UInt8} {accepts : Bool}
    (h : ServerInv srv lay leaked) (ok : srv.store.Roomy 1)
    (nread : srv.conns c = .nread comm id ritem rlbytes start got)
    (fresh : Fresh srv.store lay id r) (out : Outcome srv.store s' lay lay' {id} 0 v)
    (settled : Settled srv.store lay r accepts v) (settles : srv.Settles a → accepts = true) :
    Advances srv (srv.set c s' .idle) lay lay' leaked 0 a := by
  have journal : s'.journal lay' = v.recs := journal_of_view out.view
  have here : (srv.conns c).uploadOff srv.store = some r.off := by
    rw [nread, fresh.off]
    rfl
  have acts : Acts srv c s' .idle lay lay' 0 := by
    refine ⟨out.inv, out.setup.settings, out.setup.limit, out.view ▸ settled.sound, ?_,
      fun q hq other => ?_, trivial, by simp [Conn.uploadOff]⟩
    · rw [nread]
      exact out.moves ok
    · rw [journal]
      exact settled.kept q hq fun same => other (by rw [here, same])
  refine h.advance acts (fun cond q hq dirty => Or.inr ?_) (fun _ => trivial) fun _ => rfl
  rw [journal] at hq
  obtain ⟨mem, other⟩ := settled.dirty (settles cond) q hq dirty
  exact ⟨mem, fun eq => other (Option.some.inj (eq.symm.trans here))⟩

omit [DecidableEq ι] in
theorem ServerInv.joinOk {ritem : ℕ} {start : Rec} {got : List UInt8} (h : ServerInv srv lay leaked)
    (ok : srv.StepOk (.complete c)) (nread : srv.conns c = .nread comm id ritem 0 start got)
    (fresh : Fresh srv.store lay id r) : srv.store.JoinOk comm id r := by
  have dirty : r.flags = dirtyFlags := fresh.flags
  have proper := h.sound.proper fresh.mem (by rw [dirty]; decide)
  intro joins oldId found
  obtain ⟨f, holds⟩ := h.inv.holds h.sound found
  refine ⟨proper.two, holds.two, ok.fits _ ?_⟩
  simp only [Server.request, nread, if_pos joins, fresh.keyAt, found, Option.map_some]

omit [DecidableEq ι] in
/-- `Fresh.completeNreadAscii`, for an upload of the server. -/
theorem ServerInv.completes {ritem : ℕ} {start : Rec} {got : List UInt8} {reply : Reply}
    (h : ServerInv srv lay leaked) (ok : srv.StepOk (.complete c))
    (nread : srv.conns c = .nread comm id ritem 0 start got) (fresh : Fresh srv.store lay id r)
    (alone : (srv.store.metas id).refcount = 1)
    (run : srv.store.completeNreadAscii comm id = .ok (s', reply)) :
    ∃ lay', srv.store.dataBlockEnds id = true ∧
        (∃ result : StoreItemType, reply = result.reply ∧
          Stores srv.store s' lay lay' comm id r 0 result) ∨
      srv.store.dataBlockEnds id = false ∧ reply = .badDataChunk ∧
        Outcome srv.store s' lay lay' {id} 0
          ((srv.store.view lay).put { r with flags := corruptedFlags }) := by
  refine fresh.completeNreadAscii h.inv alone (fresh.apart h.inv h.sound) (fresh.proper h.sound).short
    (fresh.joinOk h.inv h.sound fun joins oldId found => ok.fits _ ?_) (fun _ _ _ => ok.quiet) run
  simp only [Server.request, nread, if_pos joins, fresh.keyAt, found, Option.map_some]

theorem ServerInv.complete {ritem : ℕ} {start : Rec} {got : List UInt8} {reply : Reply}
    (h : ServerInv srv lay leaked) (ok : srv.StepOk (.complete c))
    (nread : srv.conns c = .nread comm id ritem 0 start got)
    (run : srv.store.completeNreadAscii comm id = .ok (s', reply)) :
    ∃ lay', Advances srv (srv.set c s' .idle) lay lay' leaked 0 (.complete c) := by
  have own := h.conn c
  rw [nread] at own
  obtain ⟨r, up⟩ := own
  have dirty : r.flags = dirtyFlags := up.fresh.flags
  obtain ⟨lay', ⟨ends, result, -, stores⟩ | ⟨ends, -, out⟩⟩ :=
    h.completes ok nread up.fresh up.alone run
  · obtain ⟨v, out, settled⟩ := stores.sound h.inv h.sound up.fresh.mem dirty
    refine ⟨lay', h.settle ok.roomy nread up.fresh out settled fun settles => ?_⟩
    have := settles comm id ritem 0 start got nread ends
    rwa [up.fresh.keyAt] at this
  · have proper := h.sound.proper up.fresh.mem (by rw [dirty]; decide)
    have sound : (((srv.store.view lay).put { r with flags := corruptedFlags })).Sound :=
      h.sound.put up.fresh.mem dirty rfl
        (Or.inr ⟨⟨proper.short, proper.flags, proper.two⟩, Or.inr (Or.inr rfl)⟩)
    have settled : Settled srv.store lay r true _ :=
      h.sound.settled up.fresh.mem (by decide) rfl sound
    exact ⟨lay', h.settle ok.roomy nread up.fresh out settled fun _ => rfl⟩

end Storage

/-! ## Retrieval -/

theorem ServerInv.release {items : List ℕ} {segments : List Segment} {due : List UInt8}
    (h : ServerInv srv lay leaked) (ok : srv.store.Roomy 1)
    (mwrite : srv.conns c = .mwrite items segments due)
    (run : srv.store.connReleaseItems items = .ok s') :
    Advances srv (srv.set c s' .idle) lay lay leaked 0 a := by
  have run := removeAll_of_release run
  have same := sameTable_removeAll run
  have out : Outcome srv.store s' lay lay (srv.conns c).refs 0 (srv.store.view lay) := by
    refine ⟨h.inv.removeAll run, same.setup, same.view, fun _ => ?_⟩
    rw [mwrite]
    exact .removeAll run
  exact h.command ok out h.sound (.refl _) (by rw [mwrite]; rfl) rfl trivial trivial fun _ => rfl

theorem ServerInv.get {returnCas : Bool} {keys : List Key}
    {response : Option (List ℕ × List Segment)} (h : ServerInv srv lay leaked)
    (ok : srv.StepOk (.get c returnCas keys)) (idle : srv.conns c = .idle)
    (run : srv.store.processGetCommand returnCas keys = .ok (s', response)) :
    Advances srv (srv.set c s' (.answered s' response)) lay lay leaked 0
      (.get c returnCas keys) := by
  obtain ⟨retrieves, pinned⟩ := h.inv.processGetKeys h.sound ok.quiet (by simp) run
  have acts : Acts srv c s' (.answered s' response) lay lay 0 := by
    refine ⟨retrieves.inv, retrieves.setup.settings, retrieves.setup.limit, retrieves.sound, ?_,
      fun q hq _ => by rwa [retrieves.journal], ?_, ?_⟩
    · rw [idle, add_zero]
      have moves := retrieves.moves ok.roomy
      cases response <;> exact moves
    · cases response <;> trivial
    · cases response <;> simp [Conn.answered, Conn.uploadOff]
  refine h.advance acts (fun _ q hq _ => Or.inr ⟨?_, ?_⟩) (fun _ => ?_) fun _ => rfl
  · rwa [retrieves.journal] at hq
  · rw [idle]
    simp [Conn.uploadOff]
  · cases response with
    | none => trivial
    | some p => exact ⟨pinned p rfl, rfl⟩

/-- What is left of a response after `n` bytes. -/
theorem Pinned.sendBytes {s : Store} {items : List ℕ} {segments : List Segment} {n : ℕ}
    (pinned : ∀ segment ∈ segments, Pinned s lay items segment) :
    (∀ segment ∈ sendBytes n segments, Pinned s lay items segment) ∧
      renderAll s.log.mem (sendBytes n segments) = (renderAll s.log.mem segments).drop n := by
  induction segments generalizing n with
  | nil => exact ⟨by simp [LogMemcached.sendBytes], by simp [LogMemcached.sendBytes, renderAll]⟩
  | cons segment rest ih =>
    obtain ⟨here, later⟩ := List.forall_mem_cons.1 pinned
    have length : (segment.render s.log.mem).length = segment.length := by
      cases segment <;> simp [Segment.render, Segment.length]
    have cons (segs : List Segment) (seg : Segment) : renderAll s.log.mem (seg :: segs) =
        seg.render s.log.mem ++ renderAll s.log.mem segs := rfl
    rw [LogMemcached.sendBytes, cons, List.drop_append, length]
    split_ifs with whole
    · rw [List.drop_eq_nil_of_le (by omega), List.nil_append]
      exact ih later
    · have part : n < segment.length := by omega
      refine ⟨List.forall_mem_cons.2 ⟨?_, later⟩, ?_⟩
      · cases segment with
        | text bytes => trivial
        | range off len =>
          obtain ⟨id, hid, mem, flags, covers⟩ := here
          exact ⟨id, hid, mem, flags, covers.drop part⟩
      · rw [cons, Nat.sub_eq_zero_of_le part.le, List.drop_zero]
        congr 1
        cases segment with
        | text bytes => rfl
        | range off len =>
          obtain ⟨k, rfl⟩ := Nat.exists_eq_add_of_le (show n ≤ len from part.le)
          rw [Segment.drop, Segment.render, Segment.render, slice_add,
            List.drop_left' (length_slice ..), Nat.add_sub_cancel_left]

theorem ServerInv.send {items : List ℕ} {segments : List Segment} {due : List UInt8} {n : ℕ}
    (h : ServerInv srv lay leaked) (mwrite : srv.conns c = .mwrite items segments due) :
    Advances srv (srv.set c srv.store (.mwrite items (sendBytes n segments) (due.drop n)))
      lay lay leaked 0 a := by
  have acts : Acts srv c srv.store (.mwrite items (sendBytes n segments) (due.drop n)) lay lay 0 := by
    refine ⟨h.inv, rfl, rfl, h.sound, ?_, fun q hq _ => hq, trivial, by simp [Conn.uploadOff]⟩
    rw [mwrite, add_zero]
    exact .refl srv.store (items : Multiset ℕ)
  refine h.advance acts (fun _ q hq _ => Or.inr ⟨hq, ?_⟩) (fun before => ?_) fun _ => rfl
  · rw [mwrite]
    simp [Conn.uploadOff]
  · rw [mwrite] at before
    obtain ⟨pinned, eq⟩ := before
    obtain ⟨pinned', eq'⟩ := Pinned.sendBytes (n := n) pinned
    exact ⟨pinned', by rw [eq', eq]⟩

/-! ## Commands in one step -/

section Commands

variable {key : Key} {id : ℕ}

theorem ServerInv.relogs {given : ℕ → ℕ} (h : ServerInv srv lay leaked) (ok : srv.store.Roomy 1)
    (idle : srv.conns c = .idle) (short : key.length ≤ 250)
    (relogs : Relogs srv.store s' lay lay' key given)
    (reads : ∀ id f, srv.store.find key = some id → Holds srv.store lay key id f → given id = f) :
    Advances srv (srv.set c s' .idle) lay lay' leaked 0 a := by
  obtain ⟨v, out, sound, grows⟩ := relogs.sound h.inv h.sound short reads
  exact h.command ok (by rw [idle]; exact out) sound grows (by rw [idle]; rfl) rfl trivial trivial
    fun _ => rfl

theorem ServerInv.stay (h : ServerInv srv lay leaked) (ok : srv.store.Roomy 1)
    (idle : srv.conns c = .idle) :
    Advances srv (srv.set c srv.store .idle) lay lay leaked 0 a := by
  have out : Outcome srv.store srv.store lay lay 0 0 (srv.store.view lay) :=
    ⟨h.inv, .refl _, rfl, fun _ => .refl _ 0⟩
  exact h.command ok (by rw [idle]; exact out) h.sound (.refl _) (by rw [idle]; rfl) rfl trivial
    trivial fun _ => rfl

theorem ServerInv.touch {exptime : ℤ} {reply : Reply} (h : ServerInv srv lay leaked)
    (ok : srv.StepOk (.touch c key exptime)) (idle : srv.conns c = .idle)
    (run : srv.store.processTouchCommand key exptime = .ok (s', reply)) :
    ∃ lay', Advances srv (srv.set c s' .idle) lay lay' leaked 0 a := by
  unfold Store.processTouchCommand at run
  split_ifs at run with long
  · obtain ⟨rfl, -⟩ := pair_ran.1 run
    exact ⟨lay, h.stay ok.roomy idle⟩
  · obtain ⟨⟨s₁, it⟩, touch, run⟩ := bind_ran.1 run
    obtain ⟨rfl, -⟩ := pair_ran.1 run
    have short : key.length ≤ 250 := not_lt.1 long
    obtain ⟨lay', relogs⟩ := h.inv.doItemTouch short ok.fits touch
    exact ⟨lay', h.relogs ok.roomy idle short relogs fun _ _ _ holds => holds.client⟩

theorem ServerInv.arithmetic {incr : Bool} {delta : ℕ} {reply : Reply} (h : ServerInv srv lay leaked)
    (ok : srv.StepOk (.arithmetic c key incr delta)) (idle : srv.conns c = .idle)
    (run : srv.store.processArithmeticCommand key incr delta = .ok (s', reply)) :
    ∃ lay' leak, Advances srv (srv.set c s' .idle) lay lay' leaked leak
      (.arithmetic c key incr delta) := by
  unfold Store.processArithmeticCommand at run
  split_ifs at run with long
  · obtain ⟨rfl, -⟩ := pair_ran.1 run
    exact ⟨lay, 0, h.stay ok.roomy idle⟩
  · obtain ⟨⟨s₁, result⟩, delta, run⟩ := bind_ran.1 run
    obtain ⟨rfl, -⟩ := pair_ran.1 run
    have short : key.length ≤ 250 := not_lt.1 long
    obtain ⟨lay', relogs | ⟨id, found, tiny, out⟩⟩ := h.inv.doAddDelta short
      (fun _ _ _ => ok.fits) delta
    · exact ⟨lay', 0, h.relogs ok.roomy idle short relogs fun _ _ _ holds => holds.delta⟩
    · refine ⟨lay', {id}, h.command ok.roomy ?_ h.sound (.refl _) (by rw [idle]; rfl) rfl trivial
        trivial fun noLeak => ?_⟩
      · rw [idle]
        exact out
      · exact absurd tiny (not_le.2 (noLeak id found))

/-! ## Deletion -/

theorem ServerInv.deleteLookup {it : Option ℕ} (h : ServerInv srv lay leaked)
    (ok : srv.store.Roomy 1) (idle : srv.conns c = .idle) (short : key.length ≤ 250)
    (run : srv.store.doItemGet key = .ok (s', it)) :
    Advances srv (srv.set c s' (it.elim .idle (.found key))) lay lay leaked 0 a := by
  cases it with
  | none =>
    exact h.command ok (by rw [idle]; exact h.inv.get_missing run) (h.sound.unlink key)
      ((View.Grows.refl _).unlink key) (by rw [idle]; rfl) rfl trivial trivial fun _ => rfl
  | some id =>
    obtain ⟨-, -, hkey, inv, same⟩ := h.inv.get_some run
    have out : Outcome srv.store s' lay lay 0 {id} (srv.store.view lay) :=
      ⟨inv, same.setup, same.view, fun room => .get h.inv room.lt run⟩
    exact h.command ok (by rw [idle]; exact out) h.sound (.refl _) (by rw [idle]; rfl) rfl
      ⟨short, fun _ => hkey⟩ trivial fun _ => rfl

omit [Fintype ι] [DecidableEq ι] in
theorem deleteLog_succeeds {s : Store} {succeed : Bool} (useCas : s.settings.useCas = true)
    (fits : deleteRequest key ≤ (s.log.turn (deleteRequest key)).memAvail)
    (run : s.deleteLog key = .ok (s', succeed)) : succeed = true := by
  obtain ⟨⟨s₁, it, done⟩, alloc, run⟩ := bind_ran.1 run
  obtain ⟨rfl, rfl⟩ := pair_ran.1 run
  unfold Store.doItemAlloc at alloc
  have retry : ∃ log o, memlogAllocRetry 3 s.log (deleteRequest key) = (log, some o) := by
    simp only [memlogAllocRetry, memoryAllocate, if_neg (not_lt.2 fits)]
    exact ⟨_, _, rfl⟩
  obtain ⟨log, o, retry⟩ := retry
  have retry : memlogAllocRetry 3 s.log
      (allocTotal s.settings.useCas key.length itemDeleted.toNat 0) = (log, some o) := by
    rw [useCas]
    exact retry
  simp only [retry] at alloc
  rw [if_pos (by decide)] at alloc
  have := Except.ok.inj alloc
  simp only [Prod.mk.injEq] at this
  exact this.2.2.symm

theorem ServerInv.deleteLog {succeed : Bool} (h : ServerInv srv lay leaked)
    (ok : srv.StepOk (.deleteLog c)) (found : srv.conns c = .found key id)
    (run : srv.store.deleteLog key = .ok (s', succeed)) :
    ∃ lay' leak, Advances srv (srv.set c s' (if succeed then .logged id else .idle)) lay lay' leaked
      leak (.deleteLog c) := by
  have own := h.conn c
  rw [found] at own
  have room := ok.fits (deleteRequest key) (by simp only [Server.request, found])
  obtain ⟨lay', -, -, ⟨failed, out⟩ | ⟨rfl, r, hkey, hflags, new, out⟩⟩ :=
    h.inv.deleteLog own.1 room run
  · refine ⟨lay', {id}, ?_⟩
    have moved : Outcome srv.store s' lay lay' {id} {id} (srv.store.view lay) :=
      ⟨out.inv, out.setup, out.view, fun room => (out.moves room).beside {id}⟩
    rw [failed]
    refine h.command ok.roomy ?_ h.sound (.refl _) (by rw [found]; rfl) rfl trivial trivial
      fun noLeak => ?_
    · rw [found]
      exact moved
    · have := deleteLog_succeeds h.inv.useCas (noLeak key id found) run
      rw [failed] at this
      cases this
  · refine ⟨lay', 0, ?_⟩
    have moved : Outcome srv.store s' lay lay' {id} {id} ((srv.store.view lay).log r) :=
      ⟨out.inv, out.setup, out.view, fun room => (out.moves room).beside {id}⟩
    exact h.command ok.roomy (by rw [found]; exact moved) (h.sound.tombstone hflags new)
      (.log _ (by rw [hflags]; decide)) (by rw [found]; rfl) rfl trivial trivial fun _ => rfl

theorem ServerInv.deleteUnlink (h : ServerInv srv lay leaked) (ok : srv.store.Roomy 1)
    (logged : srv.conns c = .logged id) (run : srv.store.deleteUnlink id = .ok s') :
    Advances srv (srv.set c s' .idle) lay lay leaked 0 a := by
  refine h.command ok (by rw [logged]; exact h.inv.deleteUnlink run) ?_ ?_ (by rw [logged]; rfl) rfl
    trivial trivial fun _ => rfl
  · split_ifs
    · exact h.sound.unlink _
    · exact h.sound
  · split_ifs
    · exact (View.Grows.refl _).unlink _
    · exact .refl _

end Commands

/-! ## Flushing and time -/

section Clock

variable {s : Store}

theorem ServerInv.flushAll (h : ServerInv srv lay leaked) (exptime : ℤ)
    (idle : srv.conns c = .idle) :
    Advances srv (srv.set c (srv.store.flushAll exptime).1 .idle) lay lay leaked 0 a := by
  obtain ⟨oldestLive, oldestCas, casId, eq⟩ := flushAll_eq srv.store exptime
  rw [eq]
  have acts : Acts srv c (srv.store.reclock srv.store.currentTime oldestLive oldestCas casId) .idle
      lay lay 0 := by
    refine ⟨h.inv.reclock .., rfl, rfl, h.sound, ?_, fun q hq _ => hq, trivial,
      by simp [Conn.uploadOff]⟩
    rw [idle]
    exact .of_metas rfl rfl
  refine h.advance acts (fun _ q hq _ => Or.inr ⟨hq, ?_⟩) (fun _ => trivial) fun _ => rfl
  rw [idle]
  simp [Conn.uploadOff]

omit [DecidableEq ι] in
theorem ServerInv.tick (h : ServerInv srv lay leaked) (n : ℕ) :
    Advances srv
      { srv with store := { srv.store with currentTime := srv.store.currentTime + n } }
      lay lay leaked 0 (.tick n) := by
  have inv := h.inv.reclock (srv.store.currentTime + n) srv.store.oldestLive srv.store.oldestCas
    srv.store.casId
  refine ⟨⟨inv, ?_, h.sound, fun c => ?_, fun c c' o eq eq' => ?_⟩, rfl, rfl,
    fun _ claimed q hq dirty => ?_, fun _ answers c => ?_, fun _ => rfl⟩
  · rw [add_zero]
    exact h.counted.congr rfl rfl
  · exact (h.conn c).kept (fun _ _ => .of_metas rfl) (fun q hq _ => hq) fun _ _ _ => rfl
  · exact h.apart c c' o ((uploadOff_kept fun _ _ => .of_metas rfl).symm.trans eq)
      ((uploadOff_kept fun _ _ => .of_metas rfl).symm.trans eq')
  · obtain ⟨c, eq⟩ := claimed q hq dirty
    exact ⟨c, (uploadOff_kept fun _ _ => .of_metas rfl).trans eq⟩
  · exact (answers c).kept (fun _ _ => rfl) fun _ _ mem _ => mem

end Clock

/-! ## Closing -/

theorem ServerInv.abandon {comm : NreadComm} {id ritem rlbytes : ℕ} {start : Rec}
    {got : List UInt8} (h : ServerInv srv lay leaked)
    (nread : srv.conns c = .nread comm id ritem rlbytes start got)
    (run : srv.store.doItemRemove id = .ok s') :
    Advances srv (srv.set c s' .idle) lay lay leaked 0 (.close c) := by
  have same := sameTable_doItemRemove run
  have acts : Acts srv c s' .idle lay lay 0 := by
    refine ⟨h.inv.doItemRemove run, same.settings, by rw [same.log], by rw [same.view]; exact h.sound,
      ?_, fun q hq _ => by rwa [same.journal], trivial, by simp [Conn.uploadOff]⟩
    rw [nread]
    exact .drop run
  refine h.advance acts (fun settles => ?_) (fun _ => trivial) fun _ => rfl
  rw [Server.Settles, nread] at settles
  cases settles

/-! ## Cleaning -/

omit [DecidableEq ι] in
theorem ServerInv.clean (h : ServerInv srv lay leaked) (ok : srv.StepOk .clean)
    (run : srv.store.lruMaintainerFree = .ok s') :
    ∃ lay', Advances srv { srv with store := s' } lay lay' leaked 0 .clean := by
  obtain ⟨guard, n, clean⟩ | rfl := lruMaintainerFree_ran run
  · obtain ⟨lay', k, out, near, items⟩ := h.inv.clean guard clean
    have journal : s'.journal lay' = (srv.store.journal lay).drop k := journal_of_view out.view
    have sub {q : Rec} (hq : q ∈ s'.journal lay') : q ∈ srv.store.journal lay := by
      rw [journal] at hq
      exact List.mem_of_mem_drop hq
    have stays {q : Rec} (hq : q ∈ srv.store.journal lay) (spared : ¬srv.Passes .clean q.off) :
        q ∈ s'.journal lay' := by
      rw [journal]
      rw [← List.take_append_drop k (srv.store.journal lay)] at hq
      rcases List.mem_append.1 hq with gone | stays
      · exact absurd ⟨rfl, guard, near q gone⟩ spared
      · exact stays
    have counted := h.counted
    rw [← zero_add (srv.refs + leaked)] at counted
    obtain ⟨after, kept⟩ := out.moves ok.roomy _ counted
    have held {c : ι} {k : ℕ} (hk : k ∈ (srv.conns c).refs) : Kept srv.store s' k :=
      kept k (Multiset.mem_add.2 (Or.inl (Multiset.mem_sum.2 ⟨c, Finset.mem_univ c, hk⟩)))
    have uploads (c : ι) : (srv.conns c).uploadOff s' = (srv.conns c).uploadOff srv.store :=
      uploadOff_kept fun k hk => held hk
    have inv : ServerInv { srv with store := s' } lay' (leaked + 0) := by
      refine ⟨out.inv, ?_, by rw [out.view]; exact h.sound.drop k, fun c => ?_, fun c c' o eq eq' => ?_⟩
      · rw [add_zero, ← zero_add (Server.refs _ + leaked)]
        exact after
      · refine (h.conn c).kept (fun k hk => held hk) (fun q hq eq => stays hq (ok.spares c _ eq))
          fun k hk linked => ?_
        have mem := sub (out.inv.recAt_mem ((out.inv.linked k).2 linked))
        have same : srv.store.recAt k = s'.recAt k := recAt_eq mem (items k)
        exact (congrArg Rec.key same).symm
      · exact h.apart c c' o ((uploads c).symm.trans eq) ((uploads c').symm.trans eq')
    refine ⟨lay', inv, out.setup.settings, out.setup.limit, fun _ claimed q hq dirty => ?_,
      fun spares before c => ?_, fun _ => rfl⟩
    · obtain ⟨c, eq⟩ := claimed q (sub hq) dirty
      exact ⟨c, (uploads c).trans eq⟩
    · exact (before c).kept (fun k _ => items k) fun k hk mem _ => stays mem (spares c k hk)
  · refine ⟨lay, ?_, rfl, rfl, fun _ claimed => claimed, fun _ answers => answers, fun _ => rfl⟩
    rw [add_zero]
    exact h

/-! ## Every step -/

omit [DecidableEq ι] in
theorem ServerInv.same (h : ServerInv srv lay leaked) : Advances srv srv lay lay leaked 0 a :=
  ⟨by rw [add_zero]; exact h, rfl, rfl, fun _ claimed => claimed, fun _ answers => answers,
    fun _ => rfl⟩

theorem ServerInv.step (h : ServerInv srv lay leaked) (ok : srv.StepOk a)
    (step : srv.Step a srv') : ∃ lay' leak, Advances srv srv' lay lay' leaked leak a := by
  cases step.performs with
  | reply idle run =>
    obtain ⟨lay', opens⟩ := h.inv.processUpdateCommand (UInt32.toNat_lt _) ok.fits run
    exact ⟨lay', 0, h.opens_reply ok.roomy idle opens⟩
  | upload idle run =>
    obtain ⟨lay', opens⟩ := h.inv.processUpdateCommand (UInt32.toNat_lt _) ok.fits run
    exact ⟨lay', 0, h.opens_upload ok.roomy (UInt32.toNat_lt _) idle opens⟩
  | recv nread fits => exact ⟨lay, 0, h.recv nread fits⟩
  | complete nread run =>
    obtain ⟨lay', advances⟩ := h.complete ok nread run
    exact ⟨lay', 0, advances⟩
  | get idle run => exact ⟨lay, 0, h.get ok idle run⟩
  | send mwrite => exact ⟨lay, 0, h.send mwrite⟩
  | release mwrite run => exact ⟨lay, 0, h.release ok.roomy mwrite run⟩
  | touch idle run =>
    obtain ⟨lay', advances⟩ := h.touch ok idle run
    exact ⟨lay', 0, advances⟩
  | arithmetic idle run => exact h.arithmetic ok idle run
  | deleteLong idle long => exact ⟨lay, 0, h.same⟩
  | deleteLookup idle short run => exact ⟨lay, 0, h.deleteLookup ok.roomy idle short run⟩
  | deleteLog found run => exact h.deleteLog ok found run
  | deleteUnlink logged run => exact ⟨lay, 0, h.deleteUnlink ok.roomy logged run⟩
  | flushAll idle => exact ⟨lay, 0, h.flushAll _ idle⟩
  | closeIdle idle => exact ⟨lay, 0, h.same⟩
  | closeUpload nread run => exact ⟨lay, 0, h.abandon nread run⟩
  | closeResponse mwrite run => exact ⟨lay, 0, h.release ok.roomy mwrite run⟩
  | clean run =>
    obtain ⟨lay', advances⟩ := h.clean ok run
    exact ⟨lay', 0, advances⟩
  | tick n => exact ⟨lay, 0, h.tick n⟩

end LogMemcached

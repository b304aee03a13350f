import LogMemcached.Lib.Run
import LogMemcached.SequenceSteps
import LogMemcached.StorageSpec

/-!
# What whole commands do to the contents

For each command of a single client: a storage command does what `Contents.store` says with the
entry that was sent, and any other command lets entries fade, after at most one link under its key.
-/

namespace LogMemcached

open ByteMem CText Tiling Fallible Store

variable {s s₁ s₂ s' : Store} {lay lay' : Layout} {id flags : ℕ} {key : Key} {comm : NreadComm}
  {block : List UInt8} {r : Rec} {answer : Answer}

def Command.target : Command → Key
  | .store _ key _ _ _ _ => key
  | .touch key _ => key
  | .arithmetic key _ _ => key
  | _ => []

/-! ## Storage commands -/

theorem itemGetCas_write_data {m : Mem} {o a : ℕ} {bytes : List UInt8} (low : itemData m o ≤ a) :
    itemGetCas (write m a bytes) o = itemGetCas m o := by
  simp only [itemData, sizeofItemData] at low
  have flags : flagsOf (write m a bytes) o = flagsOf m o := write_outside (by omega)
  rw [itemGetCas, itemGetCas, flags]
  split_ifs with cas
  · rw [casRoom, if_pos cas] at low
    exact u64_congr (agree_write (by simp only [sizeofItemData]; omega))
  · rfl

theorem StoreInv.contents_receive {exptime : ℤ} {cas : ℕ} (h : StoreInv s lay)
    (sound : (s.view lay).Sound) (word : flags < 2 ^ 32)
    (room : ∀ n, updateRequest key flags (vlenOf block) = some n → RoomFor s n)
    (opens : Opens s s₁ lay lay' comm key flags (vlenOf block) (.upload id))
    (run : s.processUpdateCommand comm key flags exptime (vlenOf block) cas =
      .ok (s₁, .upload id)) :
    (s₁.receive id block).contents = s.contents ∧
      ((s₁.receive id block).entryOf id).data = block ∧
      ((s₁.receive id block).entryOf id).flags = flags ∧
      ((s₁.receive id block).entryOf id).exptime = s.updateExptime exptime % 2 ^ 32 ∧
      ((s₁.receive id block).entryOf id).cas = cas % 2 ^ 64 := by
  obtain ⟨same, hflags, hexptime, hcas⟩ := h.contents_upload word room run
  cases opens with
  | upload _ r plain fresh alone new hkey short value suffix length out =>
    have count : block.length = r.data.length := by
      unfold vlenOf at length
      omega
    have sound₁ : (s₁.view lay').Sound := by
      rw [out.view]
      exact sound.log (.inr ⟨⟨hkey ▸ short, ⟨flags, word, plain, suffix⟩, by omega⟩,
        .inl fresh.flags⟩) new
    have apart := StoreInv.apart_of_dirty out.inv sound₁ fresh.mem fresh.flags
    obtain ⟨r', fills, data, kept⟩ := fresh.fills_data out.inv apart count
    obtain ⟨edata, eflags, eexptime⟩ := entryOf_rec fills.fresh.mem fills.fresh.off
    obtain ⟨-, eflags₁, eexptime₁⟩ := entryOf_rec fresh.mem fresh.off
    have rest : r'.suffix = r.suffix ∧ r'.exptime = r.exptime := by
      rw [fills.same]
      exact ⟨rfl, rfl⟩
    refine ⟨kept.trans same, edata.trans data, ?_, ?_, ?_⟩
    · rw [← hflags, eflags₁, ← rest.1]
      exact eflags
    · rw [← hexptime, eexptime₁, ← rest.2]
      exact eexptime
    · rw [← hcas]
      exact itemGetCas_write_data le_rfl

/-- What a storage command does to the contents: it is answered before or without the storage code
and lets entries fade, or it runs `Contents.store` with the entry that was sent. -/
inductive StoreTurn (c : Contents) (comm : NreadComm) (key : Key) (flags exptime cas : ℕ)
    (block : List UInt8) : Reply → Contents → Prop
  | refused {reply : Reply} {c' : Contents} (failed : reply ≠ .stored) (fades : c.Fades c') :
      StoreTurn c comm key flags exptime cas block reply c'
  | ran (req : Content) (served : Bool) (data : req.data = block) (hflags : req.flags = flags)
      (hexptime : req.exptime = exptime) (hcas : req.cas = cas) (ended : LineEnded block) :
      StoreTurn c comm key flags exptime cas block (c.store comm key req served).2.reply
        (c.store comm key req served).1

theorem processUpdateCommand_failed {exptime vlen : ℤ} {cas : ℕ} {reply : Reply}
    (run : s.processUpdateCommand comm key flags exptime vlen cas = .ok (s', .reply reply)) :
    reply ≠ .stored := by
  unfold Store.processUpdateCommand at run
  split_ifs at run
  · cases pure_ran.1 run
    decide
  · cases pure_ran.1 run
    decide
  · obtain ⟨⟨s₁, it, succeed⟩, -, run⟩ := bind_ran.1 run
    cases it with
    | some id => cases pure_ran.1 run
    | none =>
      obtain ⟨s₂, -, run⟩ := bind_ran.1 run
      cases pure_ran.1 run
      split_ifs <;> decide

theorem Steady.contents_store {flags : UInt32} {exptime : ℤ} {cas : UInt64} (h : Steady s lay)
    (fits : s.Fits (.store comm key flags exptime cas block))
    (run : s.exec (.store comm key flags exptime cas block) = .ok (s', answer)) :
    ∃ reply, answer = .line reply ∧ StoreTurn s.contents comm key flags.toNat
      (s.updateExptime exptime % 2 ^ 32) cas.toNat block reply s'.contents := by
  obtain ⟨⟨s₁, update⟩, header, run⟩ := bind_ran.1 run
  have word : flags.toNat < 2 ^ 32 := flags.toNat_lt
  cases update with
  | reply reply =>
    obtain ⟨rfl, rfl⟩ := pair_ran.1 run
    exact ⟨reply, rfl, .refused (processUpdateCommand_failed header)
      (h.inv.fades_reply word fits.first header)⟩
  | upload id =>
    obtain ⟨⟨s₂, reply⟩, complete, run⟩ := bind_ran.1 run
    obtain ⟨rfl, rfl⟩ := pair_ran.1 run
    obtain ⟨lay₁, opens⟩ := h.inv.processUpdateCommand word fits.first header
    obtain ⟨same, data, hflags, hexptime, hcas⟩ :=
      h.inv.contents_receive h.sound word fits.first opens header
    obtain ⟨r, received⟩ := opens.received word h.sound
    have dirty : r.flags = dirtyFlags := received.fresh.flags
    have proper := received.sound.proper received.fresh.mem (by rw [dirty]; decide)
    have join : (s₁.receive id block).JoinOk comm id r := by
      intro joins oldId found
      rw [received.hkey] at found
      obtain ⟨f, holds⟩ := received.inv.holds received.sound found
      exact ⟨proper.two, holds.two, fits.second joins s₁ id oldId header found⟩
    have quiet : (s₁.receive id block).settings.lruLogEnabled = false := by
      rw [received.setup.settings, h.off]
    have two : 2 ≤ ((s₁.receive id block).entryOf id).data.length := by
      rw [(entryOf_rec received.fresh.mem received.fresh.off).1]
      exact proper.two
    refine ⟨reply, rfl, ?_⟩
    rcases received.fresh.contents_complete received.inv received.sound received.alone join quiet
      complete with ⟨ends, result, rfl, eq⟩ | ⟨-, rfl, eq⟩
    · rw [same, received.hkey] at eq
      have ended := (dataBlockEnds_iff two).1 ends
      rw [data] at ended
      have ran : StoreTurn s.contents comm key flags.toNat (s.updateExptime exptime % 2 ^ 32)
          cas.toNat block _ _ :=
        .ran ((s₁.receive id block).entryOf id) ((s₁.receive id block).joinServed id) data hflags
          hexptime (hcas.trans (Nat.mod_eq_of_lt cas.toNat_lt)) ended
      rw [← eq] at ran
      exact ran
    · exact .refused (by decide) (.of_eq (eq.trans same))

theorem StoreTurn.turns {c c' : Contents} {exptime cas : ℕ} {reply : Reply}
    (h : StoreTurn c comm key flags exptime cas block reply c') : c.Turns c' key fun _ => True := by
  cases h with
  | refused _ fades => exact .inl fades
  | ran req served => exact Contents.turns_store trivial fun _ _ => trivial

/-! ## Other commands -/

theorem Steady.fades_delete (h : Steady s lay)
    (room : ∀ n, s.request (.delete key) = some n → RoomFor s n)
    (run : s.exec (.delete key) = .ok (s', answer)) : s.contents.Fades s'.contents := by
  obtain ⟨⟨s₁, reply⟩, command, run⟩ := bind_ran.1 run
  obtain ⟨rfl, -⟩ := pair_ran.1 run
  unfold Store.processDeleteCommand at command
  split_ifs at command with long
  · obtain ⟨rfl, -⟩ := pair_ran.1 command
    exact .refl _
  · obtain ⟨⟨s₂, it⟩, get, command⟩ := bind_ran.1 command
    obtain ⟨look, -, -⟩ := h.inv.contents_get get
    have looked : s.contents.Fades s₂.contents := look ▸ Contents.fades_look _ key
    cases it with
    | none =>
      obtain ⟨rfl, -⟩ := pair_ran.1 command
      exact looked
    | some id =>
      obtain ⟨found, -, -, inv₂, table⟩ := h.inv.get_some get
      obtain ⟨⟨s₃, succeed⟩, log, command⟩ := bind_ran.1 command
      have room : RoomFor s₂ (deleteRequest key) :=
        (room _ (by rw [Store.request, found]; rfl)).congr table.log
      have logged := looked.trans (.of_eq (StoreInv.contents_deleteLog inv₂ (not_lt.1 long) room log))
      have kept : ∃ lay₃, StoreInv s₃ lay₃ := by
        obtain ⟨lay₃, -, -, ⟨-, out⟩ | ⟨-, r, -, -, -, out⟩⟩ :=
          StoreInv.deleteLog inv₂ (not_lt.1 long) room log <;> exact ⟨lay₃, out.inv⟩
      obtain ⟨lay₃, inv₃⟩ := kept
      cases succeed with
      | false =>
        obtain ⟨rfl, -⟩ := pair_ran.1 command
        exact logged
      | true =>
        obtain ⟨s₄, unlink, command⟩ := bind_ran.1 command
        obtain ⟨rfl, -⟩ := pair_ran.1 command
        exact logged.trans (StoreInv.fades_deleteUnlink inv₃ unlink)

theorem Steady.fades_binDelete {cas : ℕ} (h : Steady s lay)
    (run : s.exec (.binDelete key cas) = .ok (s', answer)) : s.contents.Fades s'.contents := by
  obtain ⟨⟨s₁, succeed⟩, command, run⟩ := bind_ran.1 run
  obtain ⟨rfl, -⟩ := pair_ran.1 run
  obtain ⟨⟨s₂, it⟩, get, command⟩ := bind_ran.1 command
  obtain ⟨look, -, -⟩ := h.inv.contents_get get
  have looked : s.contents.Fades s₂.contents := look ▸ Contents.fades_look _ key
  cases it with
  | none =>
    obtain ⟨rfl, -⟩ := pair_ran.1 command
    exact looked
  | some id =>
    obtain ⟨-, -, -, inv₂, -⟩ := h.inv.get_some get
    dsimp only at command
    split_ifs at command
    · obtain ⟨s₃, unlink, command⟩ := bind_ran.1 command
      obtain ⟨s₄, remove, command⟩ := bind_ran.1 command
      obtain ⟨rfl, -⟩ := pair_ran.1 command
      exact looked.trans (StoreInv.fades_deleteUnlink inv₂ (bind_ran.2 ⟨s₃, unlink, remove⟩))
    · obtain ⟨s₃, remove, command⟩ := bind_ran.1 command
      obtain ⟨rfl, -⟩ := pair_ran.1 command
      exact looked.trans (.of_eq (contents_doItemRemove remove))

theorem Steady.fades_get {returnCas : Bool} {keys : List Key} (h : Steady s lay)
    (run : s.exec (.get returnCas keys) = .ok (s', answer)) : s.contents.Fades s'.contents := by
  obtain ⟨⟨s₁, response⟩, command, run⟩ := bind_ran.1 run
  have fades := h.inv.fades_getKeys h.off command
  cases response with
  | none =>
    obtain ⟨rfl, -⟩ := pair_ran.1 run
    exact fades
  | some p =>
    obtain ⟨s₂, release, run⟩ := bind_ran.1 run
    obtain ⟨rfl, -⟩ := pair_ran.1 run
    exact fades.trans (.of_eq (contents_removeAll (removeAll_of_release release)))

/-- Every command but `flush_all` and the clock lets entries fade, after at most one link under its
key. -/
theorem Steady.turns {cmd : Command} (h : Steady s lay) (fits : s.Fits cmd)
    (noFlush : ∀ exptime, cmd ≠ .flushAll exptime) (noTick : ∀ n, cmd ≠ .tick n)
    (run : s.exec cmd = .ok (s', answer)) :
    s.contents.Turns s'.contents cmd.target fun _ => True := by
  cases cmd with
  | store comm key flags exptime cas block =>
    obtain ⟨reply, -, turn⟩ := h.contents_store fits run
    exact turn.turns
  | get returnCas keys => exact .inl (h.fades_get run)
  | touch key exptime =>
    obtain ⟨⟨s₁, reply⟩, command, run⟩ := bind_ran.1 run
    obtain ⟨rfl, -⟩ := pair_ran.1 run
    exact h.inv.turns_touch fits.first (fun _ _ _ => trivial) command
  | arithmetic key incr delta =>
    obtain ⟨⟨s₁, reply⟩, command, run⟩ := bind_ran.1 run
    obtain ⟨rfl, -⟩ := pair_ran.1 run
    refine h.inv.turns_arithmetic h.sound (fun id found large n request => fits.first n ?_)
      (fun _ _ _ => trivial) command
    have found : s.find key = some id := found
    have request : s.deltaRequest key incr delta = some n := request
    simp only [Store.request, found, Option.bind_some, if_neg (not_le.2 large), request]
  | delete key => exact .inl (h.fades_delete fits.first run)
  | binDelete key cas => exact .inl (h.fades_binDelete run)
  | flushAll exptime => exact absurd rfl (noFlush exptime)
  | clean =>
    obtain ⟨s₁, command, run⟩ := bind_ran.1 run
    obtain ⟨rfl, -⟩ := pair_ran.1 run
    exact .inl (h.inv.fades_clean command)
  | tick n => exact absurd rfl (noTick n)

/-! ## Runs -/

structure LogStep (s : Store) (cmd : Command) (s' : Store) : Prop where
  fits : s.Fits cmd
  ran : ∃ answer, s.exec cmd = .ok (s', answer)

theorem Steady.clock {cmd : Command} (h : Steady s lay) (fits : s.Fits cmd)
    (run : s.exec cmd = .ok (s', answer)) : s.currentTime ≤ s'.currentTime := by
  by_cases noFlush : ∀ exptime, cmd ≠ .flushAll exptime
  · by_cases noTick : ∀ n, cmd ≠ .tick n
    · have now : s'.contents.now = s.contents.now := by
        rcases h.turns fits noFlush noTick run with fades | ⟨e, -, fades⟩
        · exact fades.now
        · exact fades.now
      exact now.ge
    · push Not at noTick
      obtain ⟨n, rfl⟩ := noTick
      obtain ⟨rfl, -⟩ := pair_ran.1 run
      exact Nat.le_add_right ..
  · push Not at noFlush
    obtain ⟨exptime, rfl⟩ := noFlush
    obtain ⟨rfl, -⟩ := pair_ran.1 run
    obtain ⟨oldestLive, oldestCas, casId, eq⟩ := flushAll_eq s exptime
    rw [eq]
    exact le_rfl

theorem steady_of_run {settings : Settings} {limit now : ℕ} {cmds : List Command}
    (cas : settings.useCas = true) (off : settings.lruLogEnabled = false) (large : 35 ≤ limit)
    (small : limit < 2 ^ 32) (run : Transition.Run LogStep (Store.init settings limit now) cmds s) :
    ∃ lay, Steady s lay := by
  refine run.invariant (fun s => ∃ lay, Steady s lay) ?_
    ⟨_, Store.init_inv large small cas, .init, off⟩
  rintro s cmd s' ⟨lay, h⟩ ⟨fits, answer, ran⟩
  exact h.exec fits ran

theorem clock_of_run {settings : Settings} {limit now : ℕ} {cmds : List Command}
    (cas : settings.useCas = true) (off : settings.lruLogEnabled = false) (large : 35 ≤ limit)
    (small : limit < 2 ^ 32) (run : Transition.Run LogStep (Store.init settings limit now) cmds s) :
    now ≤ s.currentTime := by
  have both := run.invariant (fun s => (∃ lay, Steady s lay) ∧ now ≤ s.currentTime) (by
    rintro s cmd s' ⟨⟨lay, h⟩, clock⟩ ⟨fits, answer, ran⟩
    exact ⟨h.exec fits ran, clock.trans (h.clock fits ran)⟩)
    ⟨⟨_, Store.init_inv large small cas, .init, off⟩, le_rfl⟩
  exact both.2

end LogMemcached

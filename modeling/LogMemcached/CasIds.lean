import LogMemcached.ClientFlags
import LogMemcached.SequenceContents

/-!
# CAS ids

Every link draws the next id, and nothing changes the id of a linked item.  So an id belongs to one
link, and once its item has left the key the id does not come back.  A `cas` is stored exactly when
the item that can be seen has the id it was sent, unless its own record cannot be made.
-/

namespace LogMemcached

open ByteMem Tiling Fallible Transition Store

variable {s s' t : Store} {lay : Layout} {key : Key} {cmd : Command} {answer : Answer}
  {settings : Settings} {limit now u : ℕ}

/-! ## What a command does to the contents -/

/-- `oldest_live` as `flush_all` sets it when CAS ids are in use. -/
def Store.flushMark (s : Store) (exptime : ℤ) : ℕ :=
  ((if exptime > 0 then s.realtime exptime else s.currentTime) + (2 ^ 32 - 1)) % 2 ^ 32

/-- A `flush_all` with its mark. -/
def Contents.flush (c : Contents) (mark : ℕ) : Contents :=
  if mark ≤ c.now then { c with oldestLive := mark, oldestCas := c.nextCas, casId := c.nextCas }
  else { c with oldestLive := mark }

inductive Store.Evolves (s : Store) : Command → Contents → Prop
  | flush {exptime : ℤ} (enabled : s.settings.flushEnabled = true) :
      s.Evolves (.flushAll exptime) (s.contents.flush (s.flushMark exptime))
  | refused {exptime : ℤ} (disabled : s.settings.flushEnabled = false) :
      s.Evolves (.flushAll exptime) s.contents
  | tick {n : ℕ} : s.Evolves (.tick n) { s.contents with now := s.contents.now + n }
  | turn {cmd : Command} {c' : Contents} (noFlush : ∀ exptime, cmd ≠ .flushAll exptime)
      (turns : s.contents.Turns c' cmd.target fun _ => True) : s.Evolves cmd c'

theorem contents_reclock (now oldestLive oldestCas casId : ℕ) :
    (s.reclock now oldestLive oldestCas casId).contents =
      { s.contents with now, oldestLive, oldestCas, casId } := rfl

theorem flushAll_enabled (enabled : s.settings.flushEnabled = true) (cas : s.settings.useCas = true)
    (exptime : ℤ) : (s.flushAll exptime).1 =
      if s.flushMark exptime ≤ s.currentTime then
        s.reclock s.currentTime (s.flushMark exptime) ((s.casId + 1) % 2 ^ 64)
          ((s.casId + 1) % 2 ^ 64)
      else s.reclock s.currentTime (s.flushMark exptime) s.oldestCas s.casId := by
  unfold Store.flushAll Store.flushMark
  dsimp only
  generalize (if exptime > 0 then s.realtime exptime else s.currentTime) = newOldest
  generalize (newOldest + (2 ^ 32 - 1)) % 2 ^ 32 = mark
  generalize (s.casId + 1) % 2 ^ 64 = next
  rw [if_pos enabled, if_pos cas]
  split_ifs <;> rfl

theorem evolves_flushAll (cas : s.settings.useCas = true) (exptime : ℤ) :
    s.Evolves (.flushAll exptime) (s.flushAll exptime).1.contents := by
  cases enabled : s.settings.flushEnabled with
  | false =>
    have same : (s.flushAll exptime).1 = s := by simp [Store.flushAll, enabled]
    rw [same]
    exact .refused enabled
  | true =>
    have moved : (s.flushAll exptime).1.contents = s.contents.flush (s.flushMark exptime) := by
      rw [flushAll_enabled enabled cas, Contents.flush]
      generalize s.flushMark exptime = mark
      have clock : s.contents.now = s.currentTime := rfl
      rw [clock]
      split_ifs <;> rw [contents_reclock] <;> rfl
    rw [moved]
    exact .flush enabled

theorem Steady.evolves (h : Steady s lay) (fits : s.Fits cmd) (run : s.exec cmd = .ok (s', answer)) :
    s.Evolves cmd s'.contents := by
  by_cases noFlush : ∀ exptime, cmd ≠ .flushAll exptime
  · by_cases noTick : ∀ n, cmd ≠ .tick n
    · exact .turn noFlush (h.turns fits noFlush noTick run)
    · push Not at noTick
      obtain ⟨n, rfl⟩ := noTick
      obtain ⟨rfl, -⟩ := pair_ran.1 run
      exact .tick
  · push Not at noFlush
    obtain ⟨exptime, rfl⟩ := noFlush
    obtain ⟨rfl, -⟩ := pair_ran.1 run
    exact evolves_flushAll h.inv.useCas exptime

/-! ## Ids are drawn once -/

namespace Contents

variable {c c' : Contents} {e : Content}

/-- The ids of the entries were drawn, each for one of them, and the entries were accessed no later
than now. -/
structure Stamped (c : Contents) : Prop where
  drawn : ∀ key e, c.entries key = some e → 0 < e.cas ∧ e.cas ≤ c.casId
  apart : ∀ key key' e e', c.entries key = some e → c.entries key' = some e' → e.cas = e'.cas →
    key = key'
  past : ∀ key e, c.entries key = some e → e.time ≤ c.now

/-- The id has been drawn, and the entry under the key does not have it. -/
def Retired (c : Contents) (key : Key) (u : ℕ) : Prop :=
  u ≤ c.casId ∧ ∀ e, c.entries key = some e → e.cas ≠ u

theorem nextCas_eq (ids : c.casId + 1 < 2 ^ 64) : c.nextCas = c.casId + 1 := Nat.mod_eq_of_lt ids

theorem Fades.cas (h : c.Fades c') (found : c'.entries key = some e) :
    ∃ e₀, c.entries key = some e₀ ∧ e.cas = e₀.cas := by
  obtain ⟨e₀, found₀, rfl | ⟨-, rfl⟩⟩ := h.entries key e found
  · exact ⟨e, found₀, rfl⟩
  · exact ⟨e₀, found₀, rfl⟩

theorem Stamped.fades (h : c.Stamped) (fades : c.Fades c') : c'.Stamped := by
  refine ⟨fun key e found => ?_, fun key key' e e' found found' same => ?_, fun key e found => ?_⟩
  · obtain ⟨e₀, found₀, same⟩ := fades.cas found
    rw [same, fades.casId]
    exact h.drawn key e₀ found₀
  · obtain ⟨e₀, found₀, eq⟩ := fades.cas found
    obtain ⟨e₀', found₀', eq'⟩ := fades.cas found'
    exact h.apart key key' e₀ e₀' found₀ found₀' (eq.symm.trans (same.trans eq'))
  · rw [fades.now]
    obtain ⟨e₀, found₀, rfl | ⟨-, rfl⟩⟩ := fades.entries key e found
    · exact h.past key e found₀
    · exact le_rfl

theorem link_cases {k : Key} {e₁ : Content} (found : (c.link key e).entries k = some e₁) :
    k = key ∧ e₁ = c.stamp e ∨ k ≠ key ∧ c.entries k = some e₁ := by
  simp only [link, Function.update_apply] at found
  split_ifs at found with same
  · exact .inl ⟨same, (Option.some.inj found).symm⟩
  · exact .inr ⟨same, found⟩

theorem Stamped.link (h : c.Stamped) (ids : c.casId + 1 < 2 ^ 64) (key : Key) (e : Content) :
    (c.link key e).Stamped := by
  have next : (c.link key e).casId = c.casId + 1 := nextCas_eq ids
  have stamp : (c.stamp e).cas = c.casId + 1 := nextCas_eq ids
  refine ⟨fun k e₁ found => ?_, fun k k' e₁ e₁' found found' same => ?_, fun k e₁ found => ?_⟩
  · rw [next]
    rcases link_cases found with ⟨-, rfl⟩ | ⟨-, found⟩
    · omega
    · have := h.drawn k e₁ found
      omega
  · rcases link_cases found with ⟨here, linked⟩ | ⟨-, old⟩
    · rcases link_cases found' with ⟨here', -⟩ | ⟨-, old'⟩
      · exact here.trans here'.symm
      · have := h.drawn k' e₁' old'
        rw [linked] at same
        omega
    · rcases link_cases found' with ⟨-, linked'⟩ | ⟨-, old'⟩
      · have := h.drawn k e₁ old
        rw [linked'] at same
        omega
      · exact h.apart k k' e₁ e₁' old old' same
  · rcases link_cases found with ⟨-, rfl⟩ | ⟨-, found⟩
    · exact le_rfl
    · exact h.past k e₁ found

theorem Retired.fades (h : c.Retired key u) (fades : c.Fades c') : c'.Retired key u := by
  refine ⟨fades.casId ▸ h.1, fun e found => ?_⟩
  obtain ⟨e₀, found₀, same⟩ := fades.cas found
  rw [same]
  exact h.2 e₀ found₀

theorem Retired.link (h : c.Retired key u) (ids : c.casId + 1 < 2 ^ 64) (key' : Key) (e : Content) :
    (c.link key' e).Retired key u := by
  have next : (c.link key' e).casId = c.casId + 1 := nextCas_eq ids
  have stamp : (c.stamp e).cas = c.casId + 1 := nextCas_eq ids
  have drawn := h.1
  refine ⟨by omega, fun e₁ found => ?_⟩
  rcases link_cases found with ⟨-, rfl⟩ | ⟨-, found⟩
  · omega
  · exact h.2 e₁ found

theorem retired_link (drawn : u ≤ c.casId) (ids : c.casId + 1 < 2 ^ 64) (key : Key) (e : Content) :
    (c.link key e).Retired key u := by
  have next : (c.link key e).casId = c.casId + 1 := nextCas_eq ids
  have stamp : (c.stamp e).cas = c.casId + 1 := nextCas_eq ids
  refine ⟨by omega, fun e₁ found => ?_⟩
  rcases link_cases found with ⟨-, rfl⟩ | ⟨other, -⟩
  · omega
  · exact absurd rfl other

theorem entries_flush (c : Contents) (mark : ℕ) : (c.flush mark).entries = c.entries := by
  unfold flush
  split_ifs <;> rfl

theorem now_flush (c : Contents) (mark : ℕ) : (c.flush mark).now = c.now := by
  unfold flush
  split_ifs <;> rfl

theorem casId_flush (ids : c.casId + 1 < 2 ^ 64) (mark : ℕ) : c.casId ≤ (c.flush mark).casId := by
  unfold flush
  split_ifs
  · exact (Nat.le_succ _).trans (nextCas_eq ids).ge
  · exact le_rfl

end Contents

open Contents

theorem Store.Evolves.stamped {c' : Contents} (h : s.Evolves cmd c') (stamped : s.contents.Stamped)
    (ids : s.contents.casId + 1 < 2 ^ 64) : c'.Stamped := by
  cases h with
  | flush =>
    refine ⟨fun key e found => ?_, fun key key' e e' found found' same => ?_, fun key e found => ?_⟩
    · rw [entries_flush] at found
      obtain ⟨positive, drawn⟩ := stamped.drawn key e found
      exact ⟨positive, drawn.trans (casId_flush ids _)⟩
    · rw [entries_flush] at found found'
      exact stamped.apart key key' e e' found found' same
    · rw [entries_flush] at found
      rw [now_flush]
      exact stamped.past key e found
  | refused => exact stamped
  | tick =>
    exact ⟨stamped.drawn, stamped.apart, fun key e found =>
      (stamped.past key e found).trans (Nat.le_add_right _ _)⟩
  | turn _ turns =>
    rcases turns with fades | ⟨e, -, fades⟩
    · exact stamped.fades fades
    · exact (stamped.link ids _ e).fades fades

theorem Store.Evolves.retired {c' : Contents} (h : s.Evolves cmd c')
    (retired : s.contents.Retired key u) (ids : s.contents.casId + 1 < 2 ^ 64) : c'.Retired key u := by
  cases h with
  | flush =>
    refine ⟨retired.1.trans (casId_flush ids _), fun e found => ?_⟩
    rw [entries_flush] at found
    exact retired.2 e found
  | refused => exact retired
  | tick => exact retired
  | turn _ turns =>
    rcases turns with fades | ⟨e, -, fades⟩
    · exact retired.fades fades
    · exact (retired.link ids _ e).fades fades

theorem Store.Evolves.casId_le {c' : Contents} (h : s.Evolves cmd c')
    (ids : s.contents.casId + 1 < 2 ^ 64) : s.contents.casId ≤ c'.casId := by
  cases h with
  | flush => exact casId_flush ids _
  | refused => exact le_rfl
  | tick => exact le_rfl
  | turn _ turns =>
    rcases turns with fades | ⟨e, -, fades⟩
    · exact fades.casId.ge
    · rw [fades.casId]
      exact (Nat.le_succ _).trans (nextCas_eq ids).ge

/-! ## Runs -/

structure CasStep (s : Store) (cmd : Command) (s' : Store) : Prop where
  step : LogStep s cmd s'
  ids : s.casId + 1 < 2 ^ 64

theorem CasStep.evolves (h : Steady s lay) (step : CasStep s cmd s') :
    s.Evolves cmd s'.contents ∧ ∃ lay', Steady s' lay' := by
  obtain ⟨⟨fits, answer, ran⟩, -⟩ := step
  exact ⟨h.evolves fits ran, h.exec fits ran⟩

theorem stamped_init (settings : Settings) (limit now : ℕ) :
    (Store.init settings limit now).contents.Stamped := by
  have empty : ∀ key, (Store.init settings limit now).contents.entries key = none := fun _ => rfl
  refine ⟨fun key e linked => ?_, fun key key' e e' linked => ?_, fun key e linked => ?_⟩ <;>
  · rw [empty] at linked
    cases linked

theorem stamped_of_run {cmds : List Command} (cas : settings.useCas = true)
    (off : settings.lruLogEnabled = false) (large : 35 ≤ limit) (small : limit < 2 ^ 32)
    (run : Run CasStep (Store.init settings limit now) cmds s) :
    (∃ lay, Steady s lay) ∧ s.contents.Stamped := by
  refine run.invariant (fun s => (∃ lay, Steady s lay) ∧ s.contents.Stamped) ?_
    ⟨⟨_, Store.init_inv large small cas, .init, off⟩, stamped_init ..⟩
  rintro s cmd s' ⟨⟨lay, h⟩, stamped⟩ step
  obtain ⟨evolves, steady⟩ := step.evolves h
  exact ⟨steady, evolves.stamped stamped step.ids⟩

theorem retired_of_run {cmds : List Command} (steady : ∃ lay, Steady s lay)
    (retired : s.contents.Retired key u) (run : Run CasStep s cmds t) :
    t.contents.Retired key u := by
  refine (run.invariant (fun s => (∃ lay, Steady s lay) ∧ s.contents.Retired key u) ?_
    ⟨steady, retired⟩).2
  rintro s cmd s' ⟨⟨lay, h⟩, retired⟩ step
  obtain ⟨evolves, steady⟩ := step.evolves h
  exact ⟨steady, evolves.retired retired step.ids⟩

theorem casId_le_of_run {cmds : List Command} (steady : ∃ lay, Steady s lay)
    (run : Run CasStep s cmds t) : (∃ lay, Steady t lay) ∧ s.casId ≤ t.casId := by
  refine run.invariant (fun t => (∃ lay, Steady t lay) ∧ s.casId ≤ t.casId) ?_ ⟨steady, le_rfl⟩
  rintro t cmd t' ⟨⟨lay, h⟩, le⟩ step
  obtain ⟨evolves, steady⟩ := step.evolves h
  exact ⟨steady, le.trans (evolves.casId_le step.ids)⟩

/-! ## The answer to a `cas` -/

def Store.Carries (s : Store) (key : Key) (u : ℕ) : Prop :=
  ∃ e, s.contents.visible key = some e ∧ e.cas = u

/-- The record of a storage command can be made: its client flags do not have the `ITEM_DELETED` bit,
its block ends a line, and the log takes the request. -/
def Store.Storable (s : Store) : Command → Prop
  | .store comm key flags exptime cas block =>
      deletedBit flags.toNat = false ∧ endsLine block = true ∧
        ∃ n, s.request (.store comm key flags exptime cas block) = some n ∧
          (memlogAllocRetry 3 s.log n).2.isSome = true
  | _ => False

theorem doItemAlloc_deleted {flags exptime : ℕ} {nbytes : ℤ} {it : Option ℕ} {succeed : Bool}
    (deleted : deletedBit flags = true)
    (run : s.doItemAlloc key flags exptime nbytes = .ok (s', it, succeed)) : it = none := by
  obtain ⟨l, got, -, ran⟩ := doItemAlloc_ran run
  cases ran with
  | full => rfl
  | tombstone => rfl
  | item plain => exact absurd (plain.symm.trans deleted) (by decide)

/-- A header line gets a record exactly when its flags are plain and the log takes the request. -/
theorem upload_iff {comm : NreadComm} {flags : ℕ} {exptime vlen : ℤ} {cas : ℕ} {update : Update}
    (useCas : s.settings.useCas = true)
    (header : s.processUpdateCommand comm key flags exptime vlen cas = .ok (s', update)) :
    (∃ id, update = .upload id) ↔ deletedBit flags = false ∧
      ∃ n, updateRequest key flags vlen = some n ∧ (memlogAllocRetry 3 s.log n).2.isSome = true := by
  cases request : updateRequest key flags vlen with
  | none =>
    rw [processUpdateCommand_rejected request] at header
    cases header
    simp
  | some n =>
    unfold updateRequest at request
    split_ifs at request with rejected
    obtain ⟨long, range⟩ := not_or.1 rejected
    rw [Store.processUpdateCommand, if_neg long, if_neg range] at header
    obtain ⟨⟨s₁, it, succeed⟩, alloc, header⟩ := bind_ran.1 header
    have size : allocTotal s.settings.useCas key.length flags (vlen + 2) = n := by
      rw [useCas]
      exact Option.some.inj request
    cases plain : deletedBit flags with
    | true =>
      obtain rfl := doItemAlloc_deleted plain alloc
      obtain ⟨s₂, -, header⟩ := bind_ran.1 header
      cases pure_ran.1 header
      simp
    | false =>
      have served := doItemAlloc_served plain alloc
      rw [size] at served
      cases it with
      | none =>
        obtain ⟨s₂, -, header⟩ := bind_ran.1 header
        cases pure_ran.1 header
        simp [served]
      | some id =>
        cases pure_ran.1 header
        simp [served]

theorem carries_iff : s.Carries key u ↔
    ∃ id, s.find key = some id ∧ itemGetCas s.log.mem (s.itemOf id) = u := by
  unfold Store.Carries
  rw [visible_eq]
  constructor
  · rintro ⟨e, seen, eq⟩
    obtain ⟨id, found, rfl⟩ := Option.map_eq_some_iff.1 seen
    exact ⟨id, found, eq⟩
  · rintro ⟨id, found, eq⟩
    exact ⟨s.entryOf id, by rw [found]; rfl, eq⟩

theorem verdict_cas {u : ℕ} {block : List UInt8} :
    s.verdict .cas key u block = .stored ↔
      ¬(key.length > keyMaxLength ∨ vlenOf block < 0 ∨ vlenOf block > 2 ^ 31 - 1 - 2) ∧
        endsLine block = true ∧ s.Carries key u := by
  rw [Store.verdict, carries_iff]
  split_ifs with rejected ends
  · exact iff_of_false (by simp) fun accepted => accepted.1 rejected
  · cases found : s.find key with
    | none => simp [Store.ruling, StoreItemType.reply, ends]
    | some id =>
      simp only [Store.ruling, rejected, ends, not_false_eq_true, true_and, Option.some.injEq,
        exists_eq_left']
      split_ifs with same
      · simp [StoreItemType.reply, same]
      · simp [StoreItemType.reply, Ne.symm same]
  · simp [ends]

/-- A `cas` is stored exactly when the item that can be seen has its id and its record can be
made. -/
theorem Steady.cas_stored_iff {flags : UInt32} {exptime : ℤ} {u : UInt64} {block : List UInt8}
    (h : Steady s lay) (fits : s.Fits (.store .cas key flags exptime u block))
    (run : s.exec (.store .cas key flags exptime u block) = .ok (s', answer)) :
    answer = .line .stored ↔
      s.Carries key u.toNat ∧ s.Storable (.store .cas key flags exptime u block) := by
  obtain ⟨⟨s₁, update⟩, header, rest⟩ := bind_ran.1 run
  have uploads := upload_iff h.inv.useCas header
  cases update with
  | reply reply =>
    obtain ⟨-, rfl⟩ := pair_ran.1 rest
    have failed : ¬s.Storable (.store .cas key flags exptime u block) := by
      rintro ⟨plain, -, served⟩
      obtain ⟨id, eq⟩ := uploads.2 ⟨plain, served⟩
      cases eq
    have reply := processUpdateCommand_failed header
    simp only [Answer.line.injEq, reply, failed, and_false]
  | upload id =>
    obtain ⟨plain, n, request, served⟩ := uploads.1 ⟨id, rfl⟩
    have accepted : ¬(key.length > keyMaxLength ∨ vlenOf block < 0 ∨
        vlenOf block > 2 ^ 31 - 1 - 2) := by
      intro rejected
      rw [updateRequest, if_pos rejected] at request
      cases request
    rw [h.verdict_of_upload (by decide) fits.first header run, Answer.line.injEq, verdict_cas]
    constructor
    · rintro ⟨-, ends, carries⟩
      exact ⟨carries, plain, ends, n, request, served⟩
    · rintro ⟨carries, -, ends, -⟩
      exact ⟨accepted, ends, carries⟩

theorem Steady.contents_cas {flags : UInt32} {exptime : ℤ} {u : UInt64} {block : List UInt8}
    (h : Steady s lay) (fits : s.Fits (.store .cas key flags exptime u block))
    (run : s.exec (.store .cas key flags exptime u block) = .ok (s', answer))
    (done : answer = .line .stored) : ∃ req, s'.contents = s.contents.link key req := by
  obtain ⟨reply, rfl, turn⟩ := h.contents_store fits run
  obtain rfl := Answer.line.inj done
  generalize eq : Reply.stored = r at turn
  generalize s'.contents = c' at turn ⊢
  cases turn with
  | refused failed => exact absurd eq.symm failed
  | ran req served =>
    refine ⟨req, store_stored (by decide) ?_⟩
    generalize (s.contents.store .cas key req served).2 = result at eq
    cases result <;> first | rfl | cases eq

theorem Contents.Stamped.not_retired (stamped : s.contents.Stamped) (carries : s.Carries key u) :
    u ≤ s.casId ∧ ¬s.contents.Retired key u := by
  obtain ⟨e, seen, rfl⟩ := carries
  obtain ⟨linked, -⟩ := visible_eq_some.1 seen
  exact ⟨(stamped.drawn key e linked).2, fun retired => retired.2 e linked rfl⟩

/-- Along every run: a `cas` with the id `u` is stored exactly when the item that can be seen has
the id, whenever its record can be made; an id belongs to one item; when a `cas` is stored, the item
has been the same since any earlier state in which it had the id; and no later `cas` with the id is
stored. -/
theorem cas_loses_no_update {cmds : List Command} {flags : UInt32} {exptime : ℤ} {u : UInt64}
    {block : List UInt8} (cas : settings.useCas = true) (off : settings.lruLogEnabled = false)
    (large : 35 ≤ limit) (small : limit < 2 ^ 32)
    (run : Run CasStep (Store.init settings limit now) cmds s)
    (step : CasStep s (.store .cas key flags exptime u block) s')
    (exec : s.exec (.store .cas key flags exptime u block) = .ok (s', answer)) :
    ((answer = .line .stored ↔ s.Carries key u.toNat) ↔
      (s.Carries key u.toNat → s.Storable (.store .cas key flags exptime u block))) ∧
    (∀ key' e e', s.contents.entries key = some e → s.contents.entries key' = some e' →
      e.cas = e'.cas → key = key') ∧
    (answer = .line .stored →
      (∀ cmds₁ t cmds₂ t' cmds₃, Run CasStep (Store.init settings limit now) cmds₁ t →
        t.Carries key u.toNat → Run CasStep t cmds₂ t' → Run CasStep t' cmds₃ s →
        ∃ e, t'.contents.entries key = some e ∧ e.cas = u.toNat) ∧
      ∀ cmds₁ t flags' exptime' block' t' answer', Run CasStep s' cmds₁ t →
        t.Fits (.store .cas key flags' exptime' u block') →
        t.exec (.store .cas key flags' exptime' u block') = .ok (t', answer') →
        answer' ≠ .line .stored) := by
  obtain ⟨⟨lay, h⟩, stamped⟩ := stamped_of_run cas off large small run
  have stored := h.cas_stored_iff step.step.fits exec
  refine ⟨by tauto, fun key' => stamped.apart key key', fun done => ⟨?_, ?_⟩⟩
  · intro cmds₁ t cmds₂ t' cmds₃ first carries second third
    obtain ⟨steady, stampedT⟩ := stamped_of_run cas off large small first
    obtain ⟨steady', le⟩ := casId_le_of_run steady second
    obtain ⟨-, kept⟩ := stamped.not_retired (stored.1 done).1
    by_contra absent
    push Not at absent
    refine kept (retired_of_run steady' ⟨?_, absent⟩ third)
    exact (stampedT.not_retired carries).1.trans le
  · intro cmds₁ t flags' exptime' block' t' answer' later fits' exec' done'
    obtain ⟨-, steady'⟩ := step.evolves h
    obtain ⟨⟨lay', h'⟩, stamped'⟩ :=
      stamped_of_run cas off large small (run.append (.cons step later))
    have retired : s'.contents.Retired key u.toNat := by
      obtain ⟨req, linked⟩ := h.contents_cas step.step.fits exec done
      rw [linked]
      exact retired_link (stamped.not_retired (stored.1 done).1).1 step.ids key _
    exact (stamped'.not_retired ((h'.cas_stored_iff fits' exec').1 done').1).2
      (retired_of_run steady' retired later)

def Store.casNext (s : Store) (cmd : Command) : Option Store :=
  if s.casId + 1 < 2 ^ 64 then (s.execSimply cmd).map Prod.fst else none

theorem casStep_of_next (next : s.casNext cmd = some s') : CasStep s cmd s' := by
  rw [Store.casNext, Option.ite_none_right_eq_some] at next
  obtain ⟨ids, next⟩ := next
  obtain ⟨⟨s₁, answer⟩, ran, rfl⟩ := Option.map_eq_some_iff.1 next
  obtain ⟨-, fits, ran⟩ := execSimply_some ran
  exact ⟨⟨fits, answer, ran⟩, ids⟩

/-- `set a` with value `x`. -/
def plainSet : Command := .store .set [97] 0 0 0 [120, 13, 10]

/-- `cas a` with the id 1 and value `y`. -/
def casA (flags : UInt32) : Command := .store .cas [97] flags 0 1 [121, 13, 10]

theorem cas_loses_no_update_first :
    ∃ s s', Run CasStep (Store.init (settingsInit 1500000000) memlogDefaultSize 62) [plainSet] s ∧
      s.exec (casA 0) = .ok (s', .line .stored) ∧ s.Carries [97] 1 ∧
      ∀ cmds t t' answer, Run CasStep s' cmds t → t.Fits (casA 0) →
        t.exec (casA 0) = .ok (t', answer) → answer ≠ .line .stored := by
  have eval : (((Store.init (settingsInit 1500000000) memlogDefaultSize 62).casNext plainSet).bind
      fun s => (s.casNext (casA 0)).bind fun _ => (s.exec (casA 0)).toOption.map fun p =>
        (p.2, (s.contents.visible [97]).map Content.cas)) = some (.line .stored, some 1) := by
    decide +kernel
  obtain ⟨s, first, eval⟩ := Option.bind_eq_some_iff.1 eval
  obtain ⟨s₁, second, eval⟩ := Option.bind_eq_some_iff.1 eval
  obtain ⟨⟨s', answer⟩, ran, eval⟩ := Option.map_eq_some_iff.1 eval
  obtain ⟨rfl, seen⟩ := Prod.mk.inj eval
  have ran := ok_of_toOption ran
  obtain ⟨e, visible, id⟩ := Option.map_eq_some_iff.1 seen
  have step : CasStep s (casA 0) s' :=
    ⟨⟨(casStep_of_next second).step.fits, _, ran⟩, (casStep_of_next second).ids⟩
  have run := Run.one (casStep_of_next first)
  obtain ⟨-, -, later⟩ := cas_loses_no_update rfl rfl (by decide) (by decide) run step ran
  exact ⟨s, s', run, ran, ⟨e, visible, id⟩, fun cmds t t' answer run' fits' exec' =>
    (later rfl).2 cmds t 0 0 [121, 13, 10] t' answer run' fits' exec'⟩

/-- A `cas` with the right id and the flags 128 is answered as if the log were full. -/
theorem cas_right_id_refused :
    ∃ s s', Run CasStep (Store.init (settingsInit 1500000000) memlogDefaultSize 62) [plainSet] s ∧
      s.Carries [97] 1 ∧ CasStep s (casA 128) s' ∧
      s.exec (casA 128) = .ok (s', .line .noMemoryStoring) := by
  have eval : (((Store.init (settingsInit 1500000000) memlogDefaultSize 62).casNext plainSet).bind
      fun s => if (s.request (casA 128)).all fun n =>
          decide (16 * n ≤ s.log.memLimit) && decide (WrapOk s.log n) then
        (s.exec (casA 128)).toOption.map fun p => (p.2, (s.contents.visible [97]).map Content.cas,
          decide (s.casId + 1 < 2 ^ 64)) else none) = some (.line .noMemoryStoring, some 1, true) := by
    decide +kernel
  obtain ⟨s, first, eval⟩ := Option.bind_eq_some_iff.1 eval
  rw [Option.ite_none_right_eq_some] at eval
  obtain ⟨room, eval⟩ := eval
  obtain ⟨⟨s', answer⟩, ran, eval⟩ := Option.map_eq_some_iff.1 eval
  simp only [Prod.mk.injEq, decide_eq_true_eq] at eval
  obtain ⟨rfl, seen, ids⟩ := eval
  obtain ⟨e, visible, id⟩ := Option.map_eq_some_iff.1 seen
  have ran := ok_of_toOption ran
  have fits : s.Fits (casA 128) := by
    refine ⟨fun n request => ?_, fun joins => absurd joins (by decide)⟩
    simp only [request, Option.all_some, Bool.and_eq_true, decide_eq_true_eq] at room
    exact ⟨room.1, room.2⟩
  exact ⟨s, s', .one (casStep_of_next first), ⟨e, visible, id⟩, ⟨⟨fits, _, ran⟩, ids⟩, ran⟩

end LogMemcached

import LogMemcached.CasIds

/-!
# Flushes that take effect

`flush_all` only sets two marks, against which every lookup compares the item it finds.  A flush is
in effect while its mark is neither zero nor in the future.  It hides what was linked before for
good, as long as no later `flush_all` replaces a mark that is in effect by one that is not.
-/

namespace LogMemcached

open Tiling Fallible Transition Store Contents

variable {s s' t : Store} {lay : Layout} {cmd : Command} {settings : Settings} {limit now : ℕ}

/-! ## Flushes in effect -/

namespace Contents

variable {c c' : Contents} {e : Content} {bound start : ℕ}

def InEffect (c : Contents) : Prop := c.oldestLive ≠ 0 ∧ c.oldestLive ≤ c.now

theorem flushed_eq (effect : c.InEffect) (e : Content) : c.flushed e =
    (decide (e.time ≤ c.oldestLive) ||
      (c.oldestCas != 0 && e.cas != 0 && decide (e.cas < c.oldestCas))) := by
  obtain ⟨nonzero, past⟩ := effect
  rw [flushed, if_neg (by omega)]

theorem flushed_of_cas (effect : c.InEffect) (positive : 0 < e.cas) (older : e.cas < c.oldestCas) :
    c.flushed e = true := by
  have first : c.oldestCas ≠ 0 := by omega
  have second : e.cas ≠ 0 := by omega
  rw [flushed_eq effect]
  simp [first, second, older]

/-- A flush is in effect and hides the entries whose ids are at most `bound`. -/
structure Hidden (c : Contents) (bound : ℕ) : Prop where
  effect : c.InEffect
  hides : ∀ key e, c.entries key = some e → e.cas ≤ bound → c.flushed e = true
  bound : bound ≤ c.casId

theorem Hidden.fades (h : c.Hidden bound) (fades : c.Fades c') : c'.Hidden bound := by
  refine ⟨?_, fun key e found old => ?_, fades.casId ▸ h.bound⟩
  · rw [InEffect, fades.oldestLive, fades.now]
    exact h.effect
  · have same : c'.flushed e = c.flushed e := by
      simp only [flushed, fades.oldestLive, fades.now, fades.oldestCas]
    obtain ⟨e₀, found₀, rfl | ⟨shown, rfl⟩⟩ := fades.entries key e found
    · rw [same]
      exact h.hides key e found₀ old
    · have hidden := h.hides key e₀ found₀ old
      rw [Contents.hides, hidden] at shown
      cases shown

theorem Hidden.link (h : c.Hidden bound) (ids : c.casId + 1 < 2 ^ 64) (key : Key) (e : Content) :
    (c.link key e).Hidden bound := by
  have next : (c.link key e).casId = c.casId + 1 := nextCas_eq ids
  have stamp : (c.stamp e).cas = c.casId + 1 := nextCas_eq ids
  have drawn := h.bound
  refine ⟨h.effect, fun k e₁ found old => ?_, by omega⟩
  rcases link_cases found with ⟨-, rfl⟩ | ⟨-, found⟩
  · omega
  · exact h.hides k e₁ found old

theorem hidden_flush {mark : ℕ} (stamped : c.Stamped) (ids : c.casId + 1 < 2 ^ 64)
    (nonzero : mark ≠ 0) (past : mark ≤ c.now) : (c.flush mark).Hidden (c.flush mark).casId := by
  have eq : c.flush mark = { c with oldestLive := mark, oldestCas := c.casId + 1, casId := c.casId + 1 } := by
    rw [flush, if_pos past, nextCas_eq ids]
  rw [eq]
  have effect : InEffect { c with oldestLive := mark, oldestCas := c.casId + 1, casId := c.casId + 1 } :=
    ⟨nonzero, past⟩
  refine ⟨effect, fun key e found _ => ?_, le_rfl⟩
  obtain ⟨positive, drawn⟩ := stamped.drawn key e found
  exact flushed_of_cas effect positive (Nat.lt_succ_of_le drawn)

/-- Entries with ids above `bound` were linked at the time `start` or later. -/
structure Since (c : Contents) (bound start : ℕ) : Prop where
  clock : start ≤ c.now
  later : ∀ key e, c.entries key = some e → bound < e.cas → start ≤ e.time

theorem Since.fades (h : c.Since bound start) (fades : c.Fades c') : c'.Since bound start := by
  refine ⟨fades.now ▸ h.clock, fun key e found young => ?_⟩
  obtain ⟨e₀, found₀, rfl | ⟨-, rfl⟩⟩ := fades.entries key e found
  · exact h.later key e found₀ young
  · exact h.clock

theorem Since.link (h : c.Since bound start) (key : Key) (e : Content) :
    (c.link key e).Since bound start := by
  refine ⟨h.clock, fun k e₁ found young => ?_⟩
  rcases link_cases found with ⟨-, rfl⟩ | ⟨-, found⟩
  · exact h.clock
  · exact h.later k e₁ found young

end Contents

/-! ## Steps -/

/-- A `flush_all` leaves a flush in effect, if there was one. -/
def Store.KeepsFlush (s : Store) (cmd : Command) : Prop :=
  ∀ exptime, cmd = .flushAll exptime → s.settings.flushEnabled = true → s.contents.InEffect →
    s.flushMark exptime ≠ 0 ∧ s.flushMark exptime ≤ s.currentTime

structure FlushStep (s : Store) (cmd : Command) (s' : Store) : Prop where
  step : CasStep s cmd s'
  keeps : s.KeepsFlush cmd

theorem Store.Evolves.hidden {c' : Contents} {bound : ℕ} (h : s.Evolves cmd c')
    (stamped : s.contents.Stamped) (ids : s.contents.casId + 1 < 2 ^ 64) (keeps : s.KeepsFlush cmd)
    (hidden : s.contents.Hidden bound) : c'.Hidden bound := by
  cases h with
  | @flush exptime enabled =>
    obtain ⟨nonzero, past⟩ := keeps exptime rfl enabled hidden.effect
    have again := hidden_flush stamped ids nonzero past
    have drawn := hidden.bound.trans (casId_flush ids (s.flushMark exptime))
    exact ⟨again.effect, fun key e found old => again.hides key e found (old.trans drawn), drawn⟩
  | refused => exact hidden
  | @tick n =>
    have effect : InEffect { s.contents with now := s.contents.now + n } :=
      ⟨hidden.effect.1, hidden.effect.2.trans (Nat.le_add_right _ _)⟩
    refine ⟨effect, fun key e found old => ?_, hidden.bound⟩
    rw [flushed_eq effect, ← hidden.hides key e found old, flushed_eq hidden.effect]
  | turn _ turns =>
    rcases turns with fades | ⟨e, -, fades⟩
    · exact hidden.fades fades
    · exact (hidden.link ids _ e).fades fades

theorem Store.Evolves.since {c' : Contents} {bound start : ℕ} (h : s.Evolves cmd c')
    (since : s.contents.Since bound start) : c'.Since bound start := by
  cases h with
  | flush =>
    refine ⟨by rw [now_flush]; exact since.clock, fun key e found young => ?_⟩
    rw [entries_flush] at found
    exact since.later key e found young
  | refused => exact since
  | tick => exact ⟨since.clock.trans (Nat.le_add_right _ _), since.later⟩
  | turn _ turns =>
    rcases turns with fades | ⟨e, -, fades⟩
    · exact since.fades fades
    · exact (since.link _ e).fades fades

/-- A flush takes effect in a step: by a `flush_all`, or because its time has come. -/
def TakesEffect (s : Store) (cmd : Command) (s' : Store) : Prop :=
  s'.contents.InEffect ∧
    (¬s.contents.InEffect ∨ (∃ exptime, cmd = .flushAll exptime) ∧ s.settings.flushEnabled = true)

theorem inEffect_flush {c : Contents} {mark : ℕ} :
    (c.flush mark).InEffect ↔ mark ≠ 0 ∧ mark ≤ c.now := by
  unfold Contents.flush
  split_ifs <;> rfl

theorem Contents.Fades.inEffect {c c' : Contents} (fades : c.Fades c') :
    c'.InEffect ↔ c.InEffect := by
  rw [InEffect, InEffect, fades.oldestLive, fades.now]

theorem Store.Evolves.takesEffect (h : s.Evolves cmd s'.contents) (stamped : s.contents.Stamped)
    (ids : s.contents.casId + 1 < 2 ^ 64) (takes : TakesEffect s cmd s') :
    s'.contents.Hidden s'.casId := by
  obtain ⟨effect, new⟩ := takes
  have id : s'.casId = s'.contents.casId := rfl
  rw [id]
  generalize s'.contents = c' at h effect
  cases h with
  | flush enabled =>
    obtain ⟨nonzero, past⟩ := inEffect_flush.1 effect
    exact hidden_flush stamped ids nonzero past
  | refused disabled =>
    rcases new with none | ⟨-, enabled⟩
    · exact absurd effect none
    · rw [disabled] at enabled
      cases enabled
  | tick =>
    rcases new with none | ⟨⟨exptime, other⟩, -⟩
    · refine ⟨effect, fun key e found _ => ?_, le_rfl⟩
      have past : e.time ≤ s.contents.now := stamped.past key e found
      have ahead : s.contents.now < s.contents.oldestLive :=
        not_le.1 fun le => none ⟨effect.1, le⟩
      rw [flushed_eq effect, Bool.or_eq_true, decide_eq_true_eq]
      exact .inl (past.trans ahead.le)
    · cases other
  | turn noFlush turns =>
    rcases new with none | ⟨⟨exptime, rfl⟩, -⟩
    · rcases turns with fades | ⟨e, -, fades⟩
      · exact absurd (fades.inEffect.1 effect) none
      · exact absurd (fades.inEffect.1 effect) none
    · exact absurd rfl (noFlush exptime)

/-! ## Runs -/

theorem hidden_of_run {cmds : List Command} {bound : ℕ} (steady : ∃ lay, Steady s lay)
    (stamped : s.contents.Stamped) (hidden : s.contents.Hidden bound) (run : Run FlushStep s cmds t) :
    (∃ lay, Steady t lay) ∧ t.contents.Hidden bound := by
  have all := run.invariant (fun s => (∃ lay, Steady s lay) ∧ s.contents.Stamped ∧
    s.contents.Hidden bound) ?_ ⟨steady, stamped, hidden⟩
  · exact ⟨all.1, all.2.2⟩
  · rintro s cmd s' ⟨⟨lay, h⟩, stamped, hidden⟩ ⟨step, keeps⟩
    obtain ⟨evolves, steady⟩ := step.evolves h
    exact ⟨steady, evolves.stamped stamped step.ids, evolves.hidden stamped step.ids keeps hidden⟩

/-- Without another `flush_all` the marks stay, and what is linked is newer than they are. -/
theorem since_of_run {cmds : List Command} {bound start : ℕ} (steady : ∃ lay, Steady s lay)
    (since : s.contents.Since bound start) (run : Run CasStep s cmds t)
    (noFlush : ∀ exptime, .flushAll exptime ∉ cmds) :
    (∃ lay, Steady t lay) ∧ t.contents.Since bound start ∧ t.oldestLive = s.oldestLive ∧
      t.oldestCas = s.oldestCas := by
  have quiet := run.meeting fun cmd (mem : cmd ∈ cmds) exptime (eq : cmd = .flushAll exptime) =>
    noFlush exptime (eq ▸ mem)
  refine quiet.invariant (fun t => (∃ lay, Steady t lay) ∧ t.contents.Since bound start ∧
    t.oldestLive = s.oldestLive ∧ t.oldestCas = s.oldestCas) ?_ ⟨steady, since, rfl, rfl⟩
  rintro t cmd t' ⟨⟨lay, h⟩, since, live, cas⟩ ⟨other, step⟩
  obtain ⟨evolves, steady⟩ := step.evolves h
  have marks : t'.contents.oldestLive = t.contents.oldestLive ∧
      t'.contents.oldestCas = t.contents.oldestCas := by
    generalize t'.contents = c' at evolves
    cases evolves with
    | @flush exptime => exact absurd rfl (other exptime)
    | refused => exact ⟨rfl, rfl⟩
    | tick => exact ⟨rfl, rfl⟩
    | turn _ turns =>
      rcases turns with fades | ⟨e, -, fades⟩ <;> exact ⟨fades.oldestLive, fades.oldestCas⟩
  exact ⟨steady, evolves.since since, marks.1.trans live, marks.2.trans cas⟩

theorem flushMark_immediate {exptime : ℤ} (immediate : exptime ≤ 0) (started : 0 < s.currentTime) :
    s.flushMark exptime < s.currentTime := by
  unfold Store.flushMark
  rw [if_neg (not_lt.2 immediate)]
  have wrapped : s.currentTime + (2 ^ 32 - 1) = s.currentTime - 1 + 2 ^ 32 := by omega
  rw [wrapped, Nat.add_mod_right]
  have le := Nat.mod_le (s.currentTime - 1) (2 ^ 32)
  omega

theorem Contents.Since.unflushed {c : Contents} {key : Key} {e : Content} {bound start : ℕ}
    (since : c.Since bound start) (linked : c.entries key = some e) (new : bound < e.cas)
    (live : c.oldestLive < start) (cas : c.oldestCas ≤ bound) : c.flushed e = false := by
  have later : start ≤ e.time := since.later key e linked new
  have young : ¬e.time ≤ c.oldestLive := by omega
  have ahead : ¬e.cas < c.oldestCas := by omega
  unfold Contents.flushed
  split_ifs
  · rfl
  · simp [young, ahead]

/-- An immediate `flush_all` leaves marks that only reach back. -/
theorem Steady.flushed_immediate {exptime : ℤ} (h : Steady s lay) (stamped : s.contents.Stamped)
    (started : 0 < s.currentTime) (immediate : exptime ≤ 0)
    (enabled : s.settings.flushEnabled = true) (step : CasStep s (.flushAll exptime) s') :
    s'.contents.Since s'.casId s.currentTime ∧ s'.oldestLive < s.currentTime ∧
      s'.oldestCas ≤ s'.casId := by
  have early := flushMark_immediate immediate started
  have moved : s'.contents = s.contents.flush (s.flushMark exptime) := by
    obtain ⟨evolves, -⟩ := step.evolves h
    generalize s'.contents = c' at evolves
    cases evolves with
    | flush => rfl
    | refused disabled =>
      rw [enabled] at disabled
      cases disabled
    | turn noFlush => exact absurd rfl (noFlush exptime)
  have past : s.flushMark exptime ≤ s.contents.now := early.le
  have next : s.contents.nextCas = s.casId + 1 := nextCas_eq step.ids
  rw [Contents.flush, if_pos past] at moved
  have id : s'.casId = s.casId + 1 := (congrArg Contents.casId moved).trans next
  have mark : s'.oldestLive = s.flushMark exptime := congrArg Contents.oldestLive moved
  have cas : s'.oldestCas = s.casId + 1 := (congrArg Contents.oldestCas moved).trans next
  refine ⟨⟨?_, ?_⟩, mark ▸ early, (cas.trans id.symm).le⟩
  · exact (congrArg Contents.now moved).ge
  · intro key e linked new
    rw [congrArg Contents.entries moved] at linked
    have drawn : e.cas ≤ s.casId := (stamped.drawn key e linked).2
    omega

/-- Along every run in which no later `flush_all` replaces a mark in effect by one that is not: once
a flush has taken effect, no `get` returns an item with an id drawn before.  What is linked after an
immediate `flush_all` is not flushed before there is another one. -/
theorem flush_all_irrevocable {cmds : List Command} (cas : settings.useCas = true)
    (off : settings.lruLogEnabled = false) (large : 35 ≤ limit) (small : limit < 2 ^ 32)
    (started : 0 < now) (run : Run CasStep (Store.init settings limit now) cmds s)
    (step : CasStep s cmd s') :
    (TakesEffect s cmd s' → ∀ cmds₁ t, Run FlushStep s' cmds₁ t →
      ∀ key t' id, t.doItemGet key = .ok (t', some id) →
        s'.casId < itemGetCas t.log.mem (t.itemOf id)) ∧
    ((∃ exptime, exptime ≤ 0 ∧ cmd = .flushAll exptime) → s.settings.flushEnabled = true →
      ∀ cmds₁ t, Run CasStep s' cmds₁ t → (∀ exptime, .flushAll exptime ∉ cmds₁) →
      ∀ id ∈ t.table, s'.casId < itemGetCas t.log.mem (t.itemOf id) →
        t.itemIsFlushed id = false) := by
  obtain ⟨⟨lay, h⟩, stamped⟩ := stamped_of_run cas off large small run
  obtain ⟨evolves, steady⟩ := step.evolves h
  constructor
  · intro takes cmds₁ t later key t' id get
    have hidden := evolves.takesEffect stamped step.ids takes
    obtain ⟨⟨lay', h'⟩, hidden⟩ :=
      hidden_of_run steady (evolves.stamped stamped step.ids) hidden later
    obtain ⟨found, -⟩ := h'.inv.get_some get
    obtain ⟨linked, shown⟩ := visible_eq_some.1 (visible_of_find found)
    by_contra old
    have flushed := hidden.hides key (t.entryOf id) linked (not_lt.1 old)
    rw [Contents.hides, flushed] at shown
    cases shown
  · rintro ⟨exptime, immediate, rfl⟩ enabled cmds₁ t later noFlush id member new
    have clock := clock_of_run cas off large small (run.mono fun _ _ _ step => step.step)
    obtain ⟨since, live, marks⟩ :=
      h.flushed_immediate stamped (started.trans_le clock) immediate enabled step
    obtain ⟨⟨lay', h'⟩, since, sameLive, sameCas⟩ := since_of_run steady since later noFlush
    exact since.unflushed (h'.inv.entry_linked member) new (sameLive.trans_lt live)
      (sameCas.trans_le marks)

/-- The id of the item a `get` returns. -/
def Store.idReturned (s : Store) (key : Key) : Option ℕ :=
  (s.doItemGet key).toOption.bind fun r => r.2.map fun id => itemGetCas s.log.mem (s.itemOf id)

theorem idReturned_some {key : Key} {u : ℕ} (returned : s.idReturned key = some u) :
    ∃ s' id, s.doItemGet key = .ok (s', some id) ∧ itemGetCas s.log.mem (s.itemOf id) = u := by
  obtain ⟨⟨s', found⟩, get, returned⟩ := Option.bind_eq_some_iff.1 returned
  obtain ⟨id, rfl, eq⟩ := Option.map_eq_some_iff.1 returned
  exact ⟨s', id, ok_of_toOption get, eq⟩

/-- `set a`, `flush_all`, `set a`: the second item is returned. -/
theorem flush_all_irrevocable_again :
    ∃ s s' t t' id, Run CasStep (Store.init (settingsInit 1500000000) memlogDefaultSize 62)
        [plainSet] s ∧ TakesEffect s (.flushAll 0) s' ∧ Run FlushStep s' [plainSet] t ∧
      t.doItemGet [97] = .ok (t', some id) ∧ s'.casId < itemGetCas t.log.mem (t.itemOf id) ∧
      ∀ id ∈ t.table, s'.casId < itemGetCas t.log.mem (t.itemOf id) → t.itemIsFlushed id = false := by
  have eval : (((Store.init (settingsInit 1500000000) memlogDefaultSize 62).casNext plainSet).bind
      fun s => (s.casNext (.flushAll 0)).bind fun s' => (s'.casNext plainSet).bind fun t =>
        (t.idReturned [97]).map fun u =>
          (s.settings.flushEnabled, s'.oldestLive, s'.currentTime, u)) =
      some (true, 61, 62, 3) := by decide +kernel
  obtain ⟨s, first, eval⟩ := Option.bind_eq_some_iff.1 eval
  obtain ⟨s', second, eval⟩ := Option.bind_eq_some_iff.1 eval
  obtain ⟨t, third, eval⟩ := Option.bind_eq_some_iff.1 eval
  obtain ⟨u, returned, eval⟩ := Option.map_eq_some_iff.1 eval
  simp only [Prod.mk.injEq] at eval
  obtain ⟨enabled, live, clock, -⟩ := eval
  obtain ⟨t', id, get, -⟩ := idReturned_some returned
  have run := Run.one (casStep_of_next first)
  have step := casStep_of_next second
  have last := casStep_of_next third
  have past : s'.oldestLive ≤ s'.currentTime := by
    rw [live, clock]
    decide
  have takes : TakesEffect s (.flushAll 0) s' :=
    ⟨⟨live.trans_ne (by decide), past⟩, .inr ⟨⟨0, rfl⟩, enabled⟩⟩
  obtain ⟨hidden, precise⟩ :=
    flush_all_irrevocable rfl rfl (by decide) (by decide) (by decide) run step
  have keeps : FlushStep s' plainSet t := ⟨last, fun exptime other => by cases other⟩
  have noFlush : ∀ exptime, Command.flushAll exptime ∉ [plainSet] := by
    intro exptime mem
    cases List.mem_singleton.1 mem
  exact ⟨s, s', t, t', id, run, takes, .one keeps, get, hidden takes _ _ (.one keeps) _ _ _ get,
    precise ⟨0, le_rfl, rfl⟩ enabled _ _ (.one last) noFlush⟩

/-- `set a`, `flush_all`, `flush_all 100`: the item flushed is returned again. -/
theorem flush_all_revoked :
    ∃ s s' t t' id, Run CasStep (Store.init (settingsInit 1500000000) memlogDefaultSize 62)
        [plainSet] s ∧ CasStep s (.flushAll 0) s' ∧ TakesEffect s (.flushAll 0) s' ∧
      CasStep s' (.flushAll 100) t ∧ t.doItemGet [97] = .ok (t', some id) ∧
      itemGetCas t.log.mem (t.itemOf id) < s'.casId := by
  have eval : (((Store.init (settingsInit 1500000000) memlogDefaultSize 62).casNext plainSet).bind
      fun s => (s.casNext (.flushAll 0)).bind fun s' => (s'.casNext (.flushAll 100)).bind fun t =>
        (t.idReturned [97]).map fun u =>
          (s.settings.flushEnabled, s'.oldestLive, s'.currentTime, s'.casId, u)) =
      some (true, 61, 62, 2, 1) := by decide +kernel
  obtain ⟨s, first, eval⟩ := Option.bind_eq_some_iff.1 eval
  obtain ⟨s', second, eval⟩ := Option.bind_eq_some_iff.1 eval
  obtain ⟨t, third, eval⟩ := Option.bind_eq_some_iff.1 eval
  obtain ⟨u, returned, eval⟩ := Option.map_eq_some_iff.1 eval
  simp only [Prod.mk.injEq] at eval
  obtain ⟨enabled, live, clock, drawn, rfl⟩ := eval
  obtain ⟨t', id, get, cas⟩ := idReturned_some returned
  have past : s'.oldestLive ≤ s'.currentTime := by
    rw [live, clock]
    decide
  have takes : TakesEffect s (.flushAll 0) s' :=
    ⟨⟨live.trans_ne (by decide), past⟩, .inr ⟨⟨0, rfl⟩, enabled⟩⟩
  refine ⟨s, s', t, t', id, .one (casStep_of_next first), casStep_of_next second, takes,
    casStep_of_next third, get, ?_⟩
  rw [cas, drawn]
  decide

end LogMemcached

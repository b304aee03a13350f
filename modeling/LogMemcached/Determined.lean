import LogMemcached.Lib.Run
import LogMemcached.SequenceSteps

/-!
# The log determines the cache

Sequences of `set`, `get`, `delete`, `touch`, `incr` and `decr`, with cleaning and passing time, in
which no request of the log fails.  The view stays current throughout, so that replaying the log
gives the hash table up to entries that have expired.
-/

namespace LogMemcached

open ByteMem CText Tiling Fallible Transition Store

variable {s s' : Store} {lay : Layout} {cmd : Command} {cmds : List Command} {key : Key}
  {now n : ℕ} {v v' : View} {settings : Settings}

/-! ## Effects on current views -/

theorem Hides.current (hides : Hides s v v') (live : s.oldestLive = 0)
    (current : v.Current s.currentTime) : v'.Current s.currentTime := by
  induction hides with
  | refl => exact current
  | step lapses _ ih => exact ih (current.unlink (lapses live))

/-- A `set` that gets its item when it asks for one. -/
theorem StoreEffect.current {flags : ℕ} {vlen : ℤ} {reply : Reply}
    (effect : StoreEffect s v .set key flags vlen reply v') (current : v.Current now)
    (served : ∀ n, updateRequest key flags vlen = some n → (memoryAllocate s.log n).2 ≠ none) :
    v'.Current now := by
  cases effect with
  | rejected => exact current
  | full _ n _ request unserved => exact absurd unserved (served n request)
  | spoilt r hflags => exact current.log_corrupted hflags
  | stored r _ _ hflags _ => exact current.log_link hflags
  | refused r result conditional => exact absurd rfl conditional
  | joined r q f joins => rcases joins with joins | joins <;> cases joins

theorem RelogEffect.current (effect : RelogEffect s (s.view lay) key v') (live : s.oldestLive = 0)
    (current : (s.view lay).Current s.currentTime) : v'.Current s.currentTime := by
  cases effect with
  | missing absent => exact current.unlink (stale_of_find live absent)
  | refused => exact current
  | rewritten q f _ stored _ => exact current.log_link stored

theorem DeleteEffect.current {reply : Reply} (effect : DeleteEffect s s' (s.view lay) key reply v')
    (live : s.oldestLive = 0) (current : (s.view lay).Current s.currentTime) :
    v'.Current s.currentTime := by
  cases effect with
  | rejected => exact current
  | missing absent => exact current.unlink (stale_of_find live absent)
  | full => exact current
  | deleted r _ hflags => exact current.log_unlink hflags

/-! ## Requests -/

theorem allocTotal_pos {nkey flags : ℕ} {nbytes : ℤ} (nonneg : 0 ≤ nbytes)
    (bounded : nbytes < 2 ^ 31) : 0 < allocTotal true nkey flags nbytes := by
  simp only [allocTotal, itemMakeHeader, if_true, sizeofItemData]
  omega

theorem Steady.request_pos (h : Steady s lay) (request : s.request cmd = some n) : 0 < n := by
  cases cmd with
  | store comm key flags exptime cas block =>
    simp only [Store.request, updateRequest] at request
    split_ifs at request with rejected
    cases request
    exact allocTotal_pos (by omega) (by omega)
  | touch key exptime =>
    obtain ⟨id, found, rfl⟩ := Option.map_eq_some_iff.1 request
    obtain ⟨f, holds⟩ := h.inv.holds h.sound found
    obtain ⟨eq, small⟩ := h.inv.nbytesInt_recAt holds.mem rfl
    exact allocTotal_pos (by omega) (by omega)
  | arithmetic key incr delta =>
    obtain ⟨id, found, request⟩ := Option.bind_eq_some_iff.1 request
    split_ifs at request
    simp only [Store.deltaRequest, found, Option.bind_some, Option.map_eq_some_iff] at request
    obtain ⟨value, parse, rfl⟩ := request
    have length := length_decimal_le (n := deltaValue incr value delta) (k := 20) (by norm_num) (by
      have : deltaValue incr value delta < 2 ^ 64 := deltaValue_lt (safeStrtoull_lt parse)
      omega)
    exact allocTotal_pos (by omega) (by omega)
  | delete key =>
    obtain ⟨id, found, rfl⟩ := Option.map_eq_some_iff.1 request
    exact allocTotal_pos le_rfl (by norm_num)
  | _ => cases request

theorem Steady.roomFor (h : Steady s lay) (request : s.request cmd = some n)
    (size : 16 * n ≤ s.log.memLimit) (served : (memoryAllocate s.log n).2 ≠ none) : RoomFor s n := by
  obtain ⟨o, some⟩ := Option.ne_none_iff_exists'.1 served
  exact ⟨size, wrapOk_of_some h.inv.log (h.request_pos request) (Prod.ext rfl some)⟩

/-! ## Sequences -/

def Command.Sequential : Command → Prop
  | .store comm .. => comm = .set
  | .binDelete .. => False
  | .flushAll .. => False
  | _ => True

/-- One command or one call of the cleaner, with a request of at most a megabyte that is served. -/
structure SequentialStep (s : Store) (cmd : Command) (s' : Store) : Prop where
  kind : cmd.Sequential
  plain : cmd.Plain
  served : ∀ n, s.request cmd = some n → n ≤ 2 ^ 20 ∧ (memoryAllocate s.log n).2 ≠ none
  ran : ∃ answer, s.exec cmd = .ok (s', answer)

structure Determined (s : Store) (lay : Layout) : Prop where
  steady : Steady s lay
  current : (s.view lay).Current s.currentTime
  live : s.oldestLive = 0
  limit : s.log.memLimit = memlogDefaultSize

theorem Determined.init (cas : settings.useCas = true) (off : settings.lruLogEnabled = false)
    (now : ℕ) : Determined (Store.init settings memlogDefaultSize now) (.flat []) :=
  ⟨⟨Store.init_inv (by decide) (by decide) cas, .init, off⟩, .init now, rfl, rfl⟩

theorem Determined.leaves {lay' : Layout} (h : Determined s lay) (leaves : Leaves s s' lay' v)
    (current : v.Current s.currentTime) : Determined s' lay' := by
  have clock := leaves.setup.clock
  simp only [Store.clock, Prod.mk.injEq] at clock
  refine ⟨leaves.steady h.steady.off, ?_, clock.2.1.trans h.live, leaves.setup.limit.trans h.limit⟩
  rw [leaves.view, clock.1]
  exact current

theorem Determined.step (h : Determined s lay) (step : SequentialStep s cmd s') :
    ∃ lay', Determined s' lay' := by
  obtain ⟨answer, run⟩ := step.ran
  have room (n : ℕ) (request : s.request cmd = some n) : RoomFor s n := by
    obtain ⟨size, served⟩ := step.served n request
    refine h.steady.roomFor request ?_ served
    rw [h.limit, memlogDefaultSize]
    omega
  cases cmd with
  | store comm key flags exptime cas block =>
    obtain rfl : comm = .set := step.kind
    have second : s.SecondFits (.store .set key flags exptime cas block) := by
      rintro (joins | joins) <;> cases joins
    obtain ⟨lay', v, reply, -, leaves, effect⟩ := h.steady.store step.plain room second run
    exact ⟨lay', h.leaves leaves (effect.current h.current fun n request => (step.served n request).2)⟩
  | get returnCas keys =>
    obtain ⟨v, leaves, hides⟩ := h.steady.get run
    exact ⟨lay, h.leaves leaves (hides.current h.live h.current)⟩
  | touch key exptime =>
    obtain ⟨lay', v, leaves, effect⟩ := h.steady.touch room run
    exact ⟨lay', h.leaves leaves (effect.current h.live h.current)⟩
  | arithmetic key incr delta =>
    obtain ⟨lay', v, leaves, effect⟩ := h.steady.arithmetic room run
    exact ⟨lay', h.leaves leaves (effect.current h.live h.current)⟩
  | delete key =>
    obtain ⟨lay', v, reply, -, leaves, effect⟩ := h.steady.delete room run
    exact ⟨lay', h.leaves leaves (effect.current h.live h.current)⟩
  | binDelete key cas => exact absurd step.kind id
  | flushAll exptime => exact absurd step.kind id
  | clean =>
    obtain ⟨lay', k, leaves⟩ := h.steady.clean run
    exact ⟨lay', h.leaves leaves (h.current.drop h.steady.inv.journal_pairwise k)⟩
  | tick n =>
    obtain ⟨rfl, -⟩ := pair_ran.1 run
    exact ⟨lay, h.steady.reclock (s.currentTime + n) s.oldestLive s.oldestCas s.casId,
      h.current.mono (Nat.le_add_right ..), h.live, h.limit⟩

/-- Replaying the records of the log gives the hash table, up to what has expired. -/
theorem log_determines_cache (cas : settings.useCas = true) (off : settings.lruLogEnabled = false)
    (run : Run SequentialStep (Store.init settings memlogDefaultSize now) cmds s) :
    s.log.replay.alive s.currentTime = s.cache.alive s.currentTime := by
  obtain ⟨lay, h⟩ := run.invariant (fun s => ∃ lay, Determined s lay)
    (fun s cmd s' ⟨lay, h⟩ step => h.step step) ⟨_, .init cas off now⟩
  exact replay_alive h.steady.inv h.current h.steady.sound

/-- A `set`, one without its line end, `incr`, `touch` and `get`, time, and a `delete`. -/
def mixedTrace : List Command :=
  [.store .set [97] 5 100 0 [49, 13, 10], .store .set [98] 0 0 0 [49, 49, 49], .arithmetic [97] true 9,
    .touch [97] 50, .get true [[97], [98]], .clean, .tick 60, .get false [[97]],
    .store .set [99] 7 0 0 [120, 13, 10], .delete [99], .store .set [100] 0 0 0 [121, 13, 10]]

/-- The conditions of a sequential step, in a form that can be evaluated. -/
def Store.stepsPlainly (s : Store) : Command → Bool
  | .store comm key flags exptime cas block =>
      decide (comm = .set) && !deletedBit flags.toNat &&
        (s.request (.store comm key flags exptime cas block)).all fun n =>
          decide (n ≤ 2 ^ 20) && (memoryAllocate s.log n).2.isSome
  | .binDelete .. => false
  | .flushAll .. => false
  | cmd => (s.request cmd).all fun n => decide (n ≤ 2 ^ 20) && (memoryAllocate s.log n).2.isSome

theorem sequentialStep_of_plain {p : Store × Answer} (plain : s.stepsPlainly cmd = true)
    (ran : (s.exec cmd).toOption = some p) : SequentialStep s cmd p.1 := by
  have served (all : ((s.request cmd).all fun n =>
      decide (n ≤ 2 ^ 20) && (memoryAllocate s.log n).2.isSome) = true) (n : ℕ)
      (request : s.request cmd = some n) : n ≤ 2 ^ 20 ∧ (memoryAllocate s.log n).2 ≠ none := by
    simpa [request, Option.isSome_iff_ne_none] using all
  cases cmd with
  | store comm key flags exptime cas block =>
    simp only [Store.stepsPlainly, Bool.and_eq_true, decide_eq_true_eq, Bool.not_eq_true'] at plain
    exact ⟨plain.1.1, plain.1.2, served plain.2, p.2, ok_of_toOption ran⟩
  | binDelete => cases plain
  | flushAll => cases plain
  | _ => exact ⟨trivial, trivial, served plain, p.2, ok_of_toOption ran⟩

theorem log_determines_cache_mixed : ∃ s, Run SequentialStep
    (Store.init (settingsInit 1500000000) memlogDefaultSize 62) mixedTrace s ∧
      s.log.replay.alive s.currentTime = s.cache.alive s.currentTime ∧
      s.cache [100] = some ⟨0, [121, 13, 10], 0⟩ := by
  have eval : (mixedTrace.foldlM (fun (s : Store) cmd =>
      if s.stepsPlainly cmd then (s.exec cmd).toOption.map Prod.fst else none)
      (Store.init (settingsInit 1500000000) memlogDefaultSize 62)).map (fun s => s.cache [100]) =
        some (some ⟨0, [121, 13, 10], 0⟩) := by
    decide +kernel
  obtain ⟨s, run, last⟩ := Option.map_eq_some_iff.1 eval
  have steps : Run SequentialStep _ mixedTrace s := (Run.of_foldlM run).mono fun s cmd t next => by
    rw [Option.ite_none_right_eq_some] at next
    obtain ⟨p, ran, rfl⟩ := Option.map_eq_some_iff.1 next.2
    exact sequentialStep_of_plain next.1 ran
  exact ⟨s, steps, log_determines_cache rfl rfl steps, last⟩

end LogMemcached

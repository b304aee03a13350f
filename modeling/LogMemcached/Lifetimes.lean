import LogMemcached.Network
import LogMemcached.SequenceContents

/-!
# How long items live

The expiry word of an item is a 32-bit time relative to the start of the server, with 0 for never.
`lives` is what the expiry time of a command line stands for; the storage commands and `touch` keep
to it exactly under the conditions `UpdateHonours` and `TouchHonours` on that number and the clock.
-/

namespace LogMemcached

open ByteMem CText Fallible Store Transition

/-! ## Reading an expiry time -/

/-- The number `strtol` reads, when `safe_strtol` accepts it: in the range of a 64-bit `long`, and
followed by white space or the end of the string. -/
def acceptedLong (str : List UInt8) : Option ℤ :=
  match scanNumber (str.takeWhile (· != 0)) with
  | none => none
  | some n =>
      let l : ℤ := if n.negative then -n.magnitude else n.magnitude
      if l < -2 ^ 63 ∨ 2 ^ 63 ≤ l then none
      else if n.rest.head?.all isSpace then some l
      else none

/-- `safe_strtol` assigns the `long` to an `int32_t` without a check. -/
theorem safeStrtol_eq (str : List UInt8) :
    safeStrtol str = (acceptedLong str).map fun l => Int.bmod l (2 ^ 32) := by
  unfold safeStrtol acceptedLong
  cases scanNumber (str.takeWhile (· != 0)) with
  | none => rfl
  | some n =>
    dsimp only
    split_ifs <;> rfl

/-! ## The deadline -/

/-- The expiry time `l`, given at time `now` to a server that was started at the Unix time
`started`, has not been reached at time `t`. -/
def lives (started now : ℕ) (l : ℤ) (t : ℕ) : Prop :=
  l = 0 ∨ 0 < l ∧ if l ≤ realtimeMaxdelta then t < now + l else started + t < l

/-- An item with the expiry word `x` has not expired at time `t`. -/
def unexpired (x t : ℕ) : Prop := x = 0 ∨ t < x

/-- The expiry word stands for the deadline, from `now` on, as long as the 32-bit clock runs. -/
def Keeps (x started now : ℕ) (l : ℤ) : Prop :=
  ∀ t, now ≤ t → t < 2 ^ 32 → (unexpired x t ↔ lives started now l t)

/-- When a delay of `e` seconds, of which `l` is the number on the command line, is kept. -/
def DelayHonoured (started now : ℕ) (l e : ℤ) : Prop :=
  if now + e < 2 ^ 32 then l = e ∨ l = started + now + e
  else if now + e = 2 ^ 32 then l = e ∨ started + 2 ^ 32 ≤ l
  else l ≠ e ∧ l ≤ started + now

/-- When an expiry time that is not negative in 32 bits is kept. -/
def TimeHonoured (started now : ℕ) (l e : ℤ) : Prop :=
  if e = 0 then l = 0 ∨ started + 2 ^ 32 ≤ l
  else if e ≤ realtimeMaxdelta then DelayHonoured started now l e
  else l = e ∨ l ≤ started + now ∧ e ≤ started + now

/-- When `set`, `add`, `replace` and `cas` keep to the expiry time `l`.  For a number in the range of
an `int32_t`: a negative one later than 30 days after the epoch, a delay that the clock can reach,
and any other. -/
def UpdateHonours (started now : ℕ) (l : ℤ) : Prop :=
  let e := Int.bmod l (2 ^ 32)
  if e < 0 then realtimeMaxdelta < started + now ∧ l ≤ started + now
  else TimeHonoured started now l e

/-- When `touch` keeps to the expiry time `l`: a negative one has to stay after the start of the
server. -/
def TouchHonours (started now : ℕ) (l : ℤ) : Prop :=
  let e := Int.bmod l (2 ^ 32)
  if e < 0 then
    if 0 < now + e then l ≤ started + now
    else if now + e = 0 then started + 2 ^ 32 ≤ l
    else l = started + now + e + 2 ^ 32
  else TimeHonoured started now l e

section

variable {started now x : ℕ} {l e : ℤ}

/-- Two deadlines that cannot be told apart from `now` on. -/
theorem same_deadline_iff {a b : ℤ} (clock : now < 2 ^ 32) :
    (∀ t : ℕ, now ≤ t → t < 2 ^ 32 → ((t : ℤ) < a ↔ (t : ℤ) < b)) ↔
      a = b ∨ a ≤ now ∧ b ≤ now ∨ 2 ^ 32 ≤ a ∧ 2 ^ 32 ≤ b := by
  constructor
  · intro same
    by_contra differ
    -- at the earlier of the two deadlines, or at `now`, one is over and the other is not
    have at_now := same now le_rfl clock
    have at_a := same a.toNat
    have at_b := same b.toNat
    omega
  · intro cases t from_now to_end
    omega

/-- The first time at which an item with the expiry word `x` has expired. -/
def expiryOf (x : ℕ) : ℤ := if x = 0 then 2 ^ 32 else x

/-- The first time at which the expiry time `l` has been reached. -/
def deadlineOf (started now : ℕ) (l : ℤ) : ℤ :=
  if l = 0 then 2 ^ 32 else if l < 0 then 0 else if l ≤ realtimeMaxdelta then now + l else l - started

theorem keeps_iff (clock : now < 2 ^ 32) : Keeps x started now l ↔
    expiryOf x = deadlineOf started now l ∨
      expiryOf x ≤ now ∧ deadlineOf started now l ≤ now ∨
      2 ^ 32 ≤ expiryOf x ∧ 2 ^ 32 ≤ deadlineOf started now l := by
  rw [← same_deadline_iff clock]
  refine forall_congr' fun t => forall_congr' fun _ => forall_congr' fun small => ?_
  have word : unexpired x t ↔ (t : ℤ) < expiryOf x := by
    unfold unexpired expiryOf
    split_ifs <;> omega
  have line : lives started now l t ↔ (t : ℤ) < deadlineOf started now l := by
    unfold lives deadlineOf
    split_ifs <;> omega
  rw [word, line]

theorem expiryOf_cases (x : ℕ) : x = 0 ∧ expiryOf x = 2 ^ 32 ∨ 0 < x ∧ expiryOf x = x := by
  unfold expiryOf
  split_ifs <;> omega

theorem deadlineOf_cases (started now : ℕ) (l : ℤ) :
    l = 0 ∧ deadlineOf started now l = 2 ^ 32 ∨ l < 0 ∧ deadlineOf started now l = 0 ∨
      0 < l ∧ l ≤ 2592000 ∧ deadlineOf started now l = now + l ∨
      2592000 < l ∧ deadlineOf started now l = l - started := by
  unfold deadlineOf realtimeMaxdelta
  split_ifs <;> omega

theorem keeps_delay {k : ℤ} (line : l = e + 2 ^ 32 * k) (positive : 0 < e) (short : e ≤ 2592000)
    (clock : now < 2 ^ 32) :
    Keeps ((e + now) % 2 ^ 32).toNat started now l ↔ DelayHonoured started now l e := by
  have word := expiryOf_cases ((e + now) % 2 ^ 32).toNat
  have due := deadlineOf_cases started now l
  rw [keeps_iff clock, DelayHonoured]
  split_ifs <;> omega

theorem keeps_time {k : ℤ} {s : Store} (line : l = e + 2 ^ 32 * k) (positive : 0 ≤ e)
    (small : e < 2 ^ 31) (clock : s.currentTime < 2 ^ 32) (running : 1 ≤ s.currentTime) :
    Keeps (s.realtime e) s.settings.processStarted s.currentTime l ↔
      TimeHonoured s.settings.processStarted s.currentTime l e := by
  have word := expiryOf_cases (s.realtime e)
  have due := deadlineOf_cases s.settings.processStarted s.currentTime l
  have maxdelta : realtimeMaxdelta = 2592000 := rfl
  unfold TimeHonoured
  by_cases zero : e = 0
  · have never : s.realtime e = 0 := if_pos zero
    rw [if_pos zero, keeps_iff clock]
    omega
  · rw [if_neg zero]
    by_cases short : e ≤ realtimeMaxdelta
    · rw [if_pos short, Store.realtime, if_neg zero, if_neg (not_lt.2 short)]
      exact keeps_delay line (by omega) (by omega) clock
    · have absolute : s.realtime e = if e ≤ s.settings.processStarted then 1
          else ((e - s.settings.processStarted) % 2 ^ 32).toNat := by
        rw [Store.realtime, if_neg zero, if_pos (not_le.1 short)]
      rw [if_neg short, keeps_iff clock]
      split_ifs at absolute <;> omega

theorem keeps_update {s : Store} (clock : s.currentTime < 2 ^ 32) (running : 1 ≤ s.currentTime) :
    Keeps (s.updateExptime (Int.bmod l (2 ^ 32))) s.settings.processStarted s.currentTime l ↔
      UpdateHonours s.settings.processStarted s.currentTime l := by
  obtain ⟨k, line, low, high⟩ := CText.bmod_spec l
  unfold UpdateHonours Store.updateExptime
  generalize Int.bmod l (2 ^ 32) = e at *
  dsimp only
  by_cases negative : e < 0
  · have word := expiryOf_cases (s.realtime (realtimeMaxdelta + 1))
    have due := deadlineOf_cases s.settings.processStarted s.currentTime l
    have maxdelta : realtimeMaxdelta = 2592000 := rfl
    have soon : s.realtime (realtimeMaxdelta + 1) =
        if (2592001 : ℤ) ≤ s.settings.processStarted then 1
        else (((2592001 : ℤ) - s.settings.processStarted) % 2 ^ 32).toNat := rfl
    rw [if_pos negative, if_pos negative, keeps_iff clock]
    split_ifs at soon <;> omega
  · rw [if_neg negative, if_neg negative]
    exact keeps_time line (by omega) high clock running

theorem keeps_touch {s : Store} (clock : s.currentTime < 2 ^ 32) (running : 1 ≤ s.currentTime) :
    Keeps (s.realtime (Int.bmod l (2 ^ 32))) s.settings.processStarted s.currentTime l ↔
      TouchHonours s.settings.processStarted s.currentTime l := by
  obtain ⟨k, line, low, high⟩ := CText.bmod_spec l
  unfold TouchHonours
  generalize Int.bmod l (2 ^ 32) = e at *
  dsimp only
  by_cases negative : e < 0
  · have word := expiryOf_cases (s.realtime e)
    have due := deadlineOf_cases s.settings.processStarted s.currentTime l
    have maxdelta : realtimeMaxdelta = 2592000 := rfl
    have ago : s.realtime e = ((e + s.currentTime) % 2 ^ 32).toNat := by
      rw [Store.realtime, if_neg (by omega), if_neg (by omega)]
    rw [if_pos negative, keeps_iff clock]
    split_ifs <;> omega
  · rw [if_neg negative]
    exact keeps_time line (by omega) high clock running

end

/-! ## Items -/

variable {s s' s'' : Store} {key : Key} {e : Content} {l : ℤ} {lay : Layout}

/-- The item that `s'` has under the key is still there, and no `flush_all` hides it. -/
def Store.StillHolds (s'' s' : Store) (key : Key) : Prop :=
  ∃ e e'', s'.entry key = some e ∧ s''.entry key = some e'' ∧ e''.exptime = e.exptime ∧
    s''.contents.flushed e'' = false

/-- A command ran in `s` and left an item in `s'`: as long as it is there, a lookup finds it exactly
until the deadline. -/
def Honoured (s s' : Store) (key : Key) (l : ℤ) : Prop :=
  ∀ s'' : Store, s''.StillHolds s' key → s.currentTime ≤ s''.currentTime →
    s''.currentTime < 2 ^ 32 →
      (s''.find key ≠ none ↔ lives s.settings.processStarted s.currentTime l s''.currentTime)

theorem find_iff_unexpired (linked : s.entry key = some e) (kept : s.contents.flushed e = false) :
    s.find key ≠ none ↔ unexpired e.exptime s.currentTime := by
  have shown : s.find key ≠ none ↔ s.contents.hides e = false := by
    have visible : s.contents.visible key ≠ none ↔ s.find key ≠ none := by
      rw [visible_eq]
      cases s.find key <;> simp
    rw [← visible, Option.ne_none_iff_exists']
    constructor
    · rintro ⟨e', seen⟩
      obtain ⟨linked', hides⟩ := Contents.visible_eq_some.1 seen
      rw [show s.contents.entries key = some e from linked] at linked'
      rwa [Option.some.inj linked']
    · exact fun hides => ⟨e, Contents.visible_eq_some.2 ⟨linked, hides⟩⟩
  rw [shown, Contents.hides, kept, Bool.false_or, Contents.expired, unexpired]
  have now : s.contents.now = s.currentTime := rfl
  simp only [Bool.and_eq_false_iff, bne_eq_false_iff_eq, decide_eq_false_iff_not, not_le, now]

theorem honoured_iff (linked : s'.entry key = some e) : Honoured s s' key l ↔
    Keeps e.exptime s.settings.processStarted s.currentTime l := by
  constructor
  · intro honoured t late small
    -- the clock moves on, and no `flush_all` is in effect
    have later := honoured (s'.reclock t 0 0 0) ⟨e, e, linked, linked, rfl, rfl⟩ late small
    exact (find_iff_unexpired (s := s'.reclock t 0 0 0) linked rfl).symm.trans later
  · rintro keeps s'' ⟨e', e'', linked', held, same, kept⟩ late small
    rw [linked] at linked'
    cases linked'
    rw [find_iff_unexpired held kept, same]
    exact keeps s''.currentTime late small

theorem realtime_lt (s : Store) (exptime : ℤ) : s.realtime exptime < 2 ^ 32 := by
  unfold Store.realtime
  split_ifs <;> omega

theorem Steady.entry_stored {comm : NreadComm} {flags : UInt32} {exptime : ℤ} {cas : UInt64}
    {block : List UInt8} (h : Steady s lay) (first : comm ≠ .append ∧ comm ≠ .prepend)
    (fits : s.Fits (.store comm key flags exptime cas block))
    (run : s.exec (.store comm key flags exptime cas block) = .ok (s', .line .stored)) :
    ∃ e, s'.entry key = some e ∧ e.exptime = s.updateExptime exptime := by
  obtain ⟨reply, same, turn⟩ := h.contents_store fits run
  cases same
  generalize done : Reply.stored = answer at turn
  generalize after : s'.contents = contents at turn
  cases turn with
  | refused failed => exact absurd done.symm failed
  | ran req served data hflags hexptime hcas ended =>
    have stored : (s.contents.store comm key req served).2 = .stored := by
      cases result : (s.contents.store comm key req served).2 <;> rw [result] at done <;>
        first | rfl | cases done
    rw [Contents.store_stored first stored] at after
    refine ⟨s.contents.stamp req, ?_, ?_⟩
    · change s'.contents.entries key = _
      rw [after]
      exact Function.update_self ..
    · exact hexptime.trans (Nat.mod_eq_of_lt (realtime_lt s _))

theorem Steady.entry_touched {exptime : ℤ} (h : Steady s lay) (fits : s.Fits (.touch key exptime))
    (run : s.exec (.touch key exptime) = .ok (s', .line .touched)) :
    ∃ e, s'.entry key = some e ∧ e.exptime = s.realtime exptime := by
  obtain ⟨⟨s₁, reply⟩, command, run⟩ := bind_ran.1 run
  obtain ⟨rfl, answer⟩ := pair_ran.1 run
  cases answer
  unfold Store.processTouchCommand at command
  split_ifs at command with long
  · cases pure_ran.1 command
  · obtain ⟨⟨s₂, it⟩, touch, command⟩ := bind_ran.1 command
    obtain ⟨rfl, found⟩ := pair_ran.1 command
    rcases h.inv.contents_doItemTouch (not_lt.1 long) fits.first touch with
      ⟨rfl, -⟩ | ⟨-, e, -, after⟩
    · cases found
    · refine ⟨s.contents.stamp { e with exptime := s.realtime exptime % 2 ^ 32 }, ?_,
        Nat.mod_eq_of_lt (realtime_lt s _)⟩
      change s₂.contents.entries key = _
      rw [after]
      exact Function.update_self ..

/-- Storage commands and `touch` keep to the expiry time on their line exactly when it meets their
condition. -/
theorem expiry_honoured_iff {settings : Settings} {limit now : ℕ} {cmds : List Command}
    (cas : settings.useCas = true) (off : settings.lruLogEnabled = false) (large : 35 ≤ limit)
    (small : limit < 2 ^ 32) (start : 1 ≤ now)
    (run : Run LogStep (Store.init settings limit now) cmds s) (clock : s.currentTime < 2 ^ 32) :
    (∀ comm key flags word l exptime id block s', comm ≠ .append ∧ comm ≠ .prepend →
      acceptedLong word = some l → safeStrtol word = some exptime →
      s.Fits (.store comm key flags exptime id block) →
      s.exec (.store comm key flags exptime id block) = .ok (s', .line .stored) →
      (Honoured s s' key l ↔ UpdateHonours s.settings.processStarted s.currentTime l)) ∧
    (∀ key word l exptime s', acceptedLong word = some l → safeStrtol word = some exptime →
      s.Fits (.touch key exptime) → s.exec (.touch key exptime) = .ok (s', .line .touched) →
      (Honoured s s' key l ↔ TouchHonours s.settings.processStarted s.currentTime l)) := by
  obtain ⟨lay, h⟩ := steady_of_run cas off large small run
  have running := start.trans (clock_of_run cas off large small run)
  refine ⟨fun comm key flags word l exptime id block s' first read parsed fits ran => ?_,
    fun key word l exptime s' read parsed fits ran => ?_⟩
  · rw [safeStrtol_eq, read, Option.map_some, Option.some.injEq] at parsed
    obtain ⟨e, linked, expires⟩ := h.entry_stored first fits ran
    rw [honoured_iff linked, expires, ← parsed]
    exact keeps_update clock running
  · rw [safeStrtol_eq, read, Option.map_some, Option.some.injEq] at parsed
    obtain ⟨e, linked, expires⟩ := h.entry_touched fits ran
    rw [honoured_iff linked, expires, ← parsed]
    exact keeps_touch clock running

/-- A `set` with the expiry time 100. -/
theorem expiry_honoured_hundred : ∃ s',
    (Store.init (settingsInit 1500000000) memlogDefaultSize 62).exec
      (.store .set [97] 0 100 0 [120, 13, 10]) = .ok (s', .line .stored) ∧
    Honoured (Store.init (settingsInit 1500000000) memlogDefaultSize 62) s' [97] 100 := by
  have eval : ((Store.init (settingsInit 1500000000) memlogDefaultSize 62).execSimply
      (.store .set [97] 0 100 0 [120, 13, 10])).map Prod.snd = some (.line .stored) := by
    decide +kernel
  obtain ⟨⟨s', answer⟩, ran, eq⟩ := Option.map_eq_some_iff.1 eval
  obtain rfl : answer = .line .stored := eq
  obtain ⟨-, fits, ran⟩ := execSimply_some ran
  refine ⟨s', ran, ?_⟩
  have iff := (expiry_honoured_iff rfl rfl (by decide) (by decide) (by decide) (.nil _)
    (by decide)).1 .set [97] 0 [49, 48, 48] 100 100 0 [120, 13, 10] s' (by decide)
    (by decide +kernel) (by decide +kernel) fits ran
  rw [iff]
  have kept : UpdateHonours 1500000000 62 100 := by
    unfold UpdateHonours TimeHonoured DelayHonoured
    decide +kernel
  exact kept

/-- `touch a -62` in the 62nd second leaves the expiry word 0, and `set` with 4294967297, which is
read as 1, expires after a second. -/
theorem expiry_not_honoured : ∃ s₁ s₂ s₃,
    (Store.init (settingsInit 1500000000) memlogDefaultSize 62).exec
      (.store .set [97] 0 0 0 [120, 13, 10]) = .ok (s₁, .line .stored) ∧
    safeStrtol [45, 54, 50] = some (-62) ∧
    s₁.exec (.touch [97] (-62)) = .ok (s₂, .line .touched) ∧ ¬Honoured s₁ s₂ [97] (-62) ∧
    acceptedLong [52, 50, 57, 52, 57, 54, 55, 50, 57, 55] = some 4294967297 ∧
    safeStrtol [52, 50, 57, 52, 57, 54, 55, 50, 57, 55] = some 1 ∧
    s₂.exec (.store .set [98] 0 1 0 [120, 13, 10]) = .ok (s₃, .line .stored) ∧
    ¬Honoured s₂ s₃ [98] 4294967297 := by
  have eval : ((Store.init (settingsInit 1500000000) memlogDefaultSize 62).exec
      (.store .set [97] 0 0 0 [120, 13, 10])).toOption.bind (fun p₁ =>
        (p₁.1.exec (.touch [97] (-62))).toOption.bind fun p₂ =>
          (p₂.1.exec (.store .set [98] 0 1 0 [120, 13, 10])).toOption.map fun p₃ =>
            decide (p₁.2 = .line .stored) && decide (p₂.2 = .line .touched) &&
            decide (p₃.2 = .line .stored) && decide (p₁.1.currentTime = 62) &&
            decide (p₂.1.currentTime = 62) && decide (p₂.1.settings.processStarted = 1500000000) &&
            decide ((p₂.1.entry [97]).map Content.exptime = some 0) &&
            decide ((p₃.1.entry [98]).map Content.exptime = some 63)) = some true := by
    decide +kernel
  obtain ⟨⟨s₁, a₁⟩, ran₁, eval⟩ := Option.bind_eq_some_iff.1 eval
  obtain ⟨⟨s₂, a₂⟩, ran₂, eval⟩ := Option.bind_eq_some_iff.1 eval
  obtain ⟨⟨s₃, a₃⟩, ran₃, eq⟩ := Option.map_eq_some_iff.1 eval
  simp only [Bool.and_eq_true, decide_eq_true_eq] at eq
  obtain ⟨⟨⟨⟨⟨⟨⟨rfl, rfl⟩, rfl⟩, now₁⟩, now₂⟩, started⟩, touched⟩, stored⟩ := eq
  obtain ⟨e, linked, never⟩ := Option.map_eq_some_iff.1 touched
  obtain ⟨e', linked', soon⟩ := Option.map_eq_some_iff.1 stored
  refine ⟨s₁, s₂, s₃, ok_of_toOption ran₁, by decide +kernel, ok_of_toOption ran₂, ?_,
    by decide +kernel, by decide +kernel, ok_of_toOption ran₃, ?_⟩
  · rw [honoured_iff linked, never, now₁]
    intro keeps
    have alive := (keeps 62 le_rfl (by decide)).1 (.inl rfl)
    simp [lives] at alive
  · rw [honoured_iff linked', soon, now₂, started]
    intro keeps
    have dead := (keeps 63 (by decide) (by decide)).2 (by simp [lives, realtimeMaxdelta])
    simp [unexpired] at dead

end LogMemcached

import LogMemcached.Numbers

/-!
# The error number of a worker thread

`errno` belongs to the thread: library calls set it when they fail and leave it alone when they
succeed, and it stays from one command to the next, whichever clients these come from.  The `safe_*`
functions clear it before a conversion; `flush_all` and `verbosity` do not.
-/

namespace LogMemcached

open CText

/-- The values of `errno` that matter. -/
inductive Errno
  | zero
  | erange
  | other
deriving DecidableEq, Repr

/-- A library call: a conversion by one of the `safe_*` functions, a plain conversion, or any other
call, which may fail. -/
inductive LibCall
  | safeUnsigned (str : List UInt8)
  | safeSigned (str : List UInt8)
  | strtoul (str : List UInt8)
  | strtol (str : List UInt8)
  | call (failed : Bool)
deriving DecidableEq, Repr

/-- `unsigned long` and `unsigned long long` can hold the number, if there is one. -/
def unsignedRange (str : List UInt8) : Bool :=
  (scanNumber (str.takeWhile (· != 0))).all fun n => n.magnitude < 2 ^ 64

/-- `long` and `long long` can hold the number, if there is one. -/
def signedRange (str : List UInt8) : Bool :=
  (scanNumber (str.takeWhile (· != 0))).all fun n => -2 ^ 63 ≤ valueOf n ∧ valueOf n < 2 ^ 63

/-- `errno` after a call. -/
def Errno.after (e : Errno) : LibCall → Errno
  | .safeUnsigned str => if unsignedRange str then .zero else .erange
  | .safeSigned str => if signedRange str then .zero else .erange
  | .strtoul str => if unsignedRange str then e else .erange
  | .strtol str => if signedRange str then e else .erange
  | .call failed => if failed then .other else e

/-- The value of `strtol`. -/
def strtol (str : List UInt8) : ℤ :=
  match scanNumber (str.takeWhile (· != 0)) with
  | none => 0
  | some n => max (-2 ^ 63) (min (2 ^ 63 - 1) (valueOf n))

/-! ## The commands that read numbers -/

/-- The commands of a worker thread, by what they read: a storage command with the numbers of its
line; `touch`; `incr` and `decr` with the delta, and the data and the suffix of the item they find,
as far as these are read; `stats cachedump`; `cache_memlimit`, `lru_crawler tocrawl` and
`lru_crawler sleep`; `verbosity`; `flush_all` with its tokens; and a library call of anything else,
such as those on a connection's socket. -/
inductive WorkerCommand
  | update (key flags exptime vlen : List UInt8) (cas : Option (List UInt8))
  | touch (key exptime : List UInt8)
  | arithmetic (key delta : List UInt8) (data suffix : Option (List UInt8))
  | cachedump (id limit : List UInt8)
  | setting (n : List UInt8)
  | verbosity (level : List UInt8)
  | flushAll (enabled : Bool) (tokens : List (List UInt8))
  | call (failed : Bool)
deriving DecidableEq, Repr

/-- The conversions of a storage command, up to the first number that is refused. -/
def updateCalls (flags exptime vlen : List UInt8) (cas : Option (List UInt8)) : List LibCall :=
  .safeUnsigned flags ::
    if safeStrtoul flags = none then []
    else .safeSigned exptime ::
      if safeStrtol exptime = none then []
      else .safeSigned vlen ::
        if safeStrtol vlen = none then [] else (cas.map LibCall.safeUnsigned).toList

/-- The conversions of `incr` and `decr`. -/
def arithmeticCalls (delta : List UInt8) (data suffix : Option (List UInt8)) : List LibCall :=
  .safeUnsigned delta ::
    if safeStrtoull delta = none then []
    else match data with
      | none => []
      | some data => .safeUnsigned data ::
          if safeStrtoull data = none then [] else (suffix.map LibCall.strtoul).toList

/-- Whether a `flush_all` line has a delay. -/
def hasDelay (tokens : List (List UInt8)) : Bool :=
  tokens.length + 1 ≠ if saysNoreply tokens then 3 else 2

def WorkerCommand.calls : WorkerCommand → List LibCall
  | .update key flags exptime vlen cas =>
      if key.length > keyMaxLength then [] else updateCalls flags exptime vlen cas
  | .touch key exptime => if key.length > keyMaxLength then [] else [.safeSigned exptime]
  | .arithmetic key delta data suffix =>
      if key.length > keyMaxLength then [] else arithmeticCalls delta data suffix
  | .cachedump id limit =>
      .safeUnsigned id :: if safeStrtoul id = none then [] else [.safeUnsigned limit]
  | .setting n => [.safeUnsigned n]
  | .verbosity level => [.strtoul level]
  | .flushAll enabled tokens =>
      if enabled ∧ hasDelay tokens then [.strtol (tokens.getD 1 [])] else []
  | .call failed => [.call failed]

/-- `errno` after some commands, in a thread that has just started. -/
def errnoAfter (history : List WorkerCommand) : Errno :=
  (history.flatMap WorkerCommand.calls).foldl Errno.after .zero

/-- The branch of `process_command` for `flush_all`: the server's state afterwards and the answer. -/
def processFlushAll (e : Errno) (s : Store) (tokens : List (List UInt8)) : Store × Reply :=
  if s.settings.flushEnabled = false then (s, .flushNotAllowed)
  else if hasDelay tokens then
    if e.after (.strtol (tokens.getD 1 [])) = .erange then (s, .badFormat)
    else s.flushAll (strtol (tokens.getD 1 []))
  else s.flushAll 0

/-- A line `flush_all N`, with or without `noreply`. -/
def flushLine (n : List UInt8) (noreply : Bool) : List (List UInt8) :=
  "flush_all".toUTF8.toList :: n :: if noreply then ["noreply".toUTF8.toList] else []

/-! ## What stays from one command to the next -/

theorem Errno.after_strtol {e : Errno} {str : List UInt8} (range : signedRange str = true) :
    e.after (.strtol str) = e := by
  rw [after, if_pos range]

theorem hasDelay_flushLine {n : List UInt8} {v : ℤ} (number : Denotes n v) (noreply : Bool) :
    hasDelay (flushLine n noreply) = true := by
  cases noreply with
  | true =>
    simp only [hasDelay, flushLine]
    split_ifs <;> simp
  | false =>
    have word : n ≠ "noreply".toUTF8.toList := by
      rintro rfl
      obtain ⟨k, numeral, -⟩ := number
      rw [← scanNumber_eq_some_iff] at numeral
      have none : scanNumber ("noreply".toUTF8.toList.takeWhile (· != 0)) = none := by decide +kernel
      rw [none] at numeral
      cases numeral
    have plain : saysNoreply (flushLine n false) = false :=
      beq_eq_false_iff_ne.2 fun same => word (Option.some.inj same)
    rw [hasDelay, plain]
    rfl

theorem signedRange_of_denotes {n : List UInt8} {v : ℤ} (number : Denotes n v) (low : -2 ^ 63 ≤ v)
    (high : v < 2 ^ 63) : signedRange n = true := by
  obtain ⟨k, numeral, -, rfl⟩ := number
  rw [signedRange, scanNumber_eq_some_iff.2 numeral]
  exact decide_eq_true ⟨low, high⟩

theorem snd_flushAll (s : Store) (exptime : ℤ) : (s.flushAll exptime).2 ≠ .badFormat := by
  simp only [Store.flushAll]
  split_ifs <;> exact fun same => nomatch same

/-- After any commands on its thread, a `flush_all` with a delay in range does what it does on a
thread that has just started, exactly if the commands have not left `ERANGE` behind (or `flush_all`
is not allowed at all). -/
theorem flush_all_as_on_fresh_thread (history : List WorkerCommand) (s : Store) {n : List UInt8}
    {v : ℤ} (number : Denotes n v) (low : -2 ^ 63 ≤ v) (high : v < 2 ^ 63) (noreply : Bool) :
    processFlushAll (errnoAfter history) s (flushLine n noreply) =
        processFlushAll .zero s (flushLine n noreply) ↔
      (s.settings.flushEnabled = true → errnoAfter history ≠ .erange) := by
  have delay := hasDelay_flushLine number noreply
  have range : signedRange ((flushLine n noreply).getD 1 []) = true :=
    signedRange_of_denotes number low high
  cases allowed : s.settings.flushEnabled with
  | false => simp [processFlushAll, allowed]
  | true =>
    simp only [processFlushAll, allowed, Bool.true_eq_false, if_false, delay, if_true,
      Errno.after_strtol range, reduceCtorEq, true_imp_iff]
    constructor
    · intro same left
      rw [if_pos left] at same
      exact snd_flushAll _ _ (congrArg Prod.snd same).symm
    · intro fresh
      rw [if_neg fresh]

theorem flush_all_as_on_fresh_thread_ten : ∃ s : Store, s.settings.flushEnabled = true ∧
    Denotes "10".toUTF8.toList 10 ∧
    (processFlushAll (errnoAfter [.update [97] [48] [48] [49] none]) s
        (flushLine "10".toUTF8.toList false) =
      processFlushAll .zero s (flushLine "10".toUTF8.toList false) ↔
      (s.settings.flushEnabled = true → errnoAfter [.update [97] [48] [48] [49] none] ≠ .erange)) := by
  have number : Denotes "10".toUTF8.toList 10 :=
    ⟨⟨false, 10, []⟩, scanNumber_eq_some_iff.1 (by decide +kernel), rfl, rfl⟩
  exact ⟨.init (settingsInit 1500000000) memlogDefaultSize 62, rfl, number,
    flush_all_as_on_fresh_thread _ _ number (by norm_num) (by norm_num) false⟩

/-- A storage command with flags out of range makes the next `flush_all 10` fail. -/
theorem flush_all_after_bad_flags : ∃ s : Store,
    errnoAfter [.update [97] "99999999999999999999".toUTF8.toList [48] [49] none] = .erange ∧
    (processFlushAll (errnoAfter
        [.update [97] "99999999999999999999".toUTF8.toList [48] [49] none]) s
      (flushLine "10".toUTF8.toList false)).2 = .badFormat ∧
    (processFlushAll .zero s (flushLine "10".toUTF8.toList false)).2 = .ok :=
  ⟨.init (settingsInit 1500000000) memlogDefaultSize 62, by decide +kernel⟩

end LogMemcached

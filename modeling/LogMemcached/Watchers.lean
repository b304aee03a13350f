import Mathlib.Data.List.FinRange
import Mathlib.Data.List.Nodup
import Mathlib.Logic.Function.Basic
import LogMemcached.BipBuffer
import LogMemcached.Lib.Run

/-!
# The watchers of the logger thread

`logger_thread_poll_watchers` and `logger_thread_write_entry` of `logger.c`.  A first loop enters
the descriptors to be polled into `watchers_pollfds`, and a second one takes the results from there,
counting every watcher it meets.  What `poll`, `read` and `write` return is arbitrary.
-/

namespace LogMemcached

open ByteMem Function

/-- `WATCHER_LIMIT`. -/
def watcherLimit : ℕ := 20

instance : NeZero watcherLimit := ⟨by decide⟩

/-- `enum logger_watcher_type`. -/
inductive WatcherType
  | stderr
  | client
deriving DecidableEq, Repr

/-- `logger_watcher`; `written` is what its descriptor has taken so far. -/
structure Watcher where
  sfd : ℕ
  t : WatcherType
  eflags : UInt16
  skipped : ℕ
  failedFlush : Bool
  buf : BipBuf
  written : List UInt8

inductive PollEvent
  | pollin
  | pollout
deriving DecidableEq, Repr

/-- An entry of `watchers_pollfds`, before the call of `poll`. -/
structure Pollfd where
  fd : ℕ
  events : PollEvent
deriving DecidableEq, Repr

/-- The bits of `revents` that are looked at. -/
structure Revents where
  pollin : Bool
  pollout : Bool
  pollhup : Bool
  pollerr : Bool
deriving DecidableEq, Repr

/-- `poll` returns what was asked for, and `POLLHUP` and `POLLERR` at any time. -/
def Revents.Allowed (r : Revents) (p : Pollfd) : Prop :=
  (r.pollin = true → p.events = .pollin) ∧ (r.pollout = true → p.events = .pollout)

/-- What `read` of one byte returns; only 0 and an error other than `EAGAIN` end the connection. -/
inductive ReadResult
  | data
  | eof
  | again
  | failed
deriving DecidableEq, Repr

/-- What `write` or `fwrite` returns. -/
inductive WriteResult
  | wrote (n : ℕ)
  | again
  | failed
deriving DecidableEq, Repr

structure WatcherIo where
  read : ReadResult
  write : WriteResult

/-- What is done to a watcher: a read, a write that takes some bytes, or its end. -/
inductive WatcherAct
  | read
  | write (total : ℕ)
  | close
deriving DecidableEq, Repr

/-- What a call of `logger_thread_poll_watchers` meets: the result of `poll`, if it does not fail,
and of the calls on each descriptor. -/
structure PollEnv where
  revents : Option (ℕ → Revents)
  io : Fin watcherLimit → WatcherIo

/-- `watchers` and the `revents` of `watchers_pollfds`, which stay there between the calls. -/
structure LoggerThread where
  watchers : Fin watcherLimit → Option Watcher
  revents : ℕ → Revents

/-- The thread after a call, the value it returns and what was done to which watcher. -/
structure Polled where
  thread : LoggerThread
  ret : ℤ
  acts : List (Fin watcherLimit × WatcherAct)

namespace Watcher

def events (w : Watcher) (forcePoll : Bool) : Option PollEvent :=
  match w.buf.bipbufPeekAll with
  | some _ => some .pollout
  | none => if forcePoll then some .pollin else none

/-- The write of `size` bytes; `fwrite` reports an error as 0 bytes. -/
def writeActs (w : Watcher) (size : ℕ) : WriteResult → List WatcherAct
  | .wrote n => if min n size = 0 then [.write 0, .close] else [.write (min n size)]
  | .again => if w.t = .client then [.write 0] else [.write 0, .close]
  | .failed => [.write 0, .close]

def acts (w : Watcher) (r : Revents) (io : WatcherIo) : List WatcherAct :=
  let reads : List WatcherAct := if r.pollin then [.read] else []
  if r.pollin ∧ (io.read = .eof ∨ io.read = .failed) then [.read, .close]
  else
    match w.buf.bipbufPeekAll with
    | none => reads
    | some (_, size) =>
        if r.pollhup || r.pollerr then reads ++ [.close]
        else if r.pollout then reads ++ w.writeActs size io.write
        else reads

def flush (w : Watcher) (total : ℕ) : Watcher :=
  if total = 0 then w
  else
    { w with
      buf := (w.buf.bipbufPoll total).getD w.buf
      written := w.written ++ w.buf.regionA.take total }

def after : Option Watcher → WatcherAct → Option Watcher
  | w, .read => w
  | w, .write total => w.map (flush · total)
  | _, .close => none

end Watcher

namespace Polled

def perform (out : Polled) (x : Fin watcherLimit) (a : WatcherAct) : Polled where
  thread := { out.thread with
    watchers := update out.thread.watchers x (Watcher.after (out.thread.watchers x) a) }
  ret := match a with
    | .write total => out.ret + total
    | _ => out.ret
  acts := out.acts ++ [(x, a)]

/-- The second loop, from the index `nfd` on: the index is advanced for every watcher. -/
def serveAll (revents : ℕ → Revents) (io : Fin watcherLimit → WatcherIo) :
    ℕ → List (Fin watcherLimit × Watcher) → Polled → Polled
  | _, [], out => out
  | nfd, (x, w) :: rest, out =>
      serveAll revents io (nfd + 1) rest
        ((w.acts (revents nfd) (io x)).foldl (fun out a => out.perform x a) out)

/-- What the second loop is for: the index is advanced for the watchers that were polled, and only
those are served. -/
def serveOwn (polls : Fin watcherLimit × Watcher → Bool) (revents : ℕ → Revents)
    (io : Fin watcherLimit → WatcherIo) : ℕ → List (Fin watcherLimit × Watcher) → Polled → Polled
  | _, [], out => out
  | nfd, (x, w) :: rest, out =>
      if polls (x, w) then
        serveOwn polls revents io (nfd + 1) rest
          ((w.acts (revents nfd) (io x)).foldl (fun out a => out.perform x a) out)
      else serveOwn polls revents io nfd rest out

end Polled

namespace LoggerThread

def occupied (s : LoggerThread) : List (Fin watcherLimit × Watcher) :=
  (List.finRange watcherLimit).filterMap fun x => (s.watchers x).map (x, ·)

def selects (watcher : Option (Fin watcherLimit)) (x : Fin watcherLimit) : Bool :=
  match watcher with
  | none => true
  | some y => x == y

def polls (forcePoll : Bool) (watcher : Option (Fin watcherLimit))
    (p : Fin watcherLimit × Watcher) : Bool :=
  selects watcher p.1 && (p.2.events forcePoll).isSome

def pollfd (forcePoll : Bool) (watcher : Option (Fin watcherLimit))
    (p : Fin watcherLimit × Watcher) : Option Pollfd :=
  if selects watcher p.1 then (p.2.events forcePoll).map (⟨p.2.sfd, ·⟩) else none

/-- `watchers_pollfds` after the first loop. -/
def pollfds (s : LoggerThread) (forcePoll : Bool) (watcher : Option (Fin watcherLimit)) :
    List Pollfd :=
  s.occupied.filterMap (pollfd forcePoll watcher)

/-- The first loop clears `failed_flush`. -/
def resetFlush (s : LoggerThread) (watcher : Option (Fin watcherLimit)) : LoggerThread :=
  { s with
    watchers := fun x =>
      if selects watcher x then (s.watchers x).map fun w => { w with failedFlush := false }
      else s.watchers x }

/-- A call that serves the watchers it has polled by the second loop `serve`. -/
def pollWith (serve : (ℕ → Revents) → (Fin watcherLimit → WatcherIo) → ℕ →
      List (Fin watcherLimit × Watcher) → Polled → Polled)
    (s : LoggerThread) (forcePoll : Bool) (watcher : Option (Fin watcherLimit)) (env : PollEnv) :
    Polled :=
  let nfd := (s.pollfds forcePoll watcher).length
  let thread := s.resetFlush watcher
  if nfd = 0 then ⟨thread, 0, []⟩
  else
    match env.revents with
    | none => ⟨thread, -1, []⟩
    | some r =>
        let revents := fun i => if i < nfd then r i else s.revents i
        serve revents env.io 0 s.occupied ⟨{ thread with revents }, 0, []⟩

/-- `logger_thread_poll_watchers`. -/
def pollWatchers (s : LoggerThread) (forcePoll : Bool) (watcher : Option (Fin watcherLimit))
    (env : PollEnv) : Polled :=
  s.pollWith Polled.serveAll forcePoll watcher env

/-- Every polled watcher is served by the results of its own descriptor and no other is touched. -/
def pollOwn (s : LoggerThread) (forcePoll : Bool) (watcher : Option (Fin watcherLimit))
    (env : PollEnv) : Polled :=
  s.pollWith (Polled.serveOwn (polls forcePoll watcher)) forcePoll watcher env

end LoggerThread

/-! ## What is done at one slot -/

namespace Polled

variable {out : Polled} {x y : Fin watcherLimit} {w : Watcher} {a : WatcherAct}
  {revents : ℕ → Revents} {io : Fin watcherLimit → WatcherIo}
  {before after : List (Fin watcherLimit × Watcher)} {k : ℕ}

def slot (out : Polled) (x : Fin watcherLimit) : List WatcherAct × Option Watcher :=
  ((out.acts.filter fun p => p.1 = x).map Prod.snd, out.thread.watchers x)

def slotAct (p : List WatcherAct × Option Watcher) (a : WatcherAct) :
    List WatcherAct × Option Watcher :=
  (p.1 ++ [a], Watcher.after p.2 a)

theorem slot_perform_self : (out.perform x a).slot x = slotAct (out.slot x) a := by
  simp [slot, slotAct, perform]

theorem slot_perform_of_ne (other : y ≠ x) : (out.perform y a).slot x = out.slot x := by
  simp [slot, perform, other, update_of_ne other.symm]

theorem slot_foldl_self (acts : List WatcherAct) :
    (acts.foldl (fun out a => out.perform x a) out).slot x = acts.foldl slotAct (out.slot x) := by
  induction acts generalizing out with
  | nil => rfl
  | cons a acts ih => rw [List.foldl_cons, ih, slot_perform_self, List.foldl_cons]

theorem slot_foldl_of_ne (other : y ≠ x) (acts : List WatcherAct) :
    (acts.foldl (fun out a => out.perform y a) out).slot x = out.slot x := by
  induction acts generalizing out with
  | nil => rfl
  | cons a acts ih => rw [List.foldl_cons, ih, slot_perform_of_ne other]

theorem fst_foldl_slotAct (acts : List WatcherAct) (p : List WatcherAct × Option Watcher) :
    (acts.foldl slotAct p).1 = p.1 ++ acts := by
  induction acts generalizing p with
  | nil => simp
  | cons a acts ih => simp [ih, slotAct]

variable {polls : Fin watcherLimit × Watcher → Bool}

theorem slot_serveOwn_of_notMem (free : x ∉ after.map Prod.fst) :
    (serveOwn polls revents io k after out).slot x = out.slot x := by
  induction after generalizing out k with
  | nil => rfl
  | cons p after ih =>
    rw [List.map_cons, List.mem_cons, not_or] at free
    rw [serveOwn]
    split_ifs
    · rw [ih free.2, slot_foldl_of_ne (Ne.symm free.1)]
    · rw [ih free.2]

/-- A polled watcher is served by the results at the index of its place among those polled. -/
theorem slot_serveOwn (once : ((before ++ (x, w) :: after).map Prod.fst).Nodup) :
    (serveOwn polls revents io k (before ++ (x, w) :: after) out).slot x =
      (if polls (x, w) then w.acts (revents (k + before.countP polls)) (io x) else []).foldl
        slotAct (out.slot x) := by
  rw [List.map_append, List.map_cons, List.nodup_middle, List.nodup_cons, List.mem_append,
    not_or] at once
  obtain ⟨⟨notBefore, notAfter⟩, -⟩ := once
  induction before generalizing out k with
  | nil =>
    rw [List.nil_append, serveOwn]
    split_ifs
    · rw [slot_serveOwn_of_notMem notAfter, slot_foldl_self]
      rfl
    · rw [slot_serveOwn_of_notMem notAfter]
      rfl
  | cons p before ih =>
    rw [List.map_cons, List.mem_cons, not_or] at notBefore
    rw [List.cons_append, serveOwn, List.countP_cons]
    by_cases polled : polls p = true
    · rw [if_pos polled, if_pos polled, ih notBefore.2, slot_foldl_of_ne (Ne.symm notBefore.1),
        Nat.add_right_comm, Nat.add_assoc]
    · rw [if_neg polled, if_neg polled, ih notBefore.2, Nat.add_zero]

theorem serveAll_eq_serveOwn {ws : List (Fin watcherLimit × Watcher)} {j : ℕ}
    (alike : ∀ before x w after, ws = before ++ (x, w) :: after →
      w.acts (revents (k + before.length)) (io x) =
        if polls (x, w) then w.acts (revents (j + before.countP polls)) (io x) else []) :
    serveAll revents io k ws out = serveOwn polls revents io j ws out := by
  induction ws generalizing out k j with
  | nil => rfl
  | cons p ws ih =>
    obtain ⟨x, w⟩ := p
    have first := alike [] x w ws rfl
    have rest := fun before y v after (split : ws = before ++ (y, v) :: after) =>
      alike ((x, w) :: before) y v after (by rw [split, List.cons_append])
    simp only [List.length_nil, List.countP_nil, Nat.add_zero] at first
    simp only [List.length_cons, List.countP_cons] at rest
    rw [serveAll, serveOwn, first]
    by_cases polled : polls (x, w) = true
    · rw [if_pos polled, if_pos polled]
      refine ih fun before y v after split => ?_
      have := rest before y v after split
      rw [if_pos polled] at this
      rwa [Nat.add_right_comm, Nat.add_assoc, Nat.add_right_comm j, Nat.add_assoc]
    · rw [if_neg polled, if_neg polled]
      refine ih fun before y v after split => ?_
      have := rest before y v after split
      rw [if_neg polled] at this
      rwa [Nat.add_right_comm, Nat.add_assoc]

theorem serveAll_eq_all : serveAll revents io k after out =
    serveOwn (fun _ => true) revents io k after out :=
  serveAll_eq_serveOwn fun _ _ _ _ _ => by simp

theorem slot_serveAll_of_notMem (free : x ∉ after.map Prod.fst) :
    (serveAll revents io k after out).slot x = out.slot x := by
  rw [serveAll_eq_all, slot_serveOwn_of_notMem free]

theorem slot_serveAll (once : ((before ++ (x, w) :: after).map Prod.fst).Nodup) :
    (serveAll revents io k (before ++ (x, w) :: after) out).slot x =
      (w.acts (revents (k + before.length)) (io x)).foldl slotAct (out.slot x) := by
  rw [serveAll_eq_all, slot_serveOwn once]
  simp

end Polled

/-! ## Whose results are used -/

/-- Results on account of which nothing is done to a watcher. -/
def Watcher.Harmless (w : Watcher) (r : Revents) : Prop :=
  r.pollin = false ∧
    (w.buf.bipbufPeekAll = none ∨ r.pollhup = false ∧ r.pollerr = false ∧ r.pollout = false)

theorem Watcher.Harmless.acts_eq {w : Watcher} {r : Revents} (h : w.Harmless r) (io : WatcherIo) :
    w.acts r io = [] := by
  obtain ⟨noIn, none | ⟨noHup, noErr, noOut⟩⟩ := h
  · simp [acts, noIn, none]
  · cases peek : w.buf.bipbufPeekAll <;> simp [acts, noIn, noHup, noErr, noOut, peek]

theorem Watcher.writeActs_ne_nil (w : Watcher) (size : ℕ) (res : WriteResult) :
    w.writeActs size res ≠ [] := by
  cases res with
  | failed => exact List.cons_ne_nil _ _
  | _ => simp only [writeActs]; split_ifs <;> exact List.cons_ne_nil _ _

theorem Watcher.harmless_of_acts {w : Watcher} {r : Revents} {io : WatcherIo}
    (quiet : w.acts r io = []) : w.Harmless r := by
  cases asked : r.pollin with
  | true =>
    by_cases gone : io.read = .eof ∨ io.read = .failed
    · simp [acts, asked, gone] at quiet
    · cases peek : w.buf.bipbufPeekAll with
      | none => simp [acts, asked, gone, peek] at quiet
      | some area =>
        simp only [acts, asked, gone, and_false, if_false, if_true, peek] at quiet
        split_ifs at quiet <;> cases quiet
  | false =>
    refine ⟨asked, ?_⟩
    cases peek : w.buf.bipbufPeekAll with
    | none => exact .inl rfl
    | some area =>
      simp only [acts, asked, Bool.false_eq_true, false_and, if_false, peek,
        List.nil_append] at quiet
      split_ifs at quiet with closing out
      · exact absurd quiet (w.writeActs_ne_nil _ _)
      · rw [Bool.or_eq_true, not_or, Bool.not_eq_true, Bool.not_eq_true] at closing
        exact .inr ⟨closing.1, closing.2, Bool.eq_false_of_not_eq_true out⟩

namespace LoggerThread

variable {s : LoggerThread} {forcePoll : Bool} {watcher : Option (Fin watcherLimit)}
  {x : Fin watcherLimit} {w : Watcher} {before after : List (Fin watcherLimit × Watcher)}

/-- The results at the places of the second loop are those of the watchers there: no watcher that
is not polled stands before one that is, and what an earlier call has left behind the results asks
for nothing. -/
def Aligned (s : LoggerThread) (forcePoll : Bool) (watcher : Option (Fin watcherLimit)) : Prop :=
  s.pollfds forcePoll watcher = [] ∨
    ∀ before x w after, s.occupied = before ++ (x, w) :: after →
      if polls forcePoll watcher (x, w) then ∀ p ∈ before, polls forcePoll watcher p = true
      else w.Harmless (s.revents before.length)

/-- `poll` returns for each entry what was asked for. -/
def PollEnv.Allowed (env : PollEnv) (fds : List Pollfd) : Prop :=
  ∀ r, env.revents = some r → ∀ i p, fds[i]? = some p → (r i).Allowed p

theorem isSome_pollfd (p : Fin watcherLimit × Watcher) :
    (pollfd forcePoll watcher p).isSome = polls forcePoll watcher p := by
  rw [pollfd, polls]
  split_ifs with selected <;> simp [selected]

theorem length_filterMap_pollfd (ws : List (Fin watcherLimit × Watcher)) :
    (ws.filterMap (pollfd forcePoll watcher)).length = ws.countP (polls forcePoll watcher) := by
  rw [List.length_filterMap_eq_countP]
  exact List.countP_congr fun p _ => by rw [isSome_pollfd]

theorem length_pollfds :
    (s.pollfds forcePoll watcher).length = s.occupied.countP (polls forcePoll watcher) :=
  length_filterMap_pollfd _

theorem getElem?_pollfds (split : s.occupied = before ++ (x, w) :: after) {p : Pollfd}
    (entered : pollfd forcePoll watcher (x, w) = some p) :
    (s.pollfds forcePoll watcher)[before.countP (polls forcePoll watcher)]? = some p := by
  rw [pollfds, split, List.filterMap_append, List.filterMap_cons_some entered,
    ← length_filterMap_pollfd, List.getElem?_append_right (Nat.le_refl _), Nat.sub_self]
  rfl

theorem nodup_occupied : (s.occupied.map Prod.fst).Nodup := by
  have slots : s.occupied.map Prod.fst =
      (List.finRange watcherLimit).filter fun x => (s.watchers x).isSome := by
    rw [occupied, List.map_filterMap, ← List.filterMap_eq_filter]
    refine List.filterMap_congr fun x _ => ?_
    cases occupied : s.watchers x <;> simp [Option.guard, occupied]
  rw [slots]
  exact (List.nodup_finRange _).filter _

theorem slot_pollWatchers (split : s.occupied = before ++ (x, w) :: after)
    (some_ : s.pollfds forcePoll watcher ≠ []) {env : PollEnv} {r : ℕ → Revents}
    (polled : env.revents = some r) :
    ((s.pollWatchers forcePoll watcher env).slot x).1 =
      w.acts (if before.length < (s.pollfds forcePoll watcher).length then r before.length
        else s.revents before.length) (env.io x) := by
  have once := s.nodup_occupied
  rw [split] at once
  rw [pollWatchers, pollWith, if_neg (mt List.eq_nil_of_length_eq_zero some_), polled]
  simp only [split]
  rw [Polled.slot_serveAll once, Polled.fst_foldl_slotAct, Nat.zero_add]
  rfl

theorem countP_lt_length (split : s.occupied = before ++ (x, w) :: after)
    (entered : polls forcePoll watcher (x, w) = true) :
    before.countP (polls forcePoll watcher) < (s.pollfds forcePoll watcher).length := by
  rw [length_pollfds, split, List.countP_append, List.countP_cons_of_pos entered]
  omega

theorem slot_pollOwn (split : s.occupied = before ++ (x, w) :: after)
    (some_ : s.pollfds forcePoll watcher ≠ []) {env : PollEnv} {r : ℕ → Revents}
    (polled : env.revents = some r) :
    ((s.pollOwn forcePoll watcher env).slot x).1 =
      if polls forcePoll watcher (x, w) then
        w.acts (r (before.countP (polls forcePoll watcher))) (env.io x) else [] := by
  have once := s.nodup_occupied
  rw [split] at once
  rw [pollOwn, pollWith, if_neg (mt List.eq_nil_of_length_eq_zero some_), polled]
  simp only [split]
  rw [Polled.slot_serveOwn once, Polled.fst_foldl_slotAct, Nat.zero_add]
  split_ifs with entered low
  · rfl
  · exact absurd (countP_lt_length split entered) low
  · rfl

/-- A watcher that is not polled stands behind all the results when no polled one follows it. -/
theorem length_le_of_last (split : s.occupied = before ++ (x, w) :: after)
    (skipped : polls forcePoll watcher (x, w) = false)
    (ordered : ∀ before y v after, s.occupied = before ++ (y, v) :: after →
      polls forcePoll watcher (y, v) = true → ∀ p ∈ before, polls forcePoll watcher p = true) :
    (s.pollfds forcePoll watcher).length ≤ before.length := by
  have none : after.countP (polls forcePoll watcher) = 0 := by
    rw [List.countP_eq_zero]
    intro p mem entered
    obtain ⟨front, back, rfl⟩ := List.append_of_mem mem
    have := ordered (before ++ (x, w) :: front) p.1 p.2 back (by simp [split]) entered (x, w) (by simp)
    rw [skipped] at this
    cases this
  rw [length_pollfds, split, List.countP_append, List.countP_cons_of_neg (by simp [skipped]), none]
  exact List.countP_le_length

def quiet : Revents := ⟨false, false, false, false⟩

def reported : PollEvent → Revents
  | .pollin => ⟨true, false, false, false⟩
  | .pollout => ⟨false, true, false, false⟩

theorem acts_quiet (w : Watcher) (io : WatcherIo) : w.acts quiet io = [] :=
  Watcher.Harmless.acts_eq ⟨rfl, .inr ⟨rfl, rfl, rfl⟩⟩ io

theorem acts_reported {ev : PollEvent} (asked : w.events forcePoll = some ev) (io : WatcherIo) :
    w.acts (reported ev) io ≠ [] := by
  intro none
  obtain ⟨noIn, rest⟩ := Watcher.harmless_of_acts none
  rw [Watcher.events] at asked
  cases ev with
  | pollin => cases noIn
  | pollout =>
    obtain empty | ⟨-, -, noOut⟩ := rest
    · rw [empty] at asked
      cases forcePoll <;> cases asked
    · cases noOut

theorem acts_of_same (same : ∀ env, PollEnv.Allowed env (s.pollfds forcePoll watcher) →
      s.pollWatchers forcePoll watcher env = s.pollOwn forcePoll watcher env)
    (some_ : s.pollfds forcePoll watcher ≠ []) (split : s.occupied = before ++ (x, w) :: after)
    {r : ℕ → Revents}
    (allowed : ∀ i p, (s.pollfds forcePoll watcher)[i]? = some p → (r i).Allowed p) (io : WatcherIo) :
    w.acts (if before.length < (s.pollfds forcePoll watcher).length then r before.length
        else s.revents before.length) io =
      if polls forcePoll watcher (x, w) then
        w.acts (r (before.countP (polls forcePoll watcher))) io else [] := by
  have equal := same ⟨some r, fun _ => io⟩ fun r' polled => by cases polled; exact allowed
  have done : ((s.pollWatchers forcePoll watcher ⟨some r, fun _ => io⟩).slot x).1 =
      ((s.pollOwn forcePoll watcher ⟨some r, fun _ => io⟩).slot x).1 := by rw [equal]
  rwa [slot_pollWatchers split some_ rfl, slot_pollOwn split some_ rfl] at done

theorem quiet_allowed (p : Pollfd) : quiet.Allowed p := by
  simp [Revents.Allowed, quiet]

theorem reported_allowed (fd : ℕ) (ev : PollEvent) : (reported ev).Allowed ⟨fd, ev⟩ := by
  cases ev <;> simp [Revents.Allowed, reported]

/-- No watcher stands before a polled one unpolled: it would be served by the other's results, as
one sees when these change and the others do not. -/
theorem ordered_of_same (same : ∀ env, PollEnv.Allowed env (s.pollfds forcePoll watcher) →
      s.pollWatchers forcePoll watcher env = s.pollOwn forcePoll watcher env)
    (split : s.occupied = before ++ (x, w) :: after)
    (entered : polls forcePoll watcher (x, w) = true) :
    ∀ p ∈ before, polls forcePoll watcher p = true := by
  have low := countP_lt_length split entered
  have some_ : s.pollfds forcePoll watcher ≠ [] := by
    rintro none
    rw [none] at low
    exact absurd low (Nat.not_lt_zero _)
  obtain ⟨selected, asked⟩ := Bool.and_eq_true_iff.1 entered
  obtain ⟨ev, asked⟩ := Option.isSome_iff_exists.1 asked
  have entry : (s.pollfds forcePoll watcher)[before.countP (polls forcePoll watcher)]? =
      some ⟨w.sfd, ev⟩ :=
    getElem?_pollfds split (by rw [pollfd, if_pos selected, asked]; rfl)
  let r : ℕ → Revents :=
    fun i => if i = before.countP (polls forcePoll watcher) then reported ev else quiet
  have allowed : ∀ i p, (s.pollfds forcePoll watcher)[i]? = some p → (r i).Allowed p := by
    intro i p at_
    simp only [r]
    split_ifs with own
    · rw [own, entry] at at_
      cases at_
      exact reported_allowed _ _
    · exact quiet_allowed p
  have io : WatcherIo := ⟨.again, .again⟩
  have calm := acts_of_same same some_ split (r := fun _ => quiet) (fun _ p _ => quiet_allowed p) io
  have busy := acts_of_same same some_ split allowed io
  rw [if_pos entered, acts_quiet] at calm
  rw [if_pos entered] at busy
  rw [← List.countP_eq_length]
  by_contra moved
  refine acts_reported asked io ?_
  simp only [r, if_pos, if_neg (Ne.symm moved)] at busy
  rw [← busy, calm]

theorem Aligned.pollWatchers_eq (h : s.Aligned forcePoll watcher) (env : PollEnv) :
    s.pollWatchers forcePoll watcher env = s.pollOwn forcePoll watcher env := by
  by_cases none : s.pollfds forcePoll watcher = []
  · simp [pollWatchers, pollOwn, pollWith, none]
  have aligned := h.resolve_left none
  have nfd := mt List.eq_nil_of_length_eq_zero none
  rw [pollWatchers, pollOwn, pollWith, pollWith, if_neg nfd, if_neg nfd]
  cases env.revents with
  | none => rfl
  | some r =>
    refine Polled.serveAll_eq_serveOwn fun before x w after split => ?_
    have here := aligned before x w after split
    simp only [Nat.zero_add]
    cases entered : polls forcePoll watcher (x, w) with
    | true =>
      rw [if_pos entered] at here
      rw [if_pos rfl, List.countP_eq_length.2 here]
    | false =>
      rw [if_neg (by simp [entered])] at here
      have behind := length_le_of_last split entered fun before y v after split entered => by
        have := aligned before y v after split
        rwa [if_pos entered] at this
      rw [if_neg Bool.false_ne_true, if_neg (Nat.not_lt.2 behind), here.acts_eq]

/-- A call serves every watcher by the results of its own descriptor, whatever `poll` returns,
exactly if the places of the watchers are those of their results. -/
theorem poll_results_to_own_watcher (s : LoggerThread) (forcePoll : Bool)
    (watcher : Option (Fin watcherLimit)) :
    (∀ env, PollEnv.Allowed env (s.pollfds forcePoll watcher) →
      s.pollWatchers forcePoll watcher env = s.pollOwn forcePoll watcher env) ↔
    s.Aligned forcePoll watcher := by
  refine ⟨fun same => ?_, fun aligned env _ => aligned.pollWatchers_eq env⟩
  by_cases some_ : s.pollfds forcePoll watcher = []
  · exact .inl some_
  refine .inr fun before x w after split => ?_
  split_ifs with entered
  · exact ordered_of_same same split entered
  · have behind := length_le_of_last split (Bool.eq_false_of_not_eq_true entered)
      fun _ _ _ _ split entered => ordered_of_same same split entered
    have calm := acts_of_same same some_ split (r := fun _ => quiet)
      (fun _ p _ => quiet_allowed p) ⟨.again, .again⟩
    rw [if_neg (Nat.not_lt.2 behind), if_neg entered] at calm
    exact Watcher.harmless_of_acts calm

/-- Watcher 1 alone is polled and its descriptor was hung up: watcher 0 is closed. -/
theorem hung_up_closes_other : ∃ s : LoggerThread, ∃ env : PollEnv,
    s.pollfds false (some 1) = [⟨8, .pollout⟩] ∧ PollEnv.Allowed env [⟨8, .pollout⟩] ∧
      ((s.watchers 0).map Watcher.sfd, (s.watchers 1).map Watcher.sfd) = (some 7, some 8) ∧
      (s.pollWatchers false (some 1) env).acts = [(0, .close)] ∧
      (s.pollOwn false (some 1) env).acts = [(1, .close)] := by
  let w (sfd : ℕ) : Watcher := ⟨sfd, .client, 4, 0, false, ⟨1024, 0, 4, 0, false, fun _ => 0⟩, []⟩
  let s : LoggerThread :=
    ⟨fun x => if x = 0 then some (w 7) else if x = 1 then some (w 8) else none, fun _ => quiet⟩
  let env : PollEnv := ⟨some fun _ => ⟨false, false, true, false⟩, fun _ => ⟨.again, .again⟩⟩
  refine ⟨s, env, by decide +kernel, ?_, by decide +kernel, by decide +kernel, by decide +kernel⟩
  rintro r polled i p -
  cases polled
  simp [Revents.Allowed]

end LoggerThread

end LogMemcached

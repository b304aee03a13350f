import LogMemcached.Watchers

/-!
# The lines a watcher is sent

`logger_thread_write_entry` appends the text of an entry to the buffer of every watcher with a
matching flag, or counts it as skipped when the buffer is full and cannot be flushed; the next line
that fits is preceded by the count.
-/

namespace LogMemcached

open ByteMem CText Function Transition

/-- A parsed entry: its flags and its text in `scratch`, with the zero at its end. -/
structure ParsedEntry where
  eflags : UInt16
  scratch : List UInt8
  nonempty : scratch ≠ []
  fits : scratch.length ≤ 4096

/-- What `snprintf` writes for the skipped entries. -/
def skippedText (skipped : ℕ) : List UInt8 := "skipped=".toUTF8.toList ++ decimal skipped ++ [10]

namespace Watcher

/-- `logger_add_watcher`: a watcher for the connection `c`, if there is one. -/
def new (c : Bool) (sfd : ℕ) (eflags : UInt16) (size : UInt32) (data : Mem) : Watcher where
  sfd
  t := if sfd = 0 ∧ c = false then .stderr else .client
  eflags
  skipped := 0
  failedFlush := false
  buf :=
    let buf := BipBuf.bipbufNew size.toNat data
    (buf.bipbufOffer "OK\r\n".toUTF8.toList).getD buf
  written := []

/-- Write the line about skipped entries to the space that was requested, and push it. -/
def pushSkipped (w : Watcher) : Watcher :=
  let buf := w.buf.store w.buf.tail (skippedText w.skipped ++ [0])
  { w with buf := (buf.bipbufPush ((skippedText w.skipped).length + 1)).getD buf, skipped := 0 }

/-- The last `bipbuf_offer`, whose result is not looked at. -/
def offer (w : Watcher) (scratch : List UInt8) : Watcher :=
  { w with buf := (w.buf.bipbufOffer scratch).getD w.buf }

/-- Before the last `bipbuf_offer`: the line about skipped entries has been pushed, if there were
any. -/
def beforeOffer (w : Watcher) : Watcher := if 0 < w.skipped then w.pushSkipped else w

/-- The rest of the body of the loop once there is space or flushing has failed. -/
def writeLine (w : Watcher) (scratch : List UInt8) : Watcher :=
  if w.failedFlush then { w with skipped := w.skipped + 1 }
  else if 0 < w.skipped ∧ 128 ≤ (skippedText w.skipped).length then
    { w with skipped := w.skipped + 1 }
  else w.beforeOffer.offer scratch

end Watcher

namespace LoggerThread

/-- `w->failed_flush = true`. -/
def failFlush (s : LoggerThread) (x : Fin watcherLimit) : LoggerThread :=
  { s with
    watchers := update s.watchers x ((s.watchers x).map fun w => { w with failedFlush := true }) }

/-- The condition that ends the loop.  A watcher that the call has closed is not looked at again;
the source goes on with its freed memory there. -/
def ready (s : LoggerThread) (x : Fin watcherLimit) (size : ℕ) : Bool :=
  match s.watchers x with
  | none => true
  | some w => w.failedFlush || (w.buf.bipbufRequest size).isSome

/-- The loop that flushes a watcher until there is space, over what its calls of
`logger_thread_poll_watchers` meet; `none` when it goes on beyond those. -/
def flushLoop (x : Fin watcherLimit) (size : ℕ) :
    List PollEnv → LoggerThread → Option (LoggerThread × List PollEnv)
  | [], s => if s.ready x size then some (s, []) else none
  | env :: envs, s =>
      if s.ready x size then some (s, env :: envs)
      else
        let out := s.pollWatchers false (some x) env
        flushLoop x size envs (if out.ret ≤ 0 then out.thread.failFlush x else out.thread)

def writeTo (e : ParsedEntry) (s : LoggerThread × List PollEnv) (x : Fin watcherLimit) :
    Option (LoggerThread × List PollEnv) :=
  match s.1.watchers x with
  | none => some s
  | some w =>
      if e.eflags &&& w.eflags = 0 then some s
      else
        (flushLoop x (e.scratch.length + 128) s.2 s.1).map fun (s, envs) =>
          ({ s with watchers := update s.watchers x ((s.watchers x).map (·.writeLine e.scratch)) },
            envs)

/-- `logger_thread_write_entry`. -/
def writeEntry (s : LoggerThread) (e : ParsedEntry) (envs : List PollEnv) : Option LoggerThread :=
  ((List.finRange watcherLimit).foldlM (writeTo e) (s, envs)).map Prod.fst

/-- `logger_add_watcher`: the first free slot is taken. -/
def loggerAddWatcher (s : LoggerThread) (w : Watcher) : LoggerThread :=
  match (List.finRange watcherLimit).find? fun x => (s.watchers x).isNone with
  | none => s
  | some x => { s with watchers := update s.watchers x (some w) }

end LoggerThread

/-- What happens to the watchers: an entry is written, the logger thread polls all of them, or one
is added. -/
inductive LoggerStep
  | entry (e : ParsedEntry) (envs : List PollEnv)
  | poll (env : PollEnv)
  | add (c : Bool) (sfd : ℕ) (eflags : UInt16) (size : UInt32) (data : Mem)

def LoggerThread.next (s : LoggerThread) : LoggerStep → Option LoggerThread
  | .entry e envs => s.writeEntry e envs
  | .poll env => some (s.pollWatchers true none env).thread
  | .add c sfd eflags size data => some (s.loggerAddWatcher (.new c sfd eflags size data))

/-! ## Flushing -/

/-- What a watcher has been sent and will be: the bytes written and those in the buffer. -/
def Watcher.stream (w : Watcher) : List UInt8 := w.written ++ w.buf.contents

/-- The bytes of the watcher's buffer were moved to its descriptor, if anything. -/
structure Watcher.Flushed (w w' : Watcher) : Prop where
  eflags : w'.eflags = w.eflags
  skipped : w'.skipped = w.skipped
  valid : w'.buf.Valid
  stream : w'.stream = w.stream

namespace Watcher

variable {w v w' w'' : Watcher}

theorem Flushed.refl (valid : w.buf.Valid) : w.Flushed w := ⟨rfl, rfl, valid, rfl⟩

theorem Flushed.trans (h : w.Flushed w') (h' : w'.Flushed w'') : w.Flushed w'' :=
  ⟨h'.eflags.trans h.eflags, h'.skipped.trans h.skipped, h'.valid, h'.stream.trans h.stream⟩

theorem flushed_flush (valid : w.buf.Valid) {total : ℕ} (some_ : total ≤ w.buf.regionA.length) :
    w.Flushed (w.flush total) := by
  rw [flush]
  split_ifs with zero
  · exact .refl valid
  · obtain ⟨buf, polled, valid', contents⟩ := valid.contents_poll (Nat.pos_of_ne_zero zero) some_
    rw [polled]
    refine ⟨rfl, rfl, valid', ?_⟩
    rw [stream, stream, contents]
    exact List.append_assoc ..

theorem peekAll_size {start size : ℕ} (peek : w.buf.bipbufPeekAll = some (start, size)) :
    size = w.buf.regionA.length := by
  rw [BipBuf.bipbufPeekAll] at peek
  split_ifs at peek
  cases peek
  rw [BipBuf.regionA, length_slice]

theorem foldl_reads (r : Revents) (o : Option Watcher) :
    (if r.pollin then [WatcherAct.read] else []).foldl after o = o := by
  split_ifs <;> rfl

theorem foldl_writeActs {size : ℕ} {res : WriteResult}
    (left : (w.writeActs size res).foldl after (some v) = some w') :
    ∃ total, total ≤ size ∧ w' = v.flush total := by
  cases res with
  | wrote n =>
    rw [writeActs] at left
    split_ifs at left
    · cases left
    · exact ⟨min n size, min_le_right _ _, (Option.some.inj left).symm⟩
  | again =>
    rw [writeActs] at left
    split_ifs at left
    · exact ⟨0, Nat.zero_le _, (Option.some.inj left).symm⟩
    · cases left
  | failed => cases left

theorem foldl_acts {r : Revents} {io : WatcherIo}
    (left : (w.acts r io).foldl after (some v) = some w') :
    ∃ total, total ≤ w.buf.regionA.length ∧ w' = v.flush total := by
  have same : some v = some w' → ∃ total, total ≤ w.buf.regionA.length ∧ w' = v.flush total :=
    fun same => ⟨0, Nat.zero_le _, (Option.some.inj same).symm⟩
  rw [acts] at left
  by_cases gone : r.pollin ∧ (io.read = .eof ∨ io.read = .failed)
  · rw [if_pos gone] at left
    cases left
  rw [if_neg gone] at left
  cases peek : w.buf.bipbufPeekAll with
  | none =>
    rw [peek] at left
    dsimp only at left
    rw [foldl_reads] at left
    exact same left
  | some area =>
    rw [peek] at left
    dsimp only at left
    by_cases ended : (r.pollhup || r.pollerr) = true
    · rw [if_pos ended, List.foldl_append, foldl_reads] at left
      cases left
    rw [if_neg ended] at left
    by_cases out : r.pollout = true
    · rw [if_pos out, List.foldl_append, foldl_reads] at left
      rw [← peekAll_size peek]
      exact foldl_writeActs left
    · rw [if_neg out, foldl_reads] at left
      exact same left

end Watcher

namespace LoggerThread

variable {s s' s'' : LoggerThread} {x y : Fin watcherLimit} {w w' : Watcher}

/-- A watcher that is still there was there before, and has at most been flushed. -/
def Flushes (x : Fin watcherLimit) (s s' : LoggerThread) : Prop :=
  ∀ w', s'.watchers x = some w' →
    ∃ w, s.watchers x = some w ∧ (w.buf.Valid → w.Flushed w')

theorem Flushes.refl (x : Fin watcherLimit) (s : LoggerThread) : Flushes x s s :=
  fun w' at_ => ⟨w', at_, .refl⟩

theorem Flushes.trans (h : Flushes x s s') (h' : Flushes x s' s'') : Flushes x s s'' := by
  intro w'' at''
  obtain ⟨w', at', flushed'⟩ := h' w'' at''
  obtain ⟨w, at_, flushed⟩ := h w' at'
  exact ⟨w, at_, fun valid => (flushed valid).trans (flushed' (flushed valid).valid)⟩

theorem Flushes.of_eq (same : s'.watchers x = s.watchers x) : Flushes x s s' :=
  fun w' at_ => ⟨w', same ▸ at_, .refl⟩

theorem Flushes.setFailed {b : Bool}
    (set : s'.watchers x = (s.watchers x).map fun w => { w with failedFlush := b }) :
    Flushes x s s' := by
  intro w' at_
  rw [set, Option.map_eq_some_iff] at at_
  obtain ⟨w, at_, rfl⟩ := at_
  exact ⟨w, at_, fun valid => ⟨rfl, rfl, valid, rfl⟩⟩

theorem flushes_resetFlush (s : LoggerThread) (watcher : Option (Fin watcherLimit))
    (x : Fin watcherLimit) : Flushes x s (s.resetFlush watcher) := by
  cases selected : selects watcher x with
  | true => exact .setFailed (b := false) (by simp [resetFlush, selected])
  | false => exact .of_eq (by simp [resetFlush, selected])

theorem flushes_failFlush (s : LoggerThread) (y x : Fin watcherLimit) :
    Flushes x s (s.failFlush y) := by
  by_cases other : x = y
  · obtain rfl := other
    exact .setFailed (b := true) (by simp [failFlush])
  · exact .of_eq (by simp [failFlush, update_of_ne other])

theorem snd_foldl_slotAct (acts : List WatcherAct) (p : List WatcherAct × Option Watcher) :
    (acts.foldl Polled.slotAct p).2 = acts.foldl Watcher.after p.2 := by
  induction acts generalizing p with
  | nil => rfl
  | cons a acts ih => rw [List.foldl_cons, ih]; rfl

theorem mem_occupied : (x, w) ∈ s.occupied ↔ s.watchers x = some w := by
  simp [occupied]

theorem flushes_serveAll {out : Polled} {revents : ℕ → Revents} {io : Fin watcherLimit → WatcherIo}
    {f : Watcher → Watcher} (same : ∀ w, (f w).buf = w.buf)
    (entry : out.thread.watchers x = (s.watchers x).map f) :
    Flushes x out.thread (Polled.serveAll revents io 0 s.occupied out).thread := by
  cases here : s.watchers x with
  | none =>
    have free : x ∉ s.occupied.map Prod.fst := by
      simp only [List.mem_map, Prod.exists, exists_and_right, exists_eq_right, mem_occupied, here]
      simp
    exact .of_eq (congrArg Prod.snd (Polled.slot_serveAll_of_notMem free))
  | some w =>
    obtain ⟨before, after, split⟩ := List.append_of_mem (mem_occupied.2 here)
    have once := s.nodup_occupied
    rw [split] at once ⊢
    have entry : out.thread.watchers x = some (f w) := by rw [entry, here, Option.map_some]
    have served : (Polled.serveAll revents io 0 (before ++ (x, w) :: after) out).thread.watchers x =
        (w.acts (revents (0 + before.length)) (io x)).foldl Watcher.after (some (f w)) := by
      rw [← entry]
      exact (congrArg Prod.snd (Polled.slot_serveAll once)).trans (snd_foldl_slotAct ..)
    intro w' left
    refine ⟨f w, entry, fun valid => ?_⟩
    rw [served] at left
    obtain ⟨total, some_, rfl⟩ := Watcher.foldl_acts left
    exact Watcher.flushed_flush valid (by rwa [same])

/-- A call of `logger_thread_poll_watchers` closes a watcher or flushes it. -/
theorem flushes_pollWatchers (s : LoggerThread) (forcePoll : Bool)
    (watcher : Option (Fin watcherLimit)) (env : PollEnv) (x : Fin watcherLimit) :
    Flushes x s (s.pollWatchers forcePoll watcher env).thread := by
  have reset := s.flushes_resetFlush watcher x
  rw [pollWatchers, pollWith]
  split_ifs
  · exact reset
  cases env.revents with
  | none => exact reset
  | some r =>
    refine reset.trans ?_
    cases selected : selects watcher x with
    | true =>
      exact flushes_serveAll (f := fun w => { w with failedFlush := false }) (fun _ => rfl)
        (by simp [resetFlush, selected])
    | false => exact flushes_serveAll (f := id) (fun _ => rfl) (by simp [resetFlush, selected])

theorem flushes_flushLoop {size : ℕ} {envs envs' : List PollEnv}
    (run : flushLoop y size envs s = some (s', envs')) (x : Fin watcherLimit) : Flushes x s s' := by
  induction envs generalizing s with
  | nil =>
    rw [flushLoop] at run
    split_ifs at run
    cases run
    exact .refl x _
  | cons env envs ih =>
    rw [flushLoop] at run
    split_ifs at run
    · cases run
      exact .refl x _
    · refine (s.flushes_pollWatchers false (some y) env x).trans (.trans ?_ (ih run))
      split_ifs
      · exact flushes_failFlush _ y x
      · exact .refl x _

end LoggerThread

/-! ## Writing a line -/

/-- The line about entries skipped before the next line, if there are any. -/
def skippedLine (skipped : ℕ) : List UInt8 :=
  if skipped = 0 then [] else skippedText skipped ++ [0]

namespace Watcher

variable {w w' : Watcher} {scratch : List UInt8} {appended : Bool}

/-- An entry was appended to what the watcher is sent, or counted as skipped. -/
structure Wrote (scratch : List UInt8) (appended : Bool) (w w' : Watcher) : Prop where
  eflags : w'.eflags = w.eflags
  valid : w'.buf.Valid
  skipped : w'.skipped = if appended then 0 else w.skipped + 1
  stream : w'.stream = w.stream ++ if appended then skippedLine w.skipped ++ scratch else []

theorem Flushed.trans_wrote {w'' : Watcher} (h : w.Flushed w') (h' : Wrote scratch appended w' w'') :
    Wrote scratch appended w w'' where
  eflags := h'.eflags.trans h.eflags
  valid := h'.valid
  skipped := by rw [h'.skipped, h.skipped]
  stream := by rw [h'.stream, h.stream, h.skipped]

theorem Wrote.trans_flushed {w'' : Watcher} (h : Wrote scratch appended w w') (h' : w'.Flushed w'') :
    Wrote scratch appended w w'' where
  eflags := h'.eflags.trans h.eflags
  valid := h'.valid
  skipped := h'.skipped.trans h.skipped
  stream := h'.stream.trans h.stream

/-- The line about skipped entries takes no more than the 128 bytes requested for it, wherever the
push leaves the end of the buffer. -/
theorem beforeOffer_room (valid : w.buf.Valid)
    (short : ¬(0 < w.skipped ∧ 128 ≤ (skippedText w.skipped).length)) {n : ℕ}
    (granted : (w.buf.bipbufRequest (n + 128)).isSome) :
    w.beforeOffer.buf.Valid ∧ ¬w.beforeOffer.buf.bipbufUnused < n ∧
      w.beforeOffer.stream = w.stream ++ skippedLine w.skipped := by
  obtain ⟨a, granted⟩ := Option.isSome_iff_exists.1 granted
  have room := (BipBuf.request_eq_some granted).1
  rw [beforeOffer]
  split_ifs with some_
  · have small : (skippedText w.skipped).length < 128 := Nat.lt_of_not_le fun long => short ⟨some_, long⟩
    have requested : ¬w.buf.bipbufUnused < (n + ((skippedText w.skipped).length + 1) : ℕ) :=
      fun less => room (lt_of_lt_of_le less (by exact_mod_cast (by omega)))
    obtain ⟨buf, pushed, rest⟩ := (valid.store w.buf.tail (skippedText w.skipped ++ [0])).unused_push
      requested
    have offered : w.buf.bipbufOffer (skippedText w.skipped ++ [0]) = some buf := by
      rw [BipBuf.bipbufOffer, List.length_append]
      exact pushed
    obtain ⟨valid', contents⟩ := valid.offer (by simp) offered
    have result : w.pushSkipped = { w with buf, skipped := 0 } := by
      rw [pushSkipped, pushed]
      rfl
    rw [result]
    refine ⟨valid', rest, ?_⟩
    rw [stream, stream, contents, skippedLine, if_neg (by omega)]
    exact (List.append_assoc ..).symm
  · have none : w.skipped = 0 := by omega
    refine ⟨valid, fun less => room (lt_of_lt_of_le less (by exact_mod_cast (by omega))), ?_⟩
    rw [skippedLine, if_pos none, List.append_nil]

theorem offer_isSome {buf : BipBuf} (room : ¬buf.bipbufUnused < (scratch.length : ℕ)) :
    (buf.bipbufOffer scratch).isSome := by
  rw [BipBuf.bipbufOffer, BipBuf.bipbufPush, if_neg (by rwa [BipBuf.unused_store])]
  rfl

theorem wrote_writeLine (valid : w.buf.Valid) (record : scratch ≠ [])
    (ready : (w.failedFlush || (w.buf.bipbufRequest (scratch.length + 128)).isSome) = true) :
    ∃ appended, Wrote scratch appended w (w.writeLine scratch) := by
  have counted : Wrote scratch false w { w with skipped := w.skipped + 1 } :=
    ⟨rfl, valid, rfl, (List.append_nil _).symm⟩
  rw [writeLine]
  by_cases failed : w.failedFlush = true
  · rw [if_pos failed]
    exact ⟨false, counted⟩
  rw [if_neg failed]
  by_cases long : 0 < w.skipped ∧ 128 ≤ (skippedText w.skipped).length
  · rw [if_pos long]
    exact ⟨false, counted⟩
  rw [if_neg long]
  have granted : (w.buf.bipbufRequest (scratch.length + 128)).isSome := by
    rwa [Bool.eq_false_of_not_eq_true failed, Bool.false_or] at ready
  obtain ⟨valid', room, stream_eq⟩ := beforeOffer_room valid long granted
  obtain ⟨buf, offered⟩ := Option.isSome_iff_exists.1 (offer_isSome room)
  obtain ⟨valid'', contents⟩ := valid'.offer record offered
  have result : w.beforeOffer.offer scratch = { w.beforeOffer with buf } := by rw [offer, offered]; rfl
  rw [result]
  refine ⟨true, ?_, valid'', ?_, ?_⟩
  · simp only [beforeOffer, pushSkipped]
    split_ifs <;> rfl
  · simp only [beforeOffer, pushSkipped, if_true]
    split_ifs with some_
    · rfl
    · exact Nat.eq_zero_of_not_pos some_
  · rw [if_pos rfl, ← List.append_assoc, ← stream_eq, stream, stream, contents]
    exact (List.append_assoc ..).symm

end Watcher

namespace LoggerThread

variable {s s' : LoggerThread} {x y : Fin watcherLimit} {e : ParsedEntry}
  {envs envs' : List PollEnv}

theorem flushLoop_ready {size : ℕ} (run : flushLoop x size envs s = some (s', envs')) :
    s'.ready x size = true := by
  induction envs generalizing s with
  | nil =>
    rw [flushLoop] at run
    split_ifs at run with ready
    cases run
    exact ready
  | cons env envs ih =>
    rw [flushLoop] at run
    split_ifs at run with ready
    · cases run
      exact ready
    · exact ih run

theorem flushes_writeTo (other : x ≠ y) (turn : writeTo e (s, envs) y = some (s', envs')) :
    Flushes x s s' := by
  rw [writeTo] at turn
  split at turn
  · cases turn
    exact .refl x _
  · split_ifs at turn
    · cases turn
      exact .refl x _
    · obtain ⟨⟨s₁, envs₁⟩, loop, result⟩ := Option.map_eq_some_iff.1 turn
      cases result
      exact (flushes_flushLoop loop x).trans (.of_eq (update_of_ne other _ _))

def Written (e : ParsedEntry) (w w' : Watcher) : Prop :=
  if e.eflags &&& w.eflags = 0 then w.Flushed w'
  else ∃ appended, Watcher.Wrote e.scratch appended w w'

theorem written_writeTo (turn : writeTo e (s, envs) x = some (s', envs')) {w' : Watcher}
    (left : s'.watchers x = some w') :
    ∃ w, s.watchers x = some w ∧ (w.buf.Valid → Written e w w') := by
  rw [writeTo] at turn
  split at turn
  · next none =>
    cases turn
    rw [none] at left
    cases left
  · next w here =>
    split_ifs at turn with unmatched
    · cases turn
      rw [here] at left
      cases left
      refine ⟨w', here, fun valid => ?_⟩
      rw [Written, if_pos unmatched]
      exact .refl valid
    · obtain ⟨⟨s₁, envs₁⟩, loop, result⟩ := Option.map_eq_some_iff.1 turn
      cases result
      simp only [update_self, Option.map_eq_some_iff] at left
      obtain ⟨v, at_, rfl⟩ := left
      obtain ⟨w₀, here₀, flushed⟩ := flushes_flushLoop loop x v at_
      obtain rfl : w₀ = w := Option.some.inj (here₀.symm.trans here)
      refine ⟨w₀, here, fun valid => ?_⟩
      have ready := flushLoop_ready loop
      rw [LoggerThread.ready, at_] at ready
      obtain ⟨appended, wrote⟩ :=
        Watcher.wrote_writeLine (flushed valid).valid e.nonempty ready
      rw [Written, if_neg unmatched]
      exact ⟨appended, (flushed valid).trans_wrote wrote⟩

theorem flushes_foldlM {ys : List (Fin watcherLimit)} (others : x ∉ ys)
    (turns : ys.foldlM (writeTo e) (s, envs) = some (s', envs')) : Flushes x s s' := by
  induction ys generalizing s envs with
  | nil =>
    cases turns
    exact .refl x _
  | cons y ys ih =>
    rw [List.mem_cons, not_or] at others
    rw [List.foldlM_cons] at turns
    obtain ⟨⟨s₁, envs₁⟩, first, rest⟩ := Option.bind_eq_some_iff.1 turns
    exact (flushes_writeTo others.1 first).trans (ih others.2 rest)

theorem written_writeEntry (wrote : s.writeEntry e envs = some s') {w' : Watcher}
    (left : s'.watchers x = some w') :
    ∃ w, s.watchers x = some w ∧ (w.buf.Valid → Written e w w') := by
  obtain ⟨⟨s₃, envs₃⟩, turns, rfl⟩ := Option.map_eq_some_iff.1 wrote
  obtain ⟨before, after, split⟩ := List.append_of_mem (List.mem_finRange x)
  have once := List.nodup_finRange watcherLimit
  rw [split, List.nodup_middle, List.nodup_cons, List.mem_append, not_or] at once
  obtain ⟨⟨notBefore, notAfter⟩, -⟩ := once
  rw [split, List.foldlM_append] at turns
  obtain ⟨⟨s₁, envs₁⟩, first, turns⟩ := Option.bind_eq_some_iff.1 turns
  rw [List.foldlM_cons] at turns
  obtain ⟨⟨s₂, envs₂⟩, turn, last⟩ := Option.bind_eq_some_iff.1 turns
  obtain ⟨w₂, at₂, flushed₂⟩ := flushes_foldlM notAfter last w' left
  obtain ⟨w₁, at₁, written⟩ := written_writeTo turn at₂
  obtain ⟨w, at_, flushed⟩ := flushes_foldlM notBefore first w₁ at₁
  refine ⟨w, at_, fun valid => ?_⟩
  have written := written (flushed valid).valid
  rw [Written, (flushed valid).eflags] at written
  rw [Written]
  split_ifs at written ⊢
  · exact ((flushed valid).trans written).trans (flushed₂ written.valid)
  · obtain ⟨appended, wrote⟩ := written
    exact ⟨appended, ((flushed valid).trans_wrote wrote).trans_flushed (flushed₂ wrote.valid)⟩

end LoggerThread

/-! ## The lines of a watcher -/

def LoggerStep.matching (eflags : UInt16) : LoggerStep → Option ParsedEntry
  | .entry e _ => if e.eflags &&& eflags = 0 then none else some e
  | _ => none

/-- The lines of entries of which some are omitted, with `run` omitted before: the next line after a
run of omitted entries is preceded by its length. -/
def lines : ℕ → List (ParsedEntry × Bool) → List UInt8
  | _, [] => []
  | run, (_, false) :: rest => lines (run + 1) rest
  | run, (e, true) :: rest => skippedLine run ++ e.scratch ++ lines 0 rest

def omitted : ℕ → List (ParsedEntry × Bool) → ℕ
  | run, [] => run
  | run, (_, false) :: rest => omitted (run + 1) rest
  | _, (_, true) :: rest => omitted 0 rest

theorem lines_snoc (run : ℕ) (es : List (ParsedEntry × Bool)) (e : ParsedEntry) (appended : Bool) :
    lines run (es ++ [(e, appended)]) =
      lines run es ++ if appended then skippedLine (omitted run es) ++ e.scratch else [] := by
  induction es generalizing run with
  | nil => cases appended <;> simp [lines, omitted]
  | cons p es ih =>
    obtain ⟨e', _ | _⟩ := p
    · exact ih (run + 1)
    · simp only [List.cons_append, lines, omitted, ih 0, List.append_assoc]

theorem omitted_snoc (run : ℕ) (es : List (ParsedEntry × Bool)) (e : ParsedEntry) (appended : Bool) :
    omitted run (es ++ [(e, appended)]) = if appended then 0 else omitted run es + 1 := by
  induction es generalizing run with
  | nil => cases appended <;> rfl
  | cons p es ih =>
    obtain ⟨e', _ | _⟩ := p
    · exact ih (run + 1)
    · exact ih 0

namespace LoggerThread

variable {s s' : LoggerThread} {x : Fin watcherLimit}

def Keeping (x : Fin watcherLimit) (s : LoggerThread) (a : LoggerStep) (s' : LoggerThread) : Prop :=
  s.next a = some s' ∧ (s'.watchers x).isSome

theorem flushes_loggerAddWatcher (w : Watcher) (here : (s.watchers x).isSome) :
    Flushes x s (s.loggerAddWatcher w) := by
  rw [loggerAddWatcher]
  split
  · exact .refl x s
  · next y free =>
    have empty : (s.watchers y).isNone := by simpa using List.find?_some free
    have other : x ≠ y := by
      rintro rfl
      rw [Option.isNone_iff_eq_none.1 empty] at here
      cases here
    exact .of_eq (update_of_ne other _ _)

/-- The watcher at a slot after some steps, from one with the given flags whose stream begins with
`greeting`: its stream is made of the lines of the matching entries. -/
def Lined (x : Fin watcherLimit) (eflags : UInt16) (greeting : List UInt8) (s : LoggerThread)
    (steps : List LoggerStep) : Prop :=
  ∃ w es, s.watchers x = some w ∧ w.eflags = eflags ∧ w.buf.Valid ∧
    es.map Prod.fst = steps.filterMap (LoggerStep.matching eflags) ∧
    w.stream = greeting ++ lines 0 es ∧ w.skipped = omitted 0 es

variable {eflags : UInt16} {greeting : List UInt8} {done : List LoggerStep} {a : LoggerStep}

theorem Lined.flushed (h : Lined x eflags greeting s done) (flushes : Flushes x s s')
    (left : (s'.watchers x).isSome) (unmatched : a.matching eflags = none) :
    Lined x eflags greeting s' (done ++ [a]) := by
  obtain ⟨w, es, at_, flags, valid, entries, stream, skipped⟩ := h
  obtain ⟨w', at'⟩ := Option.isSome_iff_exists.1 left
  obtain ⟨w₀, at₀, flushed⟩ := flushes w' at'
  obtain rfl : w₀ = w := Option.some.inj (at₀.symm.trans at_)
  have flushed := flushed valid
  refine ⟨w', es, at', flushed.eflags.trans flags, flushed.valid, ?_, flushed.stream.trans stream,
    flushed.skipped.trans skipped⟩
  simp [entries, unmatched]

theorem Lined.entry (h : Lined x eflags greeting s done) {e : ParsedEntry} {envs : List PollEnv}
    (wrote : s.writeEntry e envs = some s') (left : (s'.watchers x).isSome) :
    Lined x eflags greeting s' (done ++ [.entry e envs]) := by
  obtain ⟨w, es, at_, flags, valid, entries, stream, skipped⟩ := h
  obtain ⟨w', at'⟩ := Option.isSome_iff_exists.1 left
  obtain ⟨w₀, at₀, written⟩ := written_writeEntry wrote at'
  obtain rfl : w₀ = w := Option.some.inj (at₀.symm.trans at_)
  have written := written valid
  rw [Written, flags] at written
  split_ifs at written with unmatched
  · refine ⟨w', es, at', written.eflags.trans flags, written.valid, ?_, written.stream.trans stream,
      written.skipped.trans skipped⟩
    simp [entries, LoggerStep.matching, unmatched]
  · obtain ⟨appended, wrote⟩ := written
    refine ⟨w', es ++ [(e, appended)], at', wrote.eflags.trans flags, wrote.valid, ?_, ?_, ?_⟩
    · simp [entries, LoggerStep.matching, unmatched]
    · rw [wrote.stream, stream, skipped, lines_snoc, List.append_assoc]
    · rw [wrote.skipped, skipped, omitted_snoc]

theorem Lined.step (h : Lined x eflags greeting s done) (step : Keeping x s a s') :
    Lined x eflags greeting s' (done ++ [a]) := by
  obtain ⟨moved, left⟩ := step
  cases a with
  | entry e envs => exact h.entry moved left
  | poll env =>
    obtain rfl := Option.some.inj moved
    exact h.flushed (s.flushes_pollWatchers true none env x) left rfl
  | add c sfd flags size data =>
    obtain rfl := Option.some.inj moved
    obtain ⟨w, es, at_, -⟩ := id h
    exact h.flushed (flushes_loggerAddWatcher _ (by rw [at_]; rfl)) left rfl

theorem valid_new (c : Bool) (sfd : ℕ) (eflags : UInt16) (size : UInt32) (data : Mem) :
    (Watcher.new c sfd eflags size data).buf.Valid := by
  have fresh : (BipBuf.bipbufNew size.toNat data).Valid := .new size.toNat_lt data
  simp only [Watcher.new]
  cases offered : (BipBuf.bipbufNew size.toNat data).bipbufOffer "OK\r\n".toUTF8.toList with
  | none => exact fresh
  | some buf => exact (fresh.offer (by decide +kernel) offered).1

/-- As long as a watcher is not closed, what it is sent after its greeting is the lines of the
entries that match its flags, in order, where the line after a run of omitted entries is preceded by
one with the length of the run; the entries omitted since the last line are counted.  When space for
a line and 128 bytes more was granted, the line is always taken. -/
theorem watcher_lines (c : Bool) (sfd : ℕ) (eflags : UInt16) (size : UInt32) (data : Mem)
    (added : s.watchers x = some (.new c sfd eflags size data)) {steps : List LoggerStep}
    (run : Run (Keeping x) s steps s') :
    ∃ w es, s'.watchers x = some w ∧
      es.map Prod.fst = steps.filterMap (LoggerStep.matching eflags) ∧
      w.stream = (Watcher.new c sfd eflags size data).stream ++ lines 0 es ∧
      w.skipped = omitted 0 es ∧
      ∀ scratch : List UInt8, (w.buf.bipbufRequest (scratch.length + 128)).isSome →
        ¬(0 < w.skipped ∧ 128 ≤ (skippedText w.skipped).length) →
        (w.beforeOffer.buf.bipbufOffer scratch).isSome := by
  have start : Lined x eflags (Watcher.new c sfd eflags size data).stream s [] :=
    ⟨_, [], added, rfl, valid_new .., rfl, by simp [lines], rfl⟩
  obtain ⟨w, es, at_, -, valid, entries, stream, skipped⟩ :=
    run.history _ (fun _ _ _ _ h step => h.step step) start
  refine ⟨w, es, at_, entries, stream, skipped, fun scratch granted short => ?_⟩
  exact Watcher.offer_isSome (Watcher.beforeOffer_room valid short granted).2.1

/-- The second entry finds a buffer of 200 bytes full; the third follows the line about it. -/
theorem watcher_lines_skipped : ∃ s s' : LoggerThread, ∃ steps w es,
    s.watchers 0 = some (.new true 7 4 200 fun _ => 0) ∧ Run (Keeping 0) s steps s' ∧
      s'.watchers 0 = some w ∧
      es.map Prod.fst = steps.filterMap (LoggerStep.matching 4) ∧
      w.stream = (Watcher.new true 7 4 200 fun _ => 0).stream ++ lines 0 es ∧
      w.stream = "OK\r\nab\x00skipped=1\n\x00ef\x00".toUTF8.toList := by
  let s : LoggerThread :=
    ⟨fun y => if y = 0 then some (.new true 7 4 200 fun _ => 0) else none, fun _ => quiet⟩
  let env (n : ℕ) : PollEnv :=
    ⟨some fun _ => reported .pollout, fun _ => ⟨.again, if n = 0 then .again else .wrote n⟩⟩
  let e (text : List UInt8) (h : text ≠ [] ∧ text.length ≤ 4096) : ParsedEntry := ⟨4, text, h.1, h.2⟩
  let steps : List LoggerStep :=
    [.entry (e [97, 98, 0] (by decide)) [],
      .entry (e (List.replicate 80 99 ++ [0]) (by decide)) [env 0],
      .poll (env 100), .entry (e [101, 102, 0] (by decide)) []]
  let keep (s : LoggerThread) (a : LoggerStep) : Option LoggerThread :=
    (s.next a).filter fun s' => (s'.watchers 0).isSome
  have trace : (steps.foldlM keep s).map (fun s' => (s'.watchers 0).map Watcher.stream) =
      some (some "OK\r\nab\x00skipped=1\n\x00ef\x00".toUTF8.toList) := by
    decide +kernel
  obtain ⟨s', moved, stream⟩ := Option.map_eq_some_iff.1 trace
  have run : Run (Keeping 0) s steps s' := (Run.of_foldlM moved).mono fun _ _ _ next => by
    obtain ⟨moved, left⟩ := Option.filter_eq_some_iff.1 next
    exact ⟨moved, left⟩
  obtain ⟨w, es, at_, entries, lines, -⟩ := watcher_lines true 7 4 200 (fun _ => 0) rfl run
  refine ⟨s, s', steps, w, es, rfl, run, at_, entries, lines, ?_⟩
  rw [at_] at stream
  exact Option.some.inj stream

end LoggerThread

end LogMemcached

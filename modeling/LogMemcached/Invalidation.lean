import LogMemcached.Lib.Run
import LogMemcached.SequenceSteps

/-!
# Invalidations and the replica

A client makes an item invisible by an ASCII or a binary `delete`, by `flush_all`, or by a `set` for
which the log has no room.  A replica reads nothing but the log, and among these only the ASCII
`delete` writes to it.
-/

namespace LogMemcached

open ByteMem CText Tiling Fallible Transition Journal Store

variable {s s' : Store} {lay lay' : Layout} {cmd : Command} {cmds : List Command} {key : Key}
  {id now n limit : ℕ} {v v' : View} {settings : Settings} {answer : Answer}

/-! ## Effects on backed views -/

theorem Hides.backed (hides : Hides s v v') (backed : v.Backed) : v'.Backed := by
  induction hides with
  | refl => exact backed
  | step _ _ ih => exact ih (backed.unlink _)

theorem StoreEffect.backed {comm : NreadComm} {flags : ℕ} {vlen : ℤ} {reply : Reply}
    (effect : StoreEffect s v comm key flags vlen reply v') (backed : v.Backed) : v'.Backed := by
  have idle {r : Rec} (dirty : r.flags = dirtyFlags) : (v.log r).Backed :=
    backed.log_idle (.inl (kind_dirty dirty))
  cases effect with
  | rejected => exact backed
  | full =>
    split_ifs
    · exact backed.unlink key
    · exact backed
  | spoilt r hflags => exact backed.log_idle (.inr (kind_corrupted hflags))
  | stored r _ _ hflags _ => exact backed.log_link hflags
  | refused r _ _ _ hflags _ left =>
    obtain rfl | rfl := left
    · exact idle hflags
    · exact (idle hflags).unlink key
  | joined r q f _ hflags _ stored _ => exact (idle hflags).log_link stored

theorem RelogEffect.backed (effect : RelogEffect s v key v') (backed : v.Backed) : v'.Backed := by
  cases effect with
  | missing => exact backed.unlink key
  | refused => exact backed
  | rewritten q f _ stored _ => exact backed.log_link stored

theorem DeleteEffect.backed {reply : Reply} (effect : DeleteEffect s s' v key reply v')
    (backed : v.Backed) : v'.Backed := by
  cases effect with
  | rejected => exact backed
  | missing => exact backed.unlink key
  | full => exact backed
  | deleted r _ hflags => exact backed.log_unlink hflags

theorem BinDeleteEffect.backed {succeed : Bool} (effect : BinDeleteEffect s v key succeed v')
    (backed : v.Backed) : v'.Backed := by
  cases effect with
  | missing => exact backed.unlink key
  | mismatch => exact backed
  | deleted => exact backed.unlink key

/-! ## Runs -/

structure BackedStore (s : Store) (lay : Layout) : Prop where
  steady : Steady s lay
  backed : (s.view lay).Backed

theorem BackedStore.leaves (h : BackedStore s lay) (leaves : Leaves s s' lay' v)
    (backed : v.Backed) : BackedStore s' lay' :=
  ⟨leaves.steady h.steady.off, by rw [leaves.view]; exact backed⟩

theorem BackedStore.step (h : BackedStore s lay) (step : FittingStep s cmd s') :
    ∃ lay', BackedStore s' lay' := by
  obtain ⟨answer, run⟩ := step.ran
  have room := step.fits.first
  cases cmd with
  | store comm key flags exptime cas block =>
    obtain ⟨lay', v, reply, -, leaves, effect⟩ := h.steady.store step.plain room step.fits.second run
    exact ⟨lay', h.leaves leaves (effect.backed h.backed)⟩
  | get returnCas keys =>
    obtain ⟨v, leaves, hides⟩ := h.steady.get run
    exact ⟨lay, h.leaves leaves (hides.backed h.backed)⟩
  | touch key exptime =>
    obtain ⟨lay', v, leaves, effect⟩ := h.steady.touch room run
    exact ⟨lay', h.leaves leaves (effect.backed h.backed)⟩
  | arithmetic key incr delta =>
    obtain ⟨lay', v, leaves, effect⟩ := h.steady.arithmetic room run
    exact ⟨lay', h.leaves leaves (effect.backed h.backed)⟩
  | delete key =>
    obtain ⟨lay', v, reply, -, leaves, effect⟩ := h.steady.delete room run
    exact ⟨lay', h.leaves leaves (effect.backed h.backed)⟩
  | binDelete key cas =>
    obtain ⟨v, succeed, -, leaves, effect⟩ := h.steady.binDelete run
    exact ⟨lay, h.leaves leaves (effect.backed h.backed)⟩
  | flushAll exptime =>
    obtain ⟨rfl, -⟩ := pair_ran.1 run
    obtain ⟨oldestLive, oldestCas, casId, eq⟩ := flushAll_eq s exptime
    rw [eq]
    exact ⟨lay, h.steady.reclock .., h.backed⟩
  | clean =>
    obtain ⟨lay', k, leaves⟩ := h.steady.clean run
    exact ⟨lay', h.leaves leaves (h.backed.drop k)⟩
  | tick n =>
    obtain ⟨rfl, -⟩ := pair_ran.1 run
    exact ⟨lay, h.steady.reclock (s.currentTime + n) s.oldestLive s.oldestCas s.casId, h.backed⟩

/-! ## Invalidations -/

def Memlog.Readable (l : Memlog) : Prop := ∀ b ∈ l.records, (recOf l.mem b).kind ≠ .dirty

theorem BackedStore.done (h : BackedStore s lay) (readable : s.log.Readable) :
    (s.view lay).Done := by
  intro r mem dirty
  obtain ⟨b, hb, rfl⟩ := SweepInv.mem_journal.1 mem
  refine readable b ?_ (kind_dirty dirty)
  rw [LogInv.records_eq h.steady.inv.log]
  exact hb

/-- The commands by which a client makes the item under a key invisible. -/
def Store.Invalidates (s : Store) (key : Key) : Command → Prop
  | .delete k => k = key
  | .binDelete k _ => k = key
  | .flushAll _ => True
  | .store comm k flags _ _ block => comm = .set ∧ k = key ∧
      ∃ n, updateRequest key flags.toNat (vlenOf block) = some n ∧
        (memlogAllocRetry 3 s.log n).2 = none
  | _ => False

theorem BackedStore.replica_keeps (h : BackedStore s lay) (done : (s.view lay).Done)
    (visible : s.find key = some id) (inv : StoreInv s' lay')
    (recs : s'.journal lay' = s.journal lay) (sound : (s'.view lay').Sound)
    (time : s'.currentTime = s.currentTime) :
    s'.log.replay.alive s'.currentTime key ≠ none := by
  have done' : (s'.view lay').Done := fun r hr => done r (by
    have hr : r ∈ s'.journal lay' := hr
    rw [recs] at hr
    exact hr)
  obtain ⟨f, holds⟩ := h.steady.inv.holds h.steady.sound visible
  obtain ⟨r, last, off⟩ := h.backed key _ (table_of_find visible)
  have same : r = s.recAt id := h.steady.sound.inj r (last_eq_some last).1 _ holds.mem off
  have kind : r.kind = .stored := kind_stored (same ▸ holds.flags)
  have alive : s.itemIsExpired id = false := by
    have := (find_eq_some.1 visible).2
    rw [Store.itemIsHidden, Bool.or_eq_false_iff] at this
    exact this.2
  have exptime : r.entry.exptime = exptimeOf s.log.mem (s.itemOf id) := by rw [same]; rfl
  unfold Cache.alive
  rw [replay_key inv done' sound, recs, show reading.last (s.journal lay) key = some r from last,
    Option.bind_some, if_pos kind, Option.filter_some, exptime, time]
  unfold Store.itemIsExpired at alive
  dsimp only at alive
  rw [alive]
  simp

theorem replica_forgets {r : Rec} (leaves : Leaves s s' lay' ((v.log r).unlink r.key)) (done : v.Done)
    (hkey : r.key = key) (hflags : r.flags = tombFlags) :
    s'.log.replay.alive s'.currentTime key = none := by
  have done' : (s'.view lay').Done := by
    rw [leaves.view]
    exact done.log (by rw [hflags]; decide)
  have last : reading.last (s'.journal lay') key = some r := by
    rw [journal_of_view leaves.view]
    exact (View.last_deleted v hflags key).trans (if_pos hkey)
  unfold Cache.alive
  rw [replay_key leaves.inv done' (by rw [leaves.view]; exact leaves.sound), last, Option.bind_some,
    if_neg (by rw [kind_deleted hflags]; decide), Option.filter_none]

/-- A `set` for which the log has no room writes no record. -/
theorem Steady.store_full {comm : NreadComm} {flags : UInt32} {exptime : ℤ} {cas : UInt64}
    {block : List UInt8} (h : Steady s lay)
    (plain : (Command.store comm key flags exptime cas block).Plain)
    (room : ∀ n, s.request (.store comm key flags exptime cas block) = some n → RoomFor s n)
    (request : updateRequest key flags.toNat (vlenOf block) = some n)
    (unserved : (memlogAllocRetry 3 s.log n).2 = none)
    (run : s.exec (.store comm key flags exptime cas block) = .ok (s', answer)) :
    ∃ lay' v, Leaves s s' lay' v ∧ v.recs = (s.view lay).recs := by
  obtain ⟨⟨s₁, update⟩, header, run⟩ := bind_ran.1 run
  obtain ⟨lay', opens⟩ := h.inv.processUpdateCommand flags.toNat_lt room header
  cases update with
  | upload id =>
    -- without a record there is no item to upload to
    unfold updateRequest at request
    split_ifs at request with rejected
    cases request
    rw [not_or] at rejected
    unfold Store.processUpdateCommand at header
    rw [if_neg rejected.1, if_neg rejected.2] at header
    obtain ⟨⟨s₂, it, succeed⟩, alloc, header⟩ := bind_ran.1 header
    cases it with
    | none =>
      obtain ⟨_, -, header⟩ := bind_ran.1 header
      cases pure_ran.1 header
    | some id =>
      obtain ⟨l, got, retry, ran⟩ := doItemAlloc_ran alloc
      rw [h.inv.useCas] at retry
      rw [retry] at unserved
      obtain rfl : got = none := unserved
      cases ran
  | reply reply =>
    obtain ⟨rfl, rfl⟩ := pair_ran.1 run
    obtain ⟨v, out, sound, -⟩ := opens.sound h.inv h.sound
    refine ⟨lay', v, out.leaves sound, ?_⟩
    rw [← out.view]
    cases opens with
    | rejected same layout => rw [same, layout]
    | full _ out =>
      rw [out.view]
      split_ifs <;> rfl
    | tombstone _ r marked =>
      rw [show deletedBit flags.toNat = false from plain] at marked
      cases marked

/-- After an invalidation the replica loses the item exactly when it was an ASCII `delete`. -/
theorem invalidation_replicated_iff (cas : settings.useCas = true)
    (off : settings.lruLogEnabled = false) (large : 35 ≤ limit) (small : limit < 2 ^ 32)
    (run : Run FittingStep (Store.init settings limit now) cmds s) (readable : s.log.Readable)
    (visible : s.find key = some id) (invalidates : s.Invalidates key cmd) (step : FittingStep s cmd s')
    (hidden : s'.find key = none) :
    s'.log.replay.alive s'.currentTime key = none ↔ cmd = .delete key := by
  obtain ⟨lay, h⟩ := run.invariant (fun s => ∃ lay, BackedStore s lay)
    (fun s cmd s' ⟨lay, h⟩ step => h.step step)
    ⟨_, ⟨Store.init_inv large small cas, .init, off⟩, by simp [View.Backed, Store.view, Store.lookup,
      Store.assocFind, Store.init]⟩
  have done := h.done readable
  obtain ⟨answer, ran⟩ := step.ran
  have keeps {lay' : Layout} {v : View} (leaves : Leaves s s' lay' v)
      (recs : v.recs = (s.view lay).recs) : s'.log.replay.alive s'.currentTime key ≠ none := by
    have clock := leaves.setup.clock
    simp only [Store.clock, Prod.mk.injEq] at clock
    exact h.replica_keeps done visible leaves.inv ((journal_of_view leaves.view).trans recs)
      (by rw [leaves.view]; exact leaves.sound) clock.1
  cases cmd with
  | delete k =>
    obtain rfl : k = key := invalidates
    refine ⟨fun _ => rfl, fun _ => ?_⟩
    obtain ⟨lay', v, reply, -, leaves, effect⟩ := h.steady.delete step.fits.first ran
    cases effect with
    | rejected same =>
      rw [same, visible] at hidden
      cases hidden
    | missing absent =>
      rw [visible] at absent
      cases absent
    | full same =>
      rw [same, visible] at hidden
      cases hidden
    | deleted r hkey hflags => exact replica_forgets leaves done hkey hflags
  | binDelete k cas =>
    refine ⟨fun lost => ?_, fun eq => by cases eq⟩
    obtain ⟨v, succeed, -, leaves, effect⟩ := h.steady.binDelete ran
    refine absurd lost (keeps leaves ?_)
    cases effect <;> rfl
  | flushAll exptime =>
    refine ⟨fun lost => ?_, fun eq => by cases eq⟩
    obtain ⟨rfl, -⟩ := Prod.mk.inj (pure_ran.1 ran)
    obtain ⟨oldestLive, oldestCas, casId, eq⟩ := flushAll_eq s exptime
    rw [eq] at lost
    exact absurd lost (h.replica_keeps done visible (h.steady.inv.reclock ..) rfl h.steady.sound rfl)
  | store comm k flags exptime cas block =>
    refine ⟨fun lost => ?_, fun eq => by cases eq⟩
    obtain ⟨rfl, rfl, n, request, unserved⟩ := invalidates
    obtain ⟨lay', v, leaves, recs⟩ :=
      h.steady.store_full step.plain step.fits.first request unserved ran
    exact absurd lost (keeps leaves recs)
  | _ => exact invalidates.elim

/-- `set a 0 0 1` with the value `x`. -/
def setA : Command := .store .set [97] 0 0 0 [120, 13, 10]

/-- The store after `set a`, and after another command. -/
def afterSetA (s : Store) (cmd : Command) : Option (Store × Store) :=
  (s.execSimply setA).bind fun p => (p.1.execSimply cmd).map fun q => (p.1, q.1)

theorem afterSetA_steps {s₀ : Store} (eval : afterSetA s₀ cmd = some (s, s')) :
    Run FittingStep s₀ [setA] s ∧ FittingStep s cmd s' := by
  obtain ⟨⟨s₁, answer₁⟩, first, rest⟩ := Option.bind_eq_some_iff.1 eval
  obtain ⟨⟨s₂, answer₂⟩, second, eq⟩ := Option.map_eq_some_iff.1 rest
  cases eq
  obtain ⟨plain, fits, ran⟩ := execSimply_some first
  obtain ⟨plain', fits', ran'⟩ := execSimply_some second
  exact ⟨.one ⟨plain, fits, _, ran⟩, plain', fits', _, ran'⟩

/-- What a client of the master and one of the replica see of `a`. -/
def seenOfA (p : Store × Store) : Bool × Option ℕ × Option ℕ × Option Entry :=
  (p.1.log.records.all fun b => decide ((recOf p.1.log.mem b).kind ≠ .dirty), p.1.find [97],
    p.2.find [97], p.2.log.replay.alive p.2.currentTime [97])

theorem invalidation_replicated_delete : ∃ s s', Run FittingStep
    (Store.init (settingsInit 1500000000) memlogDefaultSize 62) [setA] s ∧
    FittingStep s (.delete [97]) s' ∧
    (s'.log.replay.alive s'.currentTime [97] = none ↔ Command.delete [97] = .delete [97]) := by
  have eval : (afterSetA (Store.init (settingsInit 1500000000) memlogDefaultSize 62)
      (.delete [97])).map seenOfA = some (true, some 22369620, none, none) := by
    decide +kernel
  obtain ⟨⟨s, s'⟩, eval, seen⟩ := Option.map_eq_some_iff.1 eval
  simp only [seenOfA, Prod.mk.injEq, List.all_eq_true, decide_eq_true_eq] at seen
  obtain ⟨readable, visible, hidden, -⟩ := seen
  obtain ⟨run, step⟩ := afterSetA_steps eval
  exact ⟨s, s', run, step, invalidation_replicated_iff rfl rfl (by decide) (by decide) run readable
    visible rfl step hidden⟩

/-- After a binary `delete` the item is gone on the master and stays on the replica. -/
theorem binary_delete_not_replicated : ∃ s s', Run FittingStep
    (Store.init (settingsInit 1500000000) memlogDefaultSize 62) [setA] s ∧ s.log.Readable ∧
    s.find [97] = some 22369620 ∧ FittingStep s (.binDelete [97] 0) s' ∧ s'.find [97] = none ∧
    s'.log.replay.alive s'.currentTime [97] = some ⟨0, [120, 13, 10], 0⟩ := by
  have eval : (afterSetA (Store.init (settingsInit 1500000000) memlogDefaultSize 62)
      (.binDelete [97] 0)).map seenOfA =
      some (true, some 22369620, none, some ⟨0, [120, 13, 10], 0⟩) := by
    decide +kernel
  obtain ⟨⟨s, s'⟩, eval, seen⟩ := Option.map_eq_some_iff.1 eval
  simp only [seenOfA, Prod.mk.injEq, List.all_eq_true, decide_eq_true_eq] at seen
  obtain ⟨readable, visible, hidden, kept⟩ := seen
  obtain ⟨run, step⟩ := afterSetA_steps eval
  exact ⟨s, s', run, readable, visible, step, hidden, kept⟩

end LogMemcached

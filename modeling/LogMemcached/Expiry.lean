import LogMemcached.ReplicaSteps
import LogMemcached.Sequence

/-!
# Expiry on master and replica

A record carries its expiry as `realtime` computed it, in seconds since the start of the master.  The
replica takes the record over as it is and compares the same number with its own clock, which counts
from its own start.
-/

namespace LogMemcached

open ByteMem Fallible

/-- `clock_handler` at the second `t` of the wall clock; the monotonic clock of the other branch
counts the same seconds. -/
def clockAt (processStarted : ℕ) (t : ℤ) : ℕ := ((t - processStarted) % 2 ^ 32).toNat

/-- The store at the second `t`. -/
def Store.atTime (s : Store) (t : ℤ) : Store :=
  { s with currentTime := clockAt s.settings.processStarted t }

theorem itemIsExpired_atTime {s : Store} {id : ℕ} {t : ℤ} :
    (s.atTime t).itemIsExpired id = true ↔ exptimeOf s.log.mem (s.itemOf id) ≠ 0 ∧
      exptimeOf s.log.mem (s.itemOf id) ≤ clockAt s.settings.processStarted t := by
  rw [Store.itemIsExpired, Bool.and_eq_true, bne_iff_ne, decide_eq_true_eq]
  rfl

/-! ## Two clocks -/

theorem clocks_agree_iff {a b x : ℕ} (positive : 0 < x) (small : x < 2 ^ 32) (since : ℤ) :
    (∀ t ≥ since, x ≤ clockAt a t ↔ x ≤ clockAt b t) ↔ ((a : ℤ) - b) % 2 ^ 32 = 0 := by
  constructor
  · intro agree
    by_contra apart
    -- a second at which the second clock shows `r`
    have second (r : ℤ) : ∃ t ≥ since, (t - b) % 2 ^ 32 = r % 2 ^ 32 ∧
        (t - a) % 2 ^ 32 = (r + (b - a)) % 2 ^ 32 :=
      ⟨since + (r + b - since) % 2 ^ 32, by omega, by omega, by omega⟩
    set d := ((b : ℤ) - a) % 2 ^ 32 with hd
    have lead : 0 < d ∧ d < 2 ^ 32 := by omega
    rcases le_or_gt d (x - 1) with late | early
    · obtain ⟨t, after, shows, other⟩ := second (2 ^ 32 - 1)
      have := agree t after
      unfold clockAt at this
      omega
    · obtain ⟨t, after, shows, other⟩ := second (2 ^ 32 + x - 1 - d)
      have := agree t after
      unfold clockAt at this
      omega
  · intro together t _
    have same : clockAt a t = clockAt b t := by
      unfold clockAt
      omega
    rw [same]

/-! ## A replayed record -/

section

variable {s s' : Store} {id o : ℕ}

theorem doItemLink_front (run : s.doItemLink id = .ok s') (item : s.itemOf id = o) :
    id ∈ s'.table ∧ s'.itemOf id = o ∧ exptimeOf s'.log.mem o = exptimeOf s.log.mem o ∧
      s'.settings = s.settings := by
  obtain ⟨-, -, cas, casId, rfl⟩ := doItemLink_ran run
  refine ⟨List.mem_cons_self, ?_, ?_, rfl⟩
  · simpa [Store.itemOf, Store.join] using item
  · apply exptimeOf_congr
    intro x _ below
    change itemSetCas s.log.mem (s.itemOf id) cas x = _
    rw [item]
    exact itemSetCas_outside (.inl below)

theorem doItemUnlink_place {k : ℕ} (run : s.doItemUnlink k = .ok s') :
    s'.log = s.log ∧ s'.settings = s.settings ∧ ∀ id, s'.itemOf id = s.itemOf id := by
  unfold Store.doItemUnlink at run
  split_ifs at run with linked
  · obtain ⟨s₁, delete, remove⟩ := bind_ran.1 run
    rw [Store.assocDelete, check_bind_ran] at delete
    obtain rfl := pure_ran.1 delete.2
    have same := sameTable_doItemRemove remove
    refine ⟨same.log, same.settings, fun id => (same.item id).trans ?_⟩
    change (Function.update s.metas k { s.metas k with linked := false } id).item = _
    rw [Function.update_apply]
    split_ifs with here
    · rw [here]
      rfl
    · rfl
  · obtain rfl := pure_ran.1 run
    exact ⟨rfl, rfl, fun _ => rfl⟩

theorem replayStore_front (run : s.replayStore o = .ok s') :
    ∃ id ∈ s'.table, s'.itemOf id = o ∧ exptimeOf s'.log.mem o = exptimeOf s.log.mem o ∧
      s'.settings = s.settings := by
  unfold Store.replayStore Store.freelistAlloc at run
  cases free : s.freelist with
  | nil =>
    rw [free] at run
    cases run
  | cons id rest =>
    rw [free] at run
    dsimp only at run
    set popped := Store.updateMeta _ id fun it => { it with item := o } with hpopped
    have item : popped.itemOf id = o := by
      simp [hpopped, Store.itemOf, Store.updateMeta]
    refine ⟨id, ?_⟩
    split at run
    · next oldId found =>
      rw [Store.doItemReplace, check_bind_ran] at run
      obtain ⟨s₁, unlink, link⟩ := bind_ran.1 run.2
      obtain ⟨log, settings, items⟩ := doItemUnlink_place unlink
      obtain ⟨member, place, exptime, same⟩ := doItemLink_front link ((items id).trans item)
      exact ⟨member, place, by rw [exptime, log]; rfl, same.trans settings⟩
    · obtain ⟨member, place, exptime, same⟩ := doItemLink_front run item
      exact ⟨member, place, exptime, same⟩

end

/-! ## Both sides -/

/-- A turn of `do_store_replication` over a record that `master` has stored, once the record has been
read into the log of the replica. -/
def Replicates (master replica replica' : Store) (id : ℕ) : Prop :=
  ∃ size n, (replica.rdmaRead master.log.mem (master.itemOf id) size).replayTurn size
    (master.itemOf id) = .ok (.next replica' n) ∧ minReplicationSize ≤ size

/-- The record of a complete item: neither corrupted nor a tombstone. -/
def Store.holdsItem (s : Store) (id : ℕ) : Bool :=
  !has (flagsOf s.log.mem (s.itemOf id)) itemCorrupted &&
    !has (flagsOf s.log.mem (s.itemOf id)) itemDeleted

/-- Master and replica take a replicated item for expired at the same seconds exactly when it never
expires or both processes started at the same second. -/
theorem expiry_agrees_iff {master replica replica' : Store} {id : ℕ} (since : ℤ)
    (item : master.holdsItem id = true) (turn : Replicates master replica replica' id) :
    ∃ id' ∈ replica'.table, replica'.itemOf id' = master.itemOf id ∧
      ((∀ t ≥ since, (replica'.atTime t).itemIsExpired id' = (master.atTime t).itemIsExpired id) ↔
        exptimeOf master.log.mem (master.itemOf id) = 0 ∨
          ((replica.settings.processStarted : ℤ) - master.settings.processStarted) % 2 ^ 32 = 0) := by
  obtain ⟨size, n, turn, least⟩ := turn
  set o := master.itemOf id
  set read := replica.rdmaRead master.log.mem o size with hread
  have header : Agree read.log.mem master.log.mem o (o + 16) := by
    intro x above below
    unfold minReplicationSize at least
    exact if_pos ⟨above, by omega⟩
  rw [Store.holdsItem, Bool.and_eq_true, Bool.not_eq_true', Bool.not_eq_true'] at item
  have flags : flagsOf read.log.mem o = flagsOf master.log.mem (master.itemOf id) :=
    flagsOf_congr header
  -- the turn takes the branch of a normal store
  simp only [Store.replayTurn] at turn
  split_ifs at turn
  · cases pure_ran.1 turn
  · cases pure_ran.1 turn
  · obtain ⟨s₁, replay, turn⟩ := bind_ran.1 turn
    obtain ⟨rfl, -⟩ := ReplayTurn.next.inj (pure_ran.1 turn)
    rw [Store.replayRecord, flags, if_neg (by simp [item.1]),
      if_neg (by simp [item.2])] at replay
    obtain ⟨id', member, place, exptime, settings⟩ := replayStore_front replay
    refine ⟨id', member, place, ?_⟩
    have field : exptimeOf (s₁.replayAdvance (replicationNtotal read.log.mem o)).log.mem
        ((s₁.replayAdvance (replicationNtotal read.log.mem o)).itemOf id') =
          exptimeOf master.log.mem o := by
      change exptimeOf s₁.log.mem (s₁.itemOf id') = _
      rw [place, exptime, exptimeOf_congr header]
    have start : (s₁.replayAdvance (replicationNtotal read.log.mem o)).settings.processStarted =
        replica.settings.processStarted := congrArg Settings.processStarted settings
    have expired (t : ℤ) : (((s₁.replayAdvance (replicationNtotal read.log.mem o)).atTime
        t).itemIsExpired id' = (master.atTime t).itemIsExpired id) ↔
        (exptimeOf master.log.mem o ≠ 0 ∧ exptimeOf master.log.mem o ≤
          clockAt replica.settings.processStarted t ↔ exptimeOf master.log.mem o ≠ 0 ∧
          exptimeOf master.log.mem o ≤ clockAt master.settings.processStarted t) := by
      rw [Bool.eq_iff_iff, itemIsExpired_atTime, itemIsExpired_atTime, field, start]
    simp only [expired]
    by_cases never : exptimeOf master.log.mem o = 0
    · simp [never]
    · simp only [never, ne_eq, not_false_eq_true, true_and, false_or]
      exact clocks_agree_iff (Nat.pos_of_ne_zero never) (u32_lt ..) since
  · cases pure_ran.1 turn

/-- `set a 0 100 1` on a master, sixty-two seconds after its `process_started`. -/
def expiringMaster : Except Abort (Store × Answer) :=
  (Store.init (settingsInit 1500000000) memlogDefaultSize 62).exec
    (.store .set [97] 0 100 0 [120, 13, 10])

/-- A replica that started `lag` seconds after the master. -/
def laterReplica (lag : ℕ) : Store := .init (settingsInit (1500000000 + lag)) memlogDefaultSize 62

/-- What master and replica say about the item at the second `t`. -/
def expiryPair (lag : ℕ) (t : ℤ) : Option (Bool × Bool) :=
  expiringMaster.toOption.bind fun p =>
    (((laterReplica lag).rdmaRead p.1.log.mem (p.1.itemOf 22369620) 35).replayTurn 35
      (p.1.itemOf 22369620)).toOption.bind fun
      | .next replica' _ =>
          if p.1.table = [22369620] ∧ p.1.holdsItem 22369620 ∧ replica'.table = [22369620] ∧
              replica'.itemOf 22369620 = p.1.itemOf 22369620 then
            some ((p.1.atTime t).itemIsExpired 22369620, (replica'.atTime t).itemIsExpired 22369620)
          else none
      | _ => none

theorem expiryPair_spec {lag : ℕ} {t : ℤ} {x y : Bool} (eval : expiryPair lag t = some (x, y)) :
    ∃ master answer replica', expiringMaster = .ok (master, answer) ∧
      22369620 ∈ master.table ∧ master.holdsItem 22369620 = true ∧
      Replicates master (laterReplica lag) replica' 22369620 ∧ replica'.table = [22369620] ∧
      replica'.itemOf 22369620 = master.itemOf 22369620 ∧
      (master.atTime t).itemIsExpired 22369620 = x ∧
      (replica'.atTime t).itemIsExpired 22369620 = y := by
  obtain ⟨⟨master, answer⟩, stored, eval⟩ := Option.bind_eq_some_iff.1 eval
  obtain ⟨turn, replayed, eval⟩ := Option.bind_eq_some_iff.1 eval
  cases turn with
  | next replica' n =>
    dsimp only at eval
    split_ifs at eval with found
    obtain ⟨rfl, rfl⟩ := Prod.mk.inj (Option.some.inj eval)
    obtain ⟨table, item, table', place⟩ := found
    refine ⟨master, answer, replica', ok_of_toOption stored, ?_, item, ?_, table', place, rfl, rfl⟩
    · rw [table]
      exact List.mem_singleton_self _
    · exact ⟨35, n, ok_of_toOption replayed, le_refl _⟩
  | back _ => cases eval
  | wait => cases eval

/-- Two processes that started together. -/
theorem expiry_agrees_together : ∃ master replica' : Store,
    22369620 ∈ master.table ∧ Replicates master (laterReplica 0) replica' 22369620 ∧
      ∀ t ≥ 1500000062, (replica'.atTime t).itemIsExpired 22369620 =
        (master.atTime t).itemIsExpired 22369620 := by
  have eval : expiryPair 0 1500000162 = some (true, true) := by
    decide +kernel
  obtain ⟨master, answer, replica', stored, member, item, turn, table, -⟩ := expiryPair_spec eval
  have start : master.settings.processStarted = 1500000000 := by
    have settings : (expiringMaster.toOption.map fun p => p.1.settings.processStarted) =
        some 1500000000 := by
      decide +kernel
    rw [stored] at settings
    exact Option.some.inj settings
  obtain ⟨id', member', -, agrees⟩ := expiry_agrees_iff 1500000062 item turn
  rw [table] at member'
  obtain rfl := List.mem_singleton.1 member'
  refine ⟨master, replica', member, turn, agrees.2 (.inr ?_)⟩
  rw [start]
  rfl

/-- A replica that started forty seconds later keeps the item forty seconds longer. -/
theorem expiry_differs : ∃ master answer replica',
    expiringMaster = .ok (master, answer) ∧ 22369620 ∈ master.table ∧
      Replicates master (laterReplica 40) replica' 22369620 ∧ 22369620 ∈ replica'.table ∧
      replica'.itemOf 22369620 = master.itemOf 22369620 ∧
      (master.atTime 1500000162).itemIsExpired 22369620 = true ∧
      (replica'.atTime 1500000162).itemIsExpired 22369620 = false := by
  have eval : expiryPair 40 1500000162 = some (true, false) := by
    decide +kernel
  obtain ⟨master, answer, replica', stored, member, -, turn, table, place, expired, kept⟩ :=
    expiryPair_spec eval
  refine ⟨master, answer, replica', stored, member, turn, ?_, place, expired, kept⟩
  rw [table]
  exact List.mem_singleton_self _

end LogMemcached

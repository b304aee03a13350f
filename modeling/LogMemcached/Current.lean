import LogMemcached.Replay
import LogMemcached.SoundSteps

/-!
# Views in which the log determines the table

A view is current when the last record that says anything about a key is the one linked under it,
and a key without an item was deleted or has expired.  Replaying such a log gives the hash table up
to entries that have expired.
-/

namespace LogMemcached

open ByteMem Tiling Journal

def Rec.Expired (r : Rec) (now : ℕ) : Prop := r.exptime ≠ 0 ∧ r.exptime ≤ now

/-- The record linked under a key is the last one that says anything about it. -/
def View.Backed (v : View) : Prop :=
  ∀ key o, v.table key = some o → ∃ r, reading.last v.recs key = some r ∧ r.off = o

def View.Cleared (v : View) (now : ℕ) : Prop :=
  ∀ key r, v.table key = none → reading.last v.recs key = some r → r.kind = .deleted ∨ r.Expired now

def View.Done (v : View) : Prop := ∀ r ∈ v.recs, r.flags ≠ dirtyFlags

structure View.Current (v : View) (now : ℕ) : Prop where
  done : v.Done
  backed : v.Backed
  cleared : v.Cleared now

variable {v : View} {r : Rec} {key : Key} {now now' n : ℕ}

theorem kind_stored (flags : r.flags = storedFlags) : r.kind = .stored := by
  rw [Rec.kind, flags]
  decide

theorem kind_deleted (flags : r.flags = tombFlags) : r.kind = .deleted := by
  rw [Rec.kind, flags]
  decide

theorem kind_corrupted (flags : r.flags = corruptedFlags) : r.kind = .corrupted := by
  rw [Rec.kind, flags]
  decide

theorem kind_dirty (flags : r.flags = dirtyFlags) : r.kind = .dirty := by
  rw [Rec.kind, flags]
  decide

namespace View

theorem link_self (v : View) (key : Key) (o : ℕ) : (v.link key o).table key = some o :=
  Function.update_self ..

theorem link_other {k : Key} (other : k ≠ key) {o : ℕ} : (v.link key o).table k = v.table k :=
  Function.update_of_ne other ..

theorem unlink_self (v : View) (key : Key) : (v.unlink key).table key = none :=
  Function.update_self ..

theorem unlink_other {k : Key} (other : k ≠ key) : (v.unlink key).table k = v.table k :=
  Function.update_of_ne other ..

theorem Current.init (now : ℕ) : (⟨[], fun _ => none⟩ : View).Current now :=
  ⟨by simp [Done], by simp [Backed], by simp [Cleared]⟩

theorem Current.mono (h : v.Current now) (later : now ≤ now') : v.Current now' := by
  refine ⟨h.done, h.backed, fun key r none last => ?_⟩
  obtain deleted | ⟨set, expired⟩ := h.cleared key r none last
  · exact .inl deleted
  · exact .inr ⟨set, expired.trans later⟩

theorem last_log (v : View) (r : Rec) (key : Key) :
    reading.last (v.log r).recs key =
      if reading.concerns key r then some r else reading.last v.recs key :=
  last_snoc

theorem concerns_key (kind : r.kind = .stored ∨ r.kind = .deleted) :
    reading.concerns key r = decide (r.key = key) := by
  by_cases same : r.key = key
  · rw [decide_eq_true same]
    exact concerns_iff.2 ⟨same, kind⟩
  · rw [decide_eq_false same, Bool.eq_false_iff]
    exact fun concerns => same (concerns_iff.1 concerns).1

theorem mem_log {q : Rec} (hq : q ∈ (v.log r).recs) : q ∈ v.recs ∨ q = r := by
  rcases List.mem_append.1 hq with hq | hq
  · exact .inl hq
  · exact .inr (List.mem_singleton.1 hq)

theorem Done.log (h : v.Done) (clean : r.flags ≠ dirtyFlags) : (v.log r).Done := by
  intro q hq
  rcases mem_log hq with hq | rfl
  · exact h q hq
  · exact clean

/-! ### A completed record is logged and linked -/

theorem last_stored (v : View) (flags : r.flags = storedFlags) (key : Key) :
    reading.last (v.log r).recs key = if r.key = key then some r else reading.last v.recs key := by
  rw [last_log, concerns_key (.inl (kind_stored flags))]
  simp only [decide_eq_true_eq]

theorem Backed.log_link (h : v.Backed) (flags : r.flags = storedFlags) :
    ((v.log r).link r.key r.off).Backed := by
  intro key o found
  have last : reading.last ((v.log r).link r.key r.off).recs key = _ := last_stored v flags key
  by_cases same : key = r.key
  · rw [same, link_self] at found
    exact ⟨r, by rw [last, if_pos same.symm], Option.some.inj found⟩
  · rw [link_other same] at found
    rw [last, if_neg (Ne.symm same)]
    exact h key o found

theorem Cleared.log_link (h : v.Cleared now) (flags : r.flags = storedFlags) :
    ((v.log r).link r.key r.off).Cleared now := by
  intro key q missing last
  by_cases same : key = r.key
  · rw [same, link_self] at missing
    cases missing
  · rw [link_other same] at missing
    have last : reading.last (v.log r).recs key = some q := last
    rw [last_stored v flags, if_neg (Ne.symm same)] at last
    exact h key q missing last

theorem Current.log_link (h : v.Current now) (flags : r.flags = storedFlags) :
    ((v.log r).link r.key r.off).Current now :=
  ⟨h.done.log (by rw [flags]; decide), h.backed.log_link flags, h.cleared.log_link flags⟩

/-! ### A tombstone is logged and its key unlinked -/

theorem last_deleted (v : View) (flags : r.flags = tombFlags) (key : Key) :
    reading.last (v.log r).recs key = if r.key = key then some r else reading.last v.recs key := by
  rw [last_log, concerns_key (.inr (kind_deleted flags))]
  simp only [decide_eq_true_eq]

theorem Backed.log_unlink (h : v.Backed) (flags : r.flags = tombFlags) :
    ((v.log r).unlink r.key).Backed := by
  intro key o found
  by_cases same : key = r.key
  · rw [same, unlink_self] at found
    cases found
  · rw [unlink_other same] at found
    have last : reading.last ((v.log r).unlink r.key).recs key = _ := last_deleted v flags key
    rw [last, if_neg (Ne.symm same)]
    exact h key o found

theorem Cleared.log_unlink (h : v.Cleared now) (flags : r.flags = tombFlags) :
    ((v.log r).unlink r.key).Cleared now := by
  intro key q missing last
  have last : reading.last (v.log r).recs key = some q := last
  rw [last_deleted v flags] at last
  by_cases same : key = r.key
  · rw [if_pos same.symm] at last
    cases last
    exact .inl (kind_deleted flags)
  · rw [unlink_other same] at missing
    rw [if_neg (Ne.symm same)] at last
    exact h key q missing last

theorem Current.log_unlink (h : v.Current now) (flags : r.flags = tombFlags) :
    ((v.log r).unlink r.key).Current now :=
  ⟨h.done.log (by rw [flags]; decide), h.backed.log_unlink flags, h.cleared.log_unlink flags⟩

/-! ### A record that says nothing -/

theorem last_idle (v : View) (idle : r.kind = .dirty ∨ r.kind = .corrupted) (key : Key) :
    reading.last (v.log r).recs key = reading.last v.recs key := by
  rw [last_log, concerns_idle idle]
  rfl

theorem Backed.log_idle (h : v.Backed) (idle : r.kind = .dirty ∨ r.kind = .corrupted) :
    (v.log r).Backed := by
  intro key o found
  rw [last_idle v idle]
  exact h key o found

theorem Cleared.log_idle (h : v.Cleared now) (idle : r.kind = .dirty ∨ r.kind = .corrupted) :
    (v.log r).Cleared now := by
  intro key q missing last
  rw [last_idle v idle] at last
  exact h key q missing last

theorem Current.log_corrupted (h : v.Current now) (flags : r.flags = corruptedFlags) :
    (v.log r).Current now :=
  ⟨h.done.log (by rw [flags]; decide), h.backed.log_idle (.inr (kind_corrupted flags)),
    h.cleared.log_idle (.inr (kind_corrupted flags))⟩

/-! ### An item is unlinked -/

theorem Backed.unlink (h : v.Backed) (key : Key) : (v.unlink key).Backed := by
  intro k o found
  by_cases same : k = key
  · rw [same, unlink_self] at found
    cases found
  · rw [unlink_other same] at found
    exact h k o found

def Stale (v : View) (key : Key) (now : ℕ) : Prop :=
  ∀ o, v.table key = some o → ∀ r ∈ v.recs, r.off = o → r.Expired now

theorem Current.unlink (h : v.Current now) (stale : v.Stale key now) : (v.unlink key).Current now := by
  refine ⟨h.done, h.backed.unlink key, fun k r missing last => ?_⟩
  have last : reading.last v.recs k = some r := last
  by_cases same : k = key
  · rw [same] at last
    cases linked : v.table key with
    | none => exact h.cleared key r linked last
    | some o =>
      obtain ⟨q, last', off⟩ := h.backed key o linked
      rw [last] at last'
      cases last'
      exact .inr (stale o linked r (last_eq_some last).1 off)
  · rw [unlink_other same] at missing
    exact h.cleared k r missing last

/-! ### The oldest records leave the log, and with them their items the table -/

theorem last_drop (v : View) (n : ℕ) (key : Key) : reading.last v.recs key =
    (reading.last (v.drop n).recs key).or (reading.last (v.recs.take n) key) := by
  rw [drop, ← last_append, List.take_append_drop]

theorem Backed.drop (h : v.Backed) (n : ℕ) : (v.drop n).Backed := by
  intro key o found
  obtain ⟨found, away⟩ := Option.filter_eq_some_iff.1 found
  obtain ⟨r, last, off⟩ := h key o found
  refine ⟨r, ?_, off⟩
  rw [last_drop v n] at last
  cases rest : reading.last (v.drop n).recs key with
  | some q =>
    rw [rest] at last
    exact last
  | none =>
    -- a key that stays linked does not have its record among those that leave
    rw [rest] at last
    exact absurd off (of_decide_eq_true away r (last_eq_some last).1)

theorem Current.drop (h : v.Current now) (apart : v.recs.Pairwise fun q r => q.off ≠ r.off) (n : ℕ) :
    (v.drop n).Current now := by
  have across : ∀ q ∈ v.recs.take n, ∀ r ∈ v.recs.drop n, q.off ≠ r.off := by
    rw [← List.take_append_drop n v.recs] at apart
    exact (List.pairwise_append.1 apart).2.2
  refine ⟨fun r hr => h.done r (List.mem_of_mem_drop hr), h.backed.drop n, fun key r missing last => ?_⟩
  have whole : reading.last v.recs key = some r := by
    rw [last_drop v n, last]
    rfl
  cases before : v.table key with
  | none => exact h.cleared key r before whole
  | some o =>
    -- the key was linked to a record that leaves, so no later record is about it
    obtain ⟨q, last', off⟩ := h.backed key o before
    have same : r = q := Option.some.inj (whole.symm.trans last')
    have gone : (v.table key).filter (fun o => ∀ r ∈ v.recs.take n, r.off ≠ o) = none := missing
    rw [before, Option.filter_eq_none_iff] at gone
    refine absurd (gone o rfl) (not_not_intro (decide_eq_true fun p hp => ?_))
    rw [← off, ← same]
    exact across p hp r (last_eq_some last).1

end View

/-! ## Replaying -/

variable {s : Store} {lay : Layout}

theorem SweepInv.journal_pairwise {p : ℕ} (h : SweepInv s lay p) :
    (s.journal lay).Pairwise fun q r => q.off ≠ r.off := by
  rw [Store.journal, List.pairwise_map]
  refine h.log.pairwise.imp_of_mem fun {a b} ha hb disjoint same => ?_
  have size := (h.log.sized ha).header
  have size' := (h.log.sized hb).header
  have same : a.off = b.off := same
  unfold Block.Disjoint Block.stop at disjoint
  omega

theorem replay_key (h : StoreInv s lay) (complete : (s.view lay).Done)
    (sound : (s.view lay).Sound) (key : Key) :
    s.log.replay key = (reading.last (s.journal lay) key).bind fun r =>
      if r.kind = .stored then some r.entry else none := by
  have done : ∀ b ∈ lay.live, (recOf s.log.mem b).kind ≠ .dirty := by
    intro b hb dirty
    have mem : recOf s.log.mem b ∈ s.journal lay := SweepInv.mem_journal.2 ⟨b, hb, rfl⟩
    have clean := complete _ mem
    rcases sound.known _ mem with flags | ⟨-, flags | flags | flags⟩
    · rw [kind_deleted flags] at dirty
      cases dirty
    · exact clean flags
    · rw [kind_stored flags] at dirty
      cases dirty
    · rw [kind_corrupted flags] at dirty
      cases dirty
  rw [LogInv.replay_eq h.log done, replay_eq_last]
  change (reading.last (s.journal lay) key).elim none _ = _
  cases last : reading.last (s.journal lay) key with
  | none => rfl
  | some r =>
    obtain kind | kind := (concerns_iff.1 (last_eq_some last).2).2
    · simp [act_stored kind, kind]
    · simp [act_deleted kind, kind]

theorem cache_key (backed : (s.view lay).Backed) (key : Key) :
    s.cache key = ((s.view lay).table key).bind fun _ =>
      (reading.last (s.journal lay) key).map Rec.entry := by
  cases found : s.assocFind key with
  | none => simp [Store.cache, Store.view, Store.lookup, found]
  | some id =>
    have linked : (s.view lay).table key = some (s.itemOf id) := by
      simp [Store.view, Store.lookup, found]
    obtain ⟨r, last, off⟩ := backed key _ linked
    have last : reading.last (s.journal lay) key = some r := last
    have same := recAt_eq (last_eq_some last).1 off
    rw [linked, last, Store.cache, found, ← same]
    rfl

theorem replay_alive (h : StoreInv s lay) (current : (s.view lay).Current now)
    (sound : (s.view lay).Sound) : s.log.replay.alive now = s.cache.alive now := by
  funext key
  unfold Cache.alive
  rw [replay_key h current.done sound, cache_key current.backed]
  cases linked : (s.view lay).table key with
  | none =>
    cases last : reading.last (s.journal lay) key with
    | none => rfl
    | some r =>
      obtain deleted | ⟨set, expired⟩ := current.cleared key r linked last
      · simp [deleted]
      · -- an expired entry is disregarded
        rw [Option.bind_some, Option.bind_none, Option.filter_none]
        split_ifs
        · rw [Option.filter_some, if_neg]
          simpa [Rec.entry, expired] using set
        · rfl
  | some o =>
    obtain ⟨r, last, off⟩ := current.backed key o linked
    have last : reading.last (s.journal lay) key = some r := last
    obtain ⟨q, mem, off', -, flags⟩ := sound.table key o linked
    have same : r = q := sound.inj r (last_eq_some last).1 q mem (off.trans off'.symm)
    rw [last, Option.bind_some, Option.bind_some, if_pos (by rw [same]; exact kind_stored flags)]
    rfl

end LogMemcached

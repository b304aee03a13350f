import LogMemcached.Lib.Journal
import LogMemcached.Scan
import LogMemcached.Sound

/-!
# Replaying the log

What `do_store_replication` makes of the log of another server, as a map from keys to entries: a
completed record sets its key, a tombstone clears it, a corrupted record is stepped over, a cycle
record leads back to the beginning, and a record under upload ends the walk.  On a log whose records
are all completed the walk reads the records of the layout as a journal.
-/

namespace LogMemcached

open ByteMem CText Tiling Journal

@[ext]
structure Entry where
  flags : ℕ
  value : List UInt8
  exptime : ℕ
deriving DecidableEq, Repr

abbrev Cache := Key → Option Entry

/-- The entry of the record at `o`. -/
def entryAt (m : Mem) (o : ℕ) : Entry := ⟨clientFlagsOf m o, dataOf m o, exptimeOf m o⟩

/-- The loop of `do_store_replication` on a map, from offset `o`.  While `wrapped`, the walk has not
met the cycle record yet; after it, it ends at `stop`. -/
def replayFrom (m : Mem) : ℕ → ℕ → ℕ → Bool → Cache → Cache
  | 0, _, _, _, t => t
  | fuel + 1, o, stop, wrapped, t =>
      let flags := flagsOf m o
      if !wrapped && decide (stop ≤ o) then t
      else if has flags itemStored && !has flags itemDirty && !has flags itemCycle then
        let next := o + itemNtotal m o
        if has flags itemCorrupted then replayFrom m fuel next stop wrapped t
        else if has flags itemDeleted then
          replayFrom m fuel next stop wrapped (Function.update t (keyOf m o) none)
        else
          replayFrom m fuel next stop wrapped (Function.update t (keyOf m o) (some (entryAt m o)))
      else if has flags itemStored && !has flags itemDirty && has flags itemCycle then
        replayFrom m fuel 0 stop false t
      else t

def Memlog.replay (l : Memlog) : Cache :=
  replayFrom l.mem l.memLimit l.memCurrentFreeing l.memCurrent (!decide l.Unwrapped) fun _ => none

def Store.cache (s : Store) : Cache := fun key =>
  (s.assocFind key).map fun id => entryAt s.log.mem (s.itemOf id)

def Cache.alive (t : Cache) (now : ℕ) : Cache := fun key =>
  (t key).filter fun e => !(e.exptime != 0 && decide (e.exptime ≤ now))

/-! ## Records as a journal -/

def Rec.entry (r : Rec) : Entry := ⟨strtoul r.suffix % 2 ^ 32, r.data, r.exptime⟩

def reading : Reading Rec Key Entry where
  key := Rec.key
  act r :=
    match r.kind with
    | .dirty => none
    | .corrupted => none
    | .deleted => some none
    | .stored => some (some r.entry)

variable {m : Mem} {lo hi fuel : ℕ} {bs : List Block} {l : Memlog} {lay : Layout} {t : Cache}
  {r r' : Rec} {k : Key}

theorem act_stored (kind : r.kind = .stored) : reading.act r = some (some r.entry) := by
  simp only [reading, kind]

theorem act_deleted (kind : r.kind = .deleted) : reading.act r = some none := by
  simp only [reading, kind]

theorem act_idle (kind : r.kind = .dirty ∨ r.kind = .corrupted) : reading.act r = none := by
  rcases kind with kind | kind <;> simp only [reading, kind]

theorem concerns_iff : reading.concerns k r = true ↔
    r.key = k ∧ (r.kind = .stored ∨ r.kind = .deleted) := by
  have key : reading.key r = r.key := rfl
  rw [Reading.concerns, key]
  cases kind : r.kind with
  | dirty => simp [act_idle (Or.inl kind)]
  | corrupted => simp [act_idle (Or.inr kind)]
  | stored => simp [act_stored kind]
  | deleted => simp [act_deleted kind]

theorem concerns_idle (idle : r.kind = .dirty ∨ r.kind = .corrupted) :
    reading.concerns k r = false := by
  rw [Reading.concerns, act_idle idle]
  simp

theorem replayFrom_record {b : Block} {stop : ℕ} {wrapped : Bool} (sized : Sized m b)
    (done : (recOf m b).kind ≠ .dirty) (before : wrapped = true ∨ b.off < stop) :
    replayFrom m (fuel + 1) b.off stop wrapped t =
      replayFrom m fuel b.stop stop wrapped (reading.apply t (recOf m b)) := by
  have go : ¬((!wrapped && decide (stop ≤ b.off)) = true) := by
    rcases before with rfl | before
    · simp
    · simp [before]
  have flags : flagsOf m b.off = (recOf m b).flags := rfl
  have total : b.off + itemNtotal m b.off = b.stop := by rw [sized.total, Block.stop]
  have kindEq : (recOf m b).kind = kindOf (recOf m b).flags := rfl
  rw [replayFrom]
  dsimp only
  rw [if_neg go, total, flags]
  unfold kindOf at kindEq
  split_ifs at kindEq ⊢ with completed corrupted deleted
  · rw [Reading.apply, act_idle (Or.inr kindEq)]
  · rw [Reading.apply, act_deleted kindEq]
    rfl
  · rw [Reading.apply, act_stored kindEq]
    rfl
  · exact absurd kindEq done
  · exact absurd kindEq done

theorem replayFrom_flat (h : Tiles lo bs hi) (sized : ∀ b ∈ bs, Sized m b)
    (done : ∀ b ∈ bs, (recOf m b).kind ≠ .dirty) (enough : bs.length < fuel) :
    replayFrom m fuel lo hi false t = reading.replay (bs.map (recOf m)) t := by
  induction bs generalizing lo fuel t with
  | nil =>
    obtain rfl : lo = hi := h
    obtain ⟨n, rfl⟩ := Nat.exists_eq_succ_of_ne_zero (by omega : fuel ≠ 0)
    simp [replayFrom, Reading.replay]
  | cons b bs ih =>
    obtain ⟨here, later⟩ := List.forall_mem_cons.1 sized
    obtain ⟨doneHere, doneLater⟩ := List.forall_mem_cons.1 done
    obtain ⟨rfl, positive, rest⟩ := h
    obtain ⟨n, rfl⟩ := Nat.exists_eq_succ_of_ne_zero (by omega : fuel ≠ 0)
    have before : b.off < hi := by
      have := rest.le
      simp only [Block.stop] at this
      omega
    rw [List.length_cons] at enough
    rw [replayFrom_record here doneHere (Or.inr before), ih rest later doneLater (by omega)]
    rfl

theorem replayFrom_wrapped {tail limit : ℕ} {old new : List Block} (h : Tiles lo old tail)
    (h' : Tiles 0 new hi) (sized : ∀ b ∈ old ++ new, Sized m b)
    (done : ∀ b ∈ old ++ new, (recOf m b).kind ≠ .dirty) (cycle : CycleAt m tail limit)
    (enough : old.length + new.length + 1 < fuel) :
    replayFrom m fuel lo hi true t = reading.replay ((old ++ new).map (recOf m)) t := by
  induction old generalizing lo fuel t with
  | nil =>
    obtain rfl : lo = tail := h
    obtain ⟨n, rfl⟩ := Nat.exists_eq_succ_of_ne_zero (by omega : fuel ≠ 0)
    rw [List.length_nil, Nat.zero_add] at enough
    rw [replayFrom]
    dsimp only
    rw [cycle.flags, if_neg (by simp), if_neg (by decide), if_pos (by decide)]
    exact replayFrom_flat h' sized done (by rw [List.nil_append]; omega)
  | cons b old ih =>
    obtain ⟨here, later⟩ := List.forall_mem_cons.1 sized
    obtain ⟨doneHere, doneLater⟩ := List.forall_mem_cons.1 done
    obtain ⟨rfl, positive, rest⟩ := h
    obtain ⟨n, rfl⟩ := Nat.exists_eq_succ_of_ne_zero (by omega : fuel ≠ 0)
    rw [List.length_cons] at enough
    rw [replayFrom_record here doneHere (Or.inl rfl), ih rest later doneLater (by omega)]
    rfl

theorem LogInv.replay_eq (h : LogInv l lay 0)
    (done : ∀ b ∈ lay.live, (recOf l.mem b).kind ≠ .dirty) :
    l.replay = reading.replay (lay.live.map (recOf l.mem)) fun _ => none := by
  unfold Memlog.replay
  obtain ⟨live, rfl, h, unwrapped, enough⟩ | ⟨tail, old, new, rfl, h, wrapped, enough⟩ := h.walk
  · rw [unwrapped]
    exact replayFrom_flat h.tiles h.sized done enough
  · rw [wrapped]
    exact replayFrom_wrapped h.oldTiles h.newTiles h.sized done h.cycle enough

end LogMemcached

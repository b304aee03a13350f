import LogMemcached.StorageRuns

/-!
# What the cleaner frees

The cleaner steps from record to record along a queue: the records from `mem_current_freeing` to
`mem_current`, or in a wrapped log those up to the cycle record and the cycle record itself.  It
takes the shortest chunk of the queue that has an eighth of the log, and the items it unlinks are
those whose records it takes.
-/

namespace LogMemcached

open ByteMem Tiling Fallible Store Transition

/-! ## The walk over the log -/

section Walk

variable {l : Memlog} {b : Block} {queue : List Block} {n k p fuel : ℕ}

/-- The log after `n` bytes have been freed at `mem_current_freeing`. -/
def Memlog.swept (l : Memlog) (n : ℕ) : Memlog :=
  { l with
    mem := fill l.mem l.memCurrentFreeing n 0
    memCurrentFreeing := l.memCurrentFreeing + n }

theorem swept_zero (l : Memlog) : l.swept 0 = l := by
  have mem : fill l.mem l.memCurrentFreeing 0 0 = l.mem :=
    funext fun x => fill_outside (by omega)
  simp only [Memlog.swept, mem, Nat.add_zero]

theorem swept_swept (l : Memlog) (n k : ℕ) : (l.swept n).swept k = l.swept (n + k) := by
  have mem : fill (fill l.mem l.memCurrentFreeing n 0) (l.memCurrentFreeing + n) k 0 =
      fill l.mem l.memCurrentFreeing (n + k) 0 := by
    funext x
    simp only [fill]
    split_ifs <;> first | rfl | omega
  simp only [Memlog.swept, mem, Nat.add_assoc]

theorem freeItem_eq (size : freeSize l.mem l.memCurrentFreeing = n) :
    l.freeItem = (l.swept n, n) := by
  subst size
  rfl

/-- The records ahead of the cleaner: each is stepped over by its size. -/
structure Walk (l : Memlog) (queue : List Block) : Prop where
  tiles : ∃ hi ≤ l.memLimit, Tiles l.memCurrentFreeing queue hi
  steps : ∀ b ∈ queue, freeSize l.mem b.off = b.size

theorem freeSize_congr {m m' : Mem} {o : ℕ} (same : Agree m' m o (o + 16)) :
    freeSize m' o = freeSize m o := by
  simp only [freeSize, flagsOf_congr same, itemNtotal_congr same, nbytesOf_congr same]

theorem Walk.total_le (h : Walk l queue) : l.memCurrentFreeing + total queue ≤ l.memLimit := by
  obtain ⟨hi, inside, tiles⟩ := h.tiles
  have := tiles.sum
  simp only [total]
  omega

theorem Walk.freeItem (h : Walk l (b :: queue)) :
    l.freeItem = (l.swept b.size, b.size) ∧ 0 < b.size ∧ Walk (l.swept b.size) queue := by
  obtain ⟨hi, inside, start, positive, tiles⟩ := h.tiles
  have size : freeSize l.mem l.memCurrentFreeing = b.size := start ▸ h.steps b (by simp)
  refine ⟨freeItem_eq size, positive, ⟨hi, inside, ?_⟩, fun c hc => ?_⟩
  · rw [Block.stop, start] at tiles
    exact tiles
  · have after := (tiles.mem hc).1
    rw [Block.stop] at after
    rw [← h.steps c (List.mem_cons_of_mem _ hc)]
    exact freeSize_congr (agree_fill (by omega))

end Walk

/-! ## Eviction -/

section Evict

variable {s s' s'' : Store} {b : Block} {queue gone gone' : List Block} {id k p fuel : ℕ}

/-- The cleaner walks along the queue, and the items of the table have records of their own, on the
queue or apart from it. -/
structure Sweepable (s : Store) (queue : List Block) : Prop where
  walk : Walk s.log queue
  nodup : s.table.Nodup
  keys : s.KeysApart
  linked : ∀ id ∈ s.table, (s.metas id).linked = true
  counted : ∀ id ∈ s.table, (s.metas id).slabbed = false ∧ 0 < (s.metas id).refcount
  whole : ∀ id ∈ s.table, Whole s.log.mem (s.blockOf id)
  intact : ∀ id ∈ s.table, Intact s.log.mem (s.itemOf id)
  apart : ∀ id ∈ s.table, ∀ b ∈ queue, b = s.blockOf id ∨ b.Disjoint (s.blockOf id)

/-- The items on the records `gone` leave the table; the other items keep their metadata. -/
structure Evicts (s s' : Store) (gone : List Block) : Prop where
  settings : s'.settings = s.settings
  clock : s'.clock = s.clock
  table : s'.table = s.table.filter fun id => ∀ b ∈ gone, b.off ≠ s.itemOf id
  item : ∀ k, s'.itemOf k = s.itemOf k
  times : SameTimes s s'
  metas : ∀ k ∈ s'.table, s'.metas k = s.metas k

theorem Evicts.refl (s : Store) : Evicts s s [] where
  settings := rfl
  clock := rfl
  table := by simp
  item := fun _ => rfl
  times := .refl s
  metas := fun _ _ => rfl

theorem Evicts.trans (h : Evicts s s' gone) (h' : Evicts s' s'' gone') :
    Evicts s s'' (gone ++ gone') where
  settings := h'.settings.trans h.settings
  clock := h'.clock.trans h.clock
  table := by
    rw [h'.table, h.table, List.filter_filter]
    refine List.filter_congr fun id _ => ?_
    simp only [h.item, List.forall_mem_append, Bool.decide_and, Bool.and_comm]
  item := fun k => (h'.item k).trans (h.item k)
  times := h.times.trans h'.times
  metas := fun k hk => by
    have member : k ∈ s'.table := by
      rw [h'.table] at hk
      exact List.mem_of_mem_filter hk
    rw [h'.metas k hk, h.metas k member]

theorem Evicts.mem_table (h : Evicts s s' gone) :
    k ∈ s'.table ↔ k ∈ s.table ∧ ∀ b ∈ gone, b.off ≠ s.itemOf k := by
  rw [h.table, List.mem_filter, decide_eq_true_eq]

theorem doItemRemove_unlinked (slabbed : (s.metas id).slabbed = false)
    (positive : 0 < (s.metas id).refcount) (unlinked : (s.metas id).linked = false) :
    ∃ s', s.doItemRemove id = .ok s' ∧ ∀ k ≠ id, s'.metas k = s.metas k := by
  have decr : (s.refcountDecr id).metas id =
      { s.metas id with refcount := ((s.metas id).refcount + (2 ^ 16 - 1)) % 2 ^ 16 } :=
    Function.update_self ..
  have other (k : ℕ) (hk : k ≠ id) : (s.refcountDecr id).metas k = s.metas k :=
    Function.update_of_ne hk ..
  simp only [Store.doItemRemove, check_bind_ran, slabbed, Bool.not_false, decide_eq_true_eq, true_and]
  split_ifs with last
  · refine ⟨(s.refcountDecr id).freelistFree id, ⟨positive, ?_⟩, fun k hk => ?_⟩
    · simp only [Store.itemFree, check_bind_ran, decr, unlinked, pure_ran]
      rw [decr] at last
      simpa using last
    · exact (Function.update_of_ne hk ..).trans (other k hk)
  · exact ⟨s.refcountDecr id, ⟨positive, rfl⟩, other⟩

/-- The item of the record at the front of the queue, if it is the one in the table, is unlinked. -/
theorem Sweepable.memlogEvict (h : Sweepable s (b :: queue)) :
    ∃ s', s.memlogEvict = .ok s' ∧ s'.log = s.log ∧ Evicts s s' [b] := by
  obtain ⟨hi, inside, start, -, -⟩ := h.walk.tiles
  unfold Store.memlogEvict
  dsimp only
  rw [← start]
  by_cases hit : ∃ id ∈ s.table, s.itemOf id = b.off
  · obtain ⟨id, member, here⟩ := hit
    have intact := h.intact id member
    have plain : has (flagsOf s.log.mem (s.itemOf id)) itemCycle = false := (h.whole id member).sized.plain
    have found : s.assocFind (keyOf s.log.mem b.off) = some id :=
      h.keys.assocFind_iff.2 ⟨member, by rw [Store.keyAt, here]⟩
    have present : (s.assocFind (s.keyAt id)).isSome = true := by
      rw [h.keys.assocFind_iff.2 ⟨member, rfl⟩]
      rfl
    have cutMeta : (s.cut id (s.stats.unlink (s.measure id))).metas id =
        { s.metas id with linked := false } := Function.update_self ..
    obtain ⟨slabbed, positive⟩ := h.counted id member
    obtain ⟨s', remove, metas⟩ := doItemRemove_unlinked
      (s := s.cut id (s.stats.unlink (s.measure id))) (by rw [cutMeta]; exact slabbed)
      (by rw [cutMeta]; exact positive) (by rw [cutMeta])
    have cut : Unlinks s (s.cut id (s.stats.unlink (s.measure id))) id := unlinks_cut _
    have times : SameTimes s (s.cut id (s.stats.unlink (s.measure id))) :=
      sameTimes_of_update rfl rfl rfl
    have same := sameTable_doItemRemove remove
    have table : s.table.erase id = s.table.filter fun k => ∀ c ∈ [b], c.off ≠ s.itemOf k := by
      rw [h.nodup.erase_eq_filter]
      refine List.filter_congr fun k hk => ?_
      simp only [List.forall_mem_singleton]
      by_cases eq : k = id
      · simp [eq, here]
      · have away : b.off ≠ s.itemOf k := fun off =>
          eq (h.keys k hk id member (by rw [Store.keyAt, Store.keyAt, ← off, here]))
        simp [eq, away]
    refine ⟨s', ?_, same.log.trans cut.log, same.settings.trans cut.settings,
      same.clock.trans cut.clock, (same.table.trans cut.table).trans table,
      fun k => (same.item k).trans (cut.item k), times.trans (sameTimes_doItemRemove remove),
      fun k hk => ?_⟩
    · rw [← here, intact.corrupted, intact.deleted, plain, here, found]
      simp only [Bool.or_self, Bool.false_eq_true, if_false]
      rw [if_pos here, doItemUnlink_eq (h.linked id member) present (h.keys.eraseP_key member), remove]
    · rw [same.table, cut.table, h.nodup.mem_erase_iff] at hk
      rw [metas k hk.1]
      exact Function.update_of_ne hk.1 ..
  · have away (k : ℕ) (hk : k ∈ s.table) : s.itemOf k ≠ b.off := fun eq => hit ⟨k, hk, eq⟩
    refine ⟨s, ?_, rfl, rfl, rfl, ?_, fun _ => rfl, .refl s, fun _ _ => rfl⟩
    · split_ifs
      · rfl
      · cases found : s.assocFind (keyOf s.log.mem b.off) with
        | none => rfl
        | some k =>
          dsimp only
          rw [if_neg (away k (assocFind_linked found).1)]
          rfl
    · symm
      rw [List.filter_eq_self]
      intro k hk
      simpa using (away k hk).symm

theorem Sweepable.memlogFreeItem (h : Sweepable s (b :: queue)) :
    ∃ s', s.memlogFreeItem = .ok (s', b.size) ∧ s'.log = s.log.swept b.size ∧ Evicts s s' [b] ∧
      Sweepable s' queue := by
  obtain ⟨s₁, evict, log, evicts⟩ := h.memlogEvict
  obtain ⟨step, -, walk⟩ := h.walk.freeItem
  obtain ⟨hi, -, start, -, -⟩ := h.walk.tiles
  set s' : Store := { s₁ with log := s.log.swept b.size }
  have evicts' : Evicts s s' [b] := ⟨evicts.settings, evicts.clock, evicts.table, evicts.item,
    ⟨evicts.times.time, evicts.times.casId⟩, evicts.metas⟩
  have stays (k : ℕ) (hk : k ∈ s'.table) : k ∈ s.table ∧ Agree s'.log.mem s.log.mem
      (s.blockOf k).off (s.blockOf k).stop := by
    obtain ⟨member, away⟩ := evicts'.mem_table.1 hk
    refine ⟨member, agree_fill ?_⟩
    rcases h.apart k member b (by simp) with same | disjoint
    · exact absurd (congrArg Block.off same) (away b (by simp))
    · rw [Block.Disjoint, Block.stop, start] at disjoint
      exact disjoint.symm
  have block (k : ℕ) (hk : k ∈ s'.table) : s'.blockOf k = s.blockOf k := by
    obtain ⟨member, same⟩ := stays k hk
    rw [Store.blockOf, evicts'.item]
    exact congrArg (Block.mk _) (itemNtotal_congr ((h.whole k member).agree_header same))
  have key (k : ℕ) (hk : k ∈ s'.table) : s'.keyAt k = s.keyAt k := by
    obtain ⟨member, same⟩ := stays k hk
    rw [Store.keyAt, Store.keyAt, evicts'.item]
    exact congrArg Rec.key ((h.whole k member).recOf_congr same)
  refine ⟨s', ?_, rfl, evicts', walk, ?_, fun k hk k' hk' eq => ?_, fun k hk => ?_, fun k hk => ?_,
    fun k hk => ?_, fun k hk => ?_, fun k hk c hc => ?_⟩
  · rw [Store.memlogFreeItem, evict, ok_bind, log, step]
    rfl
  · rw [evicts'.table]
    exact h.nodup.filter _
  · rw [key k hk, key k' hk'] at eq
    exact h.keys k (stays k hk).1 k' (stays k' hk').1 eq
  · rw [evicts'.metas k hk]
    exact h.linked k (stays k hk).1
  · rw [evicts'.metas k hk]
    exact h.counted k (stays k hk).1
  · rw [block k hk]
    exact (h.whole k (stays k hk).1).congr (stays k hk).2
  · obtain ⟨member, same⟩ := stays k hk
    rw [evicts'.item]
    exact (h.intact k member).congr (flagsOf_congr ((h.whole k member).agree_header same))
  · rw [block k hk]
    exact h.apart k (stays k hk).1 c (List.mem_cons_of_mem _ hc)

/-- The loop of `memlog_free_chunk` frees a chunk of the queue and evicts the items on it. -/
theorem Sweepable.memlogFreeChunk (h : Sweepable s queue) (small : s.log.memLimit < 2 ^ 32)
    (before : p ≤ s.log.memCurrentFreeing)
    (reach : s.log.memLimit / 8 ≤ p + total queue ∨
      s.log.memCurrentFreeing + total queue = s.log.memLimit)
    (turns : s.log.memLimit / 8 - p < fuel) :
    ∃ s', s.memlogFreeChunk fuel p =
        .ok (s', p + total (chunk (s.log.memLimit / 8 - p) queue)) ∧
      s'.log = s.log.swept (total (chunk (s.log.memLimit / 8 - p) queue)) ∧
      Evicts s s' (chunk (s.log.memLimit / 8 - p) queue) := by
  induction fuel generalizing s queue p with
  | zero => omega
  | succ fuel ih =>
    have toFree : s.log.toFree = s.log.memLimit / 8 := Nat.mod_eq_of_lt (by omega)
    have here := h.walk.total_le
    rw [Store.memlogFreeChunk, toFree, Nat.mod_eq_of_lt (by omega)]
    rcases Nat.eq_zero_or_pos (s.log.memLimit / 8 - p) with done | more
    · rw [if_neg (by omega), done, chunk_zero, total_nil, swept_zero]
      exact ⟨s, rfl, rfl, .refl s⟩
    · rw [if_pos (by omega)]
      cases queue with
      | nil =>
        rw [total_nil] at reach
        rw [if_pos (by omega), chunk, total_nil, swept_zero]
        exact ⟨s, rfl, rfl, .refl s⟩
      | cons b queue =>
        obtain ⟨s₁, step, log, evicts, rest⟩ := h.memlogFreeItem
        obtain ⟨-, positive, -⟩ := h.walk.freeItem
        rw [total_cons] at reach here
        have limit : s₁.log.memLimit = s.log.memLimit := by rw [log]; rfl
        have freeing : s₁.log.memCurrentFreeing = s.log.memCurrentFreeing + b.size := by rw [log]; rfl
        obtain ⟨s', run, log', evicts'⟩ := ih rest (by omega) (p := p + b.size) (by omega)
          (by rw [limit, freeing]; omega) (by omega)
        rw [limit, Nat.sub_add_eq] at run log' evicts'
        rw [if_neg (by omega), step, ok_bind, chunk_cons more, total_cons]
        dsimp only
        rw [Nat.mod_eq_of_lt (by omega), run, Nat.add_assoc]
        exact ⟨s', rfl, by rw [log', log, swept_swept], evicts.trans evicts'⟩

end Evict

/-! ## Stores that can be cleaned -/

/-- The records of a flat log, with the counters that go with them. -/
structure FlatLog (l : Memlog) (live : List Block) : Prop where
  tiles : Tiles l.memCurrentFreeing live l.memCurrent
  avail : l.memAvail + l.memCurrent = l.memLimit
  beginning : l.memFreeFromBeginning = l.memCurrentFreeing

/-- The records of a wrapped log: old ones up to a cycle record at `tail`, new ones from the
beginning. -/
structure WrappedLog (l : Memlog) (tail : ℕ) (old new : List Block) : Prop where
  oldTiles : Tiles l.memCurrentFreeing old tail
  newTiles : Tiles 0 new l.memCurrent
  cycle : CycleAt l.mem tail l.memLimit
  room : tail < l.memLimit
  avail : l.memAvail + l.memCurrent = l.memCurrentFreeing
  beginning : l.memFreeFromBeginning = 0

/-- The cursors and counters of a log fit the records `lay`. -/
def Memlog.Tiled (l : Memlog) : Layout → Prop
  | .flat live => FlatLog l live
  | .wrapped tail old new => WrappedLog l tail old new
  | .ended _ => False

/-- The records ahead of the cleaner, up to `mem_current` or the end of the log. -/
def Layout.queue (limit : ℕ) : Layout → List Block
  | .flat live => live
  | .wrapped tail old _ => old ++ [⟨tail, limit - tail⟩]
  | .ended _ => []

/-- A store whose log is tiled by the records `lay`, and whose items are on them.  Nothing is said
about the free bytes of the log. -/
structure Cleanable (s : Store) (lay : Layout) : Prop where
  log : s.log.Tiled lay
  limit : s.log.memLimit < 2 ^ 32
  whole : ∀ b ∈ lay.live, Whole s.log.mem b
  bounded : ∀ b ∈ lay.live, 16 * b.size ≤ s.log.memLimit
  nodup : s.table.Nodup
  keys : s.KeysApart
  linked : ∀ id ∈ s.table, (s.metas id).linked = true
  counted : ∀ id ∈ s.table, (s.metas id).slabbed = false ∧ 0 < (s.metas id).refcount
  live : ∀ id ∈ s.table, ∃ b ∈ lay.live, b.off = s.itemOf id
  intact : ∀ id ∈ s.table, Intact s.log.mem (s.itemOf id)

section Clean

variable {s s' : Store} {l : Memlog} {lay : Layout} {R : Multiset ℕ} {b c : Block}

theorem LogInv.tiled (h : LogInv l lay 0) : l.Tiled lay := by
  cases lay with
  | flat live =>
    have h : FlatInv l live 0 := h
    exact ⟨h.tiles, h.avail, h.beginning⟩
  | wrapped tail old new =>
    have h : WrappedInv l tail old new 0 := h
    have room := h.room
    exact ⟨h.oldTiles, h.newTiles, h.cycle, by omega, h.avail, h.beginning⟩
  | ended new => exact absurd (EndedInv.swept h) (lt_irrefl 0)

theorem StoreInv.cleanable (h : StoreInv s lay) (counted : Counted s R) : Cleanable s lay where
  log := h.log.tiled
  limit := h.limit
  whole := fun _ hb => h.wholeRec hb
  bounded := h.bounded
  nodup := h.nodup
  keys := h.keys
  linked := fun id member => (h.linked id).1 member
  counted := fun id member => by
    have linked := (h.linked id).1 member
    have slabbed := h.slabbed_of_linked linked
    have count := counted.count id slabbed
    rw [linked, Bool.toNat_true] at count
    exact ⟨slabbed, by omega⟩
  live := h.live
  intact := h.intact

theorem Cleanable.queue_apart (h : Cleanable s lay) (hb : b ∈ lay.queue s.log.memLimit)
    (hc : c ∈ lay.live) : b = c ∨ b.Disjoint c := by
  cases lay with
  | flat live => exact (FlatLog.tiles h.log).eq_or_disjoint hb hc
  | wrapped tail old new =>
    have log : WrappedLog s.log tail old new := h.log
    have avail := log.avail
    rcases List.mem_append.1 hb with hb | hb
    · rcases List.mem_append.1 hc with hc | hc
      · exact log.oldTiles.eq_or_disjoint hb hc
      · have first := (log.oldTiles.mem hb).1
        have second := (log.newTiles.mem hc).2.1
        exact .inr (.inr (by omega))
    · rw [List.mem_singleton] at hb
      subst hb
      rcases List.mem_append.1 hc with hc | hc
      · exact .inr (.inr (log.oldTiles.mem hc).2.1)
      · have first := log.oldTiles.le
        have second := (log.newTiles.mem hc).2.1
        refine .inr (.inr ?_)
        dsimp only
        omega
  | ended new => exact h.log.elim

theorem Cleanable.walk (h : Cleanable s lay) : Walk s.log (lay.queue s.log.memLimit) := by
  have limit := h.limit
  have steps (b : Block) (hb : b ∈ lay.live) : freeSize s.log.mem b.off = b.size := by
    have := h.bounded b hb
    exact (h.whole b hb).sized.freeSize_eq (by omega)
  cases lay with
  | flat live =>
    have log : FlatLog s.log live := h.log
    have avail := log.avail
    exact ⟨⟨_, by omega, log.tiles⟩, steps⟩
  | wrapped tail old new =>
    have log : WrappedLog s.log tail old new := h.log
    have room := log.room
    have tiles := log.oldTiles.snoc (Nat.sub_pos_of_lt room)
    rw [Nat.add_sub_cancel' room.le] at tiles
    refine ⟨⟨_, le_rfl, tiles⟩, fun b hb => ?_⟩
    rcases List.mem_append.1 hb with hb | hb
    · exact steps b (List.mem_append_left _ hb)
    · rw [List.mem_singleton.1 hb]
      exact log.cycle.freeSize_eq
  | ended new => exact h.log.elim

theorem Cleanable.sweepable (h : Cleanable s lay) : Sweepable s (lay.queue s.log.memLimit) := by
  have block (id : ℕ) (member : id ∈ s.table) : s.blockOf id ∈ lay.live := by
    obtain ⟨b, hb, off⟩ := h.live id member
    have size := (h.whole b hb).sized.total
    rw [Store.blockOf, ← off, size]
    exact hb
  exact ⟨h.walk, h.nodup, h.keys, h.linked, h.counted, fun id member => h.whole _ (block id member),
    h.intact, fun id member b hb => h.queue_apart hb (block id member)⟩

def Store.chunk (s : Store) (lay : Layout) : List Block :=
  Tiling.chunk (s.log.memLimit / 8) (lay.queue s.log.memLimit)

theorem Cleanable.short (h : Cleanable s lay) (guard : lruMaintainerGuard s.log = true) :
    Short s.log := by
  have limit := h.limit
  have bounds : s.log.memAvail ≤ s.log.memLimit ∧ s.log.memFreeFromBeginning ≤ s.log.memLimit := by
    cases lay with
    | flat live =>
      have log : FlatLog s.log live := h.log
      have h1 := log.avail
      have h2 := log.beginning
      have h3 := log.tiles.le
      omega
    | wrapped tail old new =>
      have log : WrappedLog s.log tail old new := h.log
      have h1 := log.avail
      have h2 := log.beginning
      have h3 := log.oldTiles.le
      have h4 := log.room
      omega
    | ended new => exact h.log.elim
  simp only [lruMaintainerGuard, Bool.and_eq_true, decide_eq_true_eq] at guard
  rw [Nat.mod_eq_of_lt limit, Nat.mod_eq_of_lt (by omega), Nat.mod_eq_of_lt (by omega)] at guard
  exact ⟨guard.1, guard.2⟩

theorem Cleanable.freeing_lt (h : Cleanable s lay) (guard : lruMaintainerGuard s.log = true) :
    s.log.memCurrentFreeing < s.log.memLimit ∨ s.log.memCurrentFreeing = 0 := by
  have bound := (h.short guard).beginning
  cases lay with
  | flat live =>
    have := FlatLog.beginning h.log
    omega
  | wrapped tail old new =>
    have log : WrappedLog s.log tail old new := h.log
    have room := log.room
    have le := log.oldTiles.le
    omega
  | ended new => exact h.log.elim

/-- Under the guard the queue has a chunk of an eighth of the log, or ends where the log does; and a
flat log keeps records. -/
theorem Cleanable.reach (h : Cleanable s lay) (guard : lruMaintainerGuard s.log = true) :
    (s.log.memLimit / 8 ≤ total (lay.queue s.log.memLimit) ∨
      s.log.memCurrentFreeing + total (lay.queue s.log.memLimit) = s.log.memLimit) ∧
    (s.log.Unwrapped → 0 < total (s.chunk lay) →
      s.log.memCurrentFreeing + total (s.chunk lay) < s.log.memCurrent) ∧
    (¬s.log.Unwrapped → s.log.memCurrent ≤ s.log.memCurrentFreeing) := by
  have short := h.short guard
  have h1 := short.avail
  have h2 := short.beginning
  cases lay with
  | flat live =>
    have log : FlatLog s.log live := h.log
    have h3 := log.avail
    have h4 := log.beginning
    have h5 := log.tiles.sum
    have unwrapped : s.log.Unwrapped := by rw [Memlog.Unwrapped]; omega
    refine ⟨.inl ?_, fun _ positive => ?_, fun wrapped => absurd unwrapped wrapped⟩
    · change _ ≤ (live.map Block.size).sum
      omega
    · rcases Nat.eq_zero_or_pos (s.log.memLimit / 8) with none | more
      · rw [Store.chunk, none, chunk_zero, total_nil] at positive
        exact absurd positive (lt_irrefl 0)
      · have bound : total (Tiling.chunk (s.log.memLimit / 8) live) <
            s.log.memLimit / 8 + s.log.memLimit / 16 := total_chunk_lt more fun b hb => by
          have := h.bounded b hb
          omega
        change _ + total (Tiling.chunk _ live) < _
        omega
  | wrapped tail old new =>
    have log : WrappedLog s.log tail old new := h.log
    have h3 := log.avail
    have h4 := log.room
    have h5 := log.oldTiles.sum
    have wrapped : ¬s.log.Unwrapped := by rw [Memlog.Unwrapped]; omega
    refine ⟨.inr ?_, fun unwrapped => absurd unwrapped wrapped, fun _ => by omega⟩
    rw [Layout.queue, total_append, total_cons, total_nil, total]
    dsimp only
    omega
  | ended new => exact h.log.elim

/-- What one call of the cleaner may do: it frees the oldest records up to the first boundary at
which an eighth of the log is free, or to the end of the log; it sets exactly their bytes to zero,
unlinks exactly the keys whose item is on one of them, and adds what it freed to the counter that
goes with the state of the log. -/
structure CleanedExactly (s s' : Store) (lay : Layout) (freed : ℕ) : Prop where
  count : freed = total (s.chunk lay)
  stops : s.log.memLimit / 8 ≤ freed ∨ s.log.memCurrentFreeing + freed = s.log.memLimit
  zeroed : ∀ x, s'.log.mem x =
    if s.log.memCurrentFreeing ≤ x ∧ x < s.log.memCurrentFreeing + freed then 0 else s.log.mem x
  unlinked : ∀ key id, s.assocFind key = some id → (∃ b ∈ s.chunk lay, b.off = s.itemOf id) →
    s'.assocFind key = none
  kept : ∀ key, (∀ id, s.assocFind key = some id → ∀ b ∈ s.chunk lay, b.off ≠ s.itemOf id) →
    s'.assocFind key = s.assocFind key ∧ s'.entry key = s.entry key ∧
      s'.contents.visible key = s.contents.visible key
  avail : s'.log.memAvail = s.log.memAvail + if s.log.Unwrapped then 0 else freed
  beginning : s'.log.memFreeFromBeginning =
    s.log.memFreeFromBeginning + if s.log.Unwrapped then freed else 0
  freeing : s'.log.memCurrentFreeing = if s.log.memLimit ≤ s.log.memCurrentFreeing + freed then 0
    else s.log.memCurrentFreeing + freed

theorem Cleanable.settle (h : Cleanable s lay) (guard : lruMaintainerGuard s.log = true) {n : ℕ}
    (count : n = total (s.chunk lay)) :
    ((s.log.swept n).settle n).mem = fill s.log.mem s.log.memCurrentFreeing n 0 ∧
    ((s.log.swept n).settle n).memAvail = s.log.memAvail + (if s.log.Unwrapped then 0 else n) ∧
    ((s.log.swept n).settle n).memFreeFromBeginning =
      s.log.memFreeFromBeginning + (if s.log.Unwrapped then n else 0) ∧
    ((s.log.swept n).settle n).memCurrentFreeing =
      if s.log.memLimit ≤ s.log.memCurrentFreeing + n then 0 else s.log.memCurrentFreeing + n := by
  obtain ⟨-, flat, wrapped⟩ := h.reach guard
  rw [← count] at flat
  have cursor : (s.log.swept n).memCurrentFreeing = s.log.memCurrentFreeing + n := rfl
  have current : (s.log.swept n).memCurrent = s.log.memCurrent := rfl
  have limit : (s.log.swept n).memLimit = s.log.memLimit := rfl
  rcases Nat.eq_zero_or_pos n with rfl | positive
  · have here := h.freeing_lt guard
    refine ⟨rfl, ?_, ?_, ?_⟩
    · rw [ite_self]
      rfl
    · rw [ite_self]
      rfl
    · change s.log.memCurrentFreeing + 0 = _
      split_ifs <;> omega
  · by_cases unwrapped : s.log.Unwrapped
    · have ahead := flat unwrapped positive
      have whole : s.log.memCurrent + s.log.memAvail = s.log.memLimit := unwrapped
      simp only [Memlog.settle, if_neg positive.ne', cursor, current, limit, if_neg (not_le.2 ahead),
        if_pos unwrapped, ge_iff_le]
      rw [if_neg (by omega), if_neg (by omega)]
      exact ⟨rfl, rfl, rfl, rfl⟩
    · have behind := wrapped unwrapped
      simp only [Memlog.settle, if_neg positive.ne', cursor, current, limit,
        if_pos (show s.log.memCurrent ≤ s.log.memCurrentFreeing + n by omega), if_neg unwrapped,
        ge_iff_le]
      split_ifs <;> exact ⟨rfl, rfl, rfl, rfl⟩

theorem visible_congr {key : Key} (entry : s'.entry key = s.entry key) (clock : s'.clock = s.clock) :
    s'.contents.visible key = s.contents.visible key := by
  have now : s'.contents.now = s.contents.now := congrArg Prod.fst clock
  have live : s'.contents.oldestLive = s.contents.oldestLive := congrArg (·.2.1) clock
  have cas : s'.contents.oldestCas = s.contents.oldestCas := congrArg (·.2.2) clock
  have hides (e : Content) : s'.contents.hides e = s.contents.hides e := by
    simp only [Contents.hides, Contents.flushed, Contents.expired, now, live, cas]
  simp only [Contents.visible, hides]
  exact congrArg _ entry

theorem Cleanable.agree (h : Cleanable s lay) {id : ℕ} (member : id ∈ s.table)
    (away : ∀ b ∈ s.chunk lay, b.off ≠ s.itemOf id) :
    Agree (fill s.log.mem s.log.memCurrentFreeing (total (s.chunk lay)) 0) s.log.mem
      (s.blockOf id).off (s.blockOf id).stop := by
  obtain ⟨rest, split, -⟩ := chunk_spec (s.log.memLimit / 8) (lay.queue s.log.memLimit)
  obtain ⟨hi, -, tiles⟩ := h.walk.tiles
  rw [split] at tiles
  obtain ⟨mid, tiles, -⟩ := tiles.split
  have sum : s.log.memCurrentFreeing + total (s.chunk lay) = mid := tiles.sum
  intro x low high
  refine fill_outside ?_
  by_contra inside
  obtain ⟨b, hb, first, last⟩ := tiles.cover (x := x) (by omega) (by omega)
  have queued : b ∈ lay.queue s.log.memLimit := by
    rw [split]
    exact List.mem_append_left _ hb
  rcases h.sweepable.apart id member b queued with same | disjoint
  · exact away b hb (congrArg Block.off same)
  · rw [Block.Disjoint] at disjoint
    omega

/-- The cleaner evicts exactly what it frees. -/
theorem cleaning_exact (h : Cleanable s lay) (guard : lruMaintainerGuard s.log = true) :
    ∃ s' freed, s.memlogClean = .ok (s', freed) ∧ CleanedExactly s s' lay freed := by
  have limit := h.limit
  have toFree : s.log.toFree = s.log.memLimit / 8 := Nat.mod_eq_of_lt (by omega)
  have reach := (h.reach guard).1
  obtain ⟨s₁, run, log, evicts⟩ := h.sweepable.memlogFreeChunk (p := 0) limit (Nat.zero_le _)
    (by rw [Nat.zero_add]; exact reach)
    (show s.log.memLimit / 8 - 0 < s.log.toFree + 1 by omega)
  rw [Nat.zero_add, Nat.sub_zero] at run
  rw [Nat.sub_zero] at log evicts
  change s.memlogFreeChunk _ 0 = .ok (s₁, total (s.chunk lay)) at run
  change s₁.log = s.log.swept (total (s.chunk lay)) at log
  change Evicts s s₁ (s.chunk lay) at evicts
  obtain ⟨mem, avail, beginning, freeing⟩ := h.settle guard rfl
  set n := total (s.chunk lay) with count
  set s' : Store := { s₁ with log := s₁.log.settle n }
  have mem' : s'.log.mem = fill s.log.mem s.log.memCurrentFreeing n 0 := by
    change (s₁.log.settle n).mem = _
    rw [log, mem]
  have table (k : ℕ) : k ∈ s'.table ↔ k ∈ s.table ∧ ∀ b ∈ s.chunk lay, b.off ≠ s.itemOf k :=
    evicts.mem_table
  have content (k : ℕ) (hk : k ∈ s'.table) : s'.keyAt k = s.keyAt k ∧ s'.entryOf k = s.entryOf k := by
    obtain ⟨member, away⟩ := (table k).1 hk
    have whole := h.sweepable.whole k member
    have same := h.agree member away
    rw [← mem'] at same
    have item : s'.itemOf k = s.itemOf k := evicts.item k
    have time : (s'.metas k).time = (s.metas k).time := evicts.times.time k
    rw [Store.keyAt, Store.keyAt, Store.entryOf, Store.entryOf, item, time]
    exact ⟨congrArg Rec.key (whole.recOf_congr same), whole.contentAt_congr same _⟩
  have keys : s'.KeysApart := fun k hk k' hk' eq => h.keys k ((table k).1 hk).1 k' ((table k').1 hk').1
    (by rw [(content k hk).1, (content k' hk').1] at eq; exact eq)
  refine ⟨s', n, ?_, count, ?_, fun x => by rw [mem']; rfl, fun key id found gone => ?_,
    fun key away => ?_, ?_, ?_, ?_⟩
  · rw [Store.memlogClean, run, ok_bind]
    rfl
  · obtain ⟨rest, split, enough⟩ := chunk_spec (s.log.memLimit / 8) (lay.queue s.log.memLimit)
    rcases enough with enough | none
    · exact .inl enough
    · rw [none, List.append_nil] at split
      rw [split] at reach
      exact reach
  · rw [Option.eq_none_iff_forall_ne_some]
    intro k found'
    obtain ⟨hk, hkey⟩ := keys.assocFind_iff.1 found'
    obtain ⟨member, apart⟩ := (table k).1 hk
    obtain ⟨hid, here⟩ := h.keys.assocFind_iff.1 found
    obtain ⟨b, hb, off⟩ := gone
    have same : k = id := h.keys k member id hid (by rw [here, ← (content k hk).1, hkey])
    exact apart b hb (same ▸ off)
  · have lookup : s'.assocFind key = s.assocFind key := by
      cases found : s.assocFind key with
      | some id =>
        obtain ⟨member, here⟩ := h.keys.assocFind_iff.1 found
        have hk := (table id).2 ⟨member, away id found⟩
        exact keys.assocFind_iff.2 ⟨hk, by rw [(content id hk).1, here]⟩
      | none =>
        rw [Option.eq_none_iff_forall_ne_some]
        intro k found'
        obtain ⟨hk, hkey⟩ := keys.assocFind_iff.1 found'
        have : s.assocFind key = some k :=
          h.keys.assocFind_iff.2 ⟨((table k).1 hk).1, by rw [← (content k hk).1, hkey]⟩
        rw [found] at this
        cases this
    have entry : s'.entry key = s.entry key := by
      rw [Store.entry, Store.entry, lookup]
      cases found : s.assocFind key with
      | none => rfl
      | some id =>
        obtain ⟨member, -⟩ := h.keys.assocFind_iff.1 found
        exact congrArg some (content id ((table id).2 ⟨member, away id found⟩)).2
    exact ⟨lookup, entry, visible_congr entry evicts.clock⟩
  · change (s₁.log.settle n).memAvail = _
    rw [log, avail]
  · change (s₁.log.settle n).memFreeFromBeginning = _
    rw [log, beginning]
  · change (s₁.log.settle n).memCurrentFreeing = _
    rw [log, freeing]

end Clean

/-- `set a`, then thirteen header lines that fill more than three quarters of the log. -/
def filledTrace : List (Action Unit) :=
  storing () .set [97] 0 [120] ++ (List.replicate 13 (abandoned 67000000)).flatten

theorem cleaning_exact_filled : ∃ s lay s' freed, Cleanable s lay ∧
    lruMaintainerGuard s.log = true ∧ s.memlogClean = .ok (s', freed) ∧
    CleanedExactly s s' lay freed := by
  have eval : (filledTrace.foldlM (fun (srv : Server Unit) a =>
      if srv.meets a then srv.next a else none) (.init started memlogDefaultSize 62)).map
      (fun srv => lruMaintainerGuard srv.store.log) = some true := by
    decide +kernel
  obtain ⟨srv, fold, guard⟩ := Option.map_eq_some_iff.1 eval
  obtain ⟨lay, leaked, inv, -⟩ := tended_of_run rfl (by decide) (by decide) (Server.good_of_meets fold)
  have cleanable := inv.inv.cleanable inv.counted
  obtain ⟨s', freed, run, exactly⟩ := cleaning_exact cleanable guard
  exact ⟨srv.store, lay, s', freed, cleanable, guard, run, exactly⟩

end LogMemcached

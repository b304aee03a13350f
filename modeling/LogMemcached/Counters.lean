import LogMemcached.Lib.Run
import LogMemcached.SequenceSteps

/-!
# The linked items and their counters

Commands one after another, with the histogram of `stats sizes` switched on and off in between.
While the requests of the commands fit into the log, the linked items are the items of the hash
table, each under a key of its own, and every counter says what the table holds.
-/

namespace LogMemcached

open ByteMem CText Tiling Fallible Transition

/-! ## Switching the histogram -/

namespace Store

/-- `item_stats_sizes_init`; the histogram itself is allocated with `calloc`. -/
def itemStatsSizesInit (s : Store) : Store :=
  match s.stats.sizesHist with
  | some _ => s
  | none =>
      let casId := if s.settings.useCas then (s.casId + 1) % 2 ^ 64 else s.casId
      { s with
        casId := casId
        stats := { s.stats with
          sizesBuckets := s.settings.itemSizeMax / 32 + 1
          sizesHist := some fun _ => 0
          sizesCasMin := if s.settings.useCas then casId else 0 } }

/-- `item_stats_sizes_enable`. -/
def itemStatsSizesEnable (s : Store) : Store :=
  if s.settings.useCas then s.itemStatsSizesInit else s

/-- `item_stats_sizes_disable`. -/
def itemStatsSizesDisable (s : Store) : Store := { s with stats := { s.stats with sizesHist := none } }

end Store

inductive Operation
  | command (cmd : Command)
  | sizesEnable
  | sizesDisable

def Store.operate (s : Store) : Operation → Except Abort Store
  | .command cmd => do
      let (s, _) ← s.exec cmd
      pure s
  | .sizesEnable => pure s.itemStatsSizesEnable
  | .sizesDisable => pure s.itemStatsSizesDisable

/-! ## What the counters should say -/

/-- The linked items are those of the table, and the counters are exact. -/
structure Store.Consistent (s : Store) : Prop where
  linked : ∀ id, (s.metas id).linked = true ↔ id ∈ s.table
  once : s.table.Nodup
  keys : ∀ id ∈ s.table, ∀ id' ∈ s.table, s.keyAt id = s.keyAt id' → id = id'
  free : ∀ id, ¬((s.metas id).linked = true ∧ (s.metas id).slabbed = true)
  currItems : s.stats.currItems.toNat = s.table.length
  hashItems : s.stats.hashItems.toNat = s.stats.currItems.toNat
  currBytes : s.stats.currBytes.toNat =
    (s.table.map fun id => itemNtotal s.log.mem (s.itemOf id)).sum
  sizes : s.stats.sizes.toNat = s.table.length
  sizesBytes : s.stats.sizesBytes.toNat =
    (s.table.map fun id => intToSize (nbytesOf s.log.mem (s.itemOf id))).sum
  hist : ∀ hist, s.stats.sizesHist = some hist → ∀ b < s.stats.sizesBuckets,
    (hist b).toNat = s.table.countP fun id =>
      s.stats.sizesCasMin ≤ itemGetCas s.log.mem (s.itemOf id) && s.sizesBucket id == b

section Facts

variable {s s' : Store} {lay : Layout} {id : ℕ}

theorem StoreInv.blockOf_mem (h : StoreInv s lay) (member : id ∈ s.table) :
    s.blockOf id ∈ lay.live := by
  obtain ⟨b, hb, off⟩ := h.live id member
  have size := (h.log.sized hb).total
  rw [Store.blockOf, ← off, size]
  exact hb

theorem StoreInv.blockOf_nodup (h : StoreInv s lay) : (s.table.map s.blockOf).Nodup := by
  refine h.nodup.map_on fun id hid id' hid' same => h.keys id hid id' hid' ?_
  exact congrArg (keyOf s.log.mem) (congrArg Block.off same)

theorem StoreInv.ntotal_le (h : StoreInv s lay) :
    (s.table.map fun id => itemNtotal s.log.mem (s.itemOf id)).sum ≤ s.log.memLimit := by
  have sub : (s.table.map s.blockOf).Subperm lay.live :=
    List.subperm_of_subset h.blockOf_nodup fun b hb => by
      obtain ⟨id, member, rfl⟩ := List.mem_map.1 hb
      exact h.blockOf_mem member
  obtain ⟨l, perm, sublist⟩ := sub
  calc (s.table.map fun id => itemNtotal s.log.mem (s.itemOf id)).sum
      = ((s.table.map s.blockOf).map Block.size).sum := by rw [List.map_map]; rfl
    _ = (l.map Block.size).sum := (perm.map Block.size).sum_eq.symm
    _ ≤ (lay.live.map Block.size).sum :=
      (sublist.map Block.size).sum_le_sum fun _ _ => Nat.zero_le _
    _ ≤ s.log.memLimit := h.log.total_le

theorem StoreInv.length_le (h : StoreInv s lay) : s.table.length ≤ s.log.memLimit := by
  refine le_trans ?_ h.ntotal_le
  have := List.length_le_sum_of_one_le (s.table.map fun id => itemNtotal s.log.mem (s.itemOf id))
  rw [List.length_map] at this
  refine this fun n hn => ?_
  obtain ⟨id, member, rfl⟩ := List.mem_map.1 hn
  have : 16 ≤ itemNtotal s.log.mem (s.itemOf id) := (h.log.sized (h.blockOf_mem member)).header
  omega

theorem StoreInv.nbytes_le (h : StoreInv s lay) :
    (s.table.map fun id => intToSize (nbytesOf s.log.mem (s.itemOf id))).sum ≤ s.log.memLimit := by
  refine le_trans (List.sum_le_sum fun id member => ?_) h.ntotal_le
  have whole := h.wholeRec (h.blockOf_mem member)
  have size := whole.size_eq
  have small := whole.small
  simp only [Store.blockOf] at size small
  rw [intToSize, if_pos small]
  omega

theorem StoreInv.consistent (h : StoreInv s lay) : s.Consistent := by
  have long {n : ℕ} (le : n ≤ s.log.memLimit) : n < UInt64.size :=
    lt_of_le_of_lt le (h.limit.trans (by decide))
  have short {n : ℕ} (le : n ≤ s.log.memLimit) : n < UInt32.size := lt_of_le_of_lt le h.limit
  have tally : Tallies s.stats (s.table.map s.measure) := h.tally
  have items : s.stats.currItems.toNat = s.table.length := by
    rw [tally.currItems, List.length_map]
    exact UInt64.toNat_ofNat_of_lt' (long h.length_le)
  refine ⟨fun id => (h.linked id).symm, h.nodup, h.keys, fun id both => ?_, items, ?_, ?_, ?_, ?_,
    fun hist on b hb => ?_⟩
  · have := h.slabbed_of_linked both.1
    rw [both.2] at this
    cases this
  · rw [items, tally.hashItems, List.length_map]
    exact UInt32.toNat_ofNat_of_lt' (short h.length_le)
  · rw [tally.currBytes, List.map_map]
    exact UInt64.toNat_ofNat_of_lt' (long h.ntotal_le)
  · rw [tally.sizes, List.length_map]
    exact UInt32.toNat_ofNat_of_lt' (short h.length_le)
  · rw [tally.sizesBytes, List.map_map]
    exact UInt64.toNat_ofNat_of_lt' (long h.nbytes_le)
  · rw [tally.hist hist on b hb, List.countP_map]
    exact UInt32.toNat_ofNat_of_lt' (short (List.countP_le_length.trans h.length_le))

/-! ## Steps -/

/-- What keeps the counters exact: the requests of a command fit into the log, and a histogram is
not switched on below the CAS id of a linked item. -/
def Store.Counts (s : Store) : Operation → Prop
  | .command cmd => s.Fits cmd
  | .sizesEnable => s.stats.sizesHist = none →
      ∀ id ∈ s.table, itemGetCas s.log.mem (s.itemOf id) < (s.casId + 1) % 2 ^ 64
  | .sizesDisable => True

structure CountedStep (s : Store) (op : Operation) (s' : Store) : Prop where
  counts : s.Counts op
  ran : s.operate op = .ok s'

theorem Steady.recount (h : Steady s lay) (casId : ℕ) {stats : ItemStats}
    (tally : Tallies stats (s.table.map s.measure)) :
    Steady { s with casId := casId, stats := stats } lay :=
  ⟨⟨h.inv.log, h.inv.limit, h.inv.useCas, h.inv.bounded, h.inv.small, h.inv.nodup, h.inv.linked,
    h.inv.live, h.inv.intact, h.inv.keys, h.inv.freeNodup, h.inv.free, h.inv.unlinked, tally⟩,
    h.sound, h.off⟩

theorem Steady.sizesEnable (h : Steady s lay) (counts : s.Counts .sizesEnable) :
    Steady s.itemStatsSizesEnable lay := by
  rw [Store.itemStatsSizesEnable, if_pos h.inv.useCas, Store.itemStatsSizesInit]
  cases off : s.stats.sizesHist with
  | some hist => exact h
  | none =>
    have tally : Tallies s.stats (s.table.map s.measure) := h.inv.tally
    simp only [h.inv.useCas, if_true]
    refine h.recount _ { tally with hist := fun hist on b _ => ?_ }
    cases on
    have none_counted : (s.table.map s.measure).countP (·.counted ((s.casId + 1) % 2 ^ 64) b) = 0 := by
      rw [List.countP_map, List.countP_eq_zero]
      intro id member
      have old : (s.measure id).cas < (s.casId + 1) % 2 ^ 64 := counts off id member
      simp only [Function.comp_apply, Measure.counted, Bool.and_eq_true, decide_eq_true_eq]
      exact fun counted => absurd counted.1 (not_le.2 old)
    rw [none_counted]
    rfl

theorem Steady.sizesDisable (h : Steady s lay) : Steady s.itemStatsSizesDisable lay :=
  h.recount s.casId { (h.inv.tally : Tallies s.stats _) with hist := fun _ => nofun }

theorem Steady.operate {op : Operation} (h : Steady s lay) (step : CountedStep s op s') :
    ∃ lay', Steady s' lay' := by
  obtain ⟨counts, ran⟩ := step
  cases op with
  | command cmd =>
    obtain ⟨⟨s₁, answer⟩, exec, ran⟩ := bind_ran.1 ran
    obtain rfl := pure_ran.1 ran
    exact h.exec counts exec
  | sizesEnable =>
    obtain rfl := pure_ran.1 ran
    exact ⟨lay, h.sizesEnable counts⟩
  | sizesDisable =>
    obtain rfl := pure_ran.1 ran
    exact ⟨lay, h.sizesDisable⟩

end Facts

/-- After every run of such steps the linked items and the counters agree. -/
theorem counters_match_linked_items {settings : Settings} {now : ℕ} {ops : List Operation}
    {s : Store} (cas : settings.useCas = true) (off : settings.lruLogEnabled = false)
    (run : Run CountedStep (Store.init settings memlogDefaultSize now) ops s) : s.Consistent := by
  obtain ⟨lay, h⟩ := run.invariant (fun s => ∃ lay, Steady s lay)
    (fun s op s' ⟨lay, h⟩ step => h.operate step)
    ⟨_, Store.init_inv (by decide) (by decide) cas, .init, off⟩
  exact h.inv.consistent

/-- Two items under a histogram, one of them replaced, touched and deleted, and a new histogram. -/
def countedTrace : List Operation :=
  [.sizesEnable, .command (.store .set [97] 5 0 0 [49, 13, 10]),
    .command (.store .set [98] 0 0 0 [50, 13, 10]), .command (.arithmetic [97] true 9),
    .command (.touch [98] 50), .command (.get true [[97], [98]]), .command .clean,
    .command (.delete [98]), .sizesDisable, .sizesEnable,
    .command (.store .set [99] 0 0 0 [51, 13, 10])]

def Store.operateSimply (s : Store) : Operation → Option Store
  | .command cmd => (s.execSimply cmd).map Prod.fst
  | .sizesEnable =>
      if s.table.all fun id => itemGetCas s.log.mem (s.itemOf id) < (s.casId + 1) % 2 ^ 64
      then some s.itemStatsSizesEnable else none
  | .sizesDisable => some s.itemStatsSizesDisable

theorem countedStep_of_simple {s s' : Store} {op : Operation} (next : s.operateSimply op = some s') :
    CountedStep s op s' := by
  cases op with
  | command cmd =>
    obtain ⟨⟨s₁, answer⟩, ran, rfl⟩ := Option.map_eq_some_iff.1 next
    obtain ⟨-, fits, exec⟩ := execSimply_some ran
    refine ⟨fits, ?_⟩
    rw [Store.operate, exec]
    rfl
  | sizesEnable =>
    rw [Store.operateSimply, Option.ite_none_right_eq_some, List.all_eq_true] at next
    obtain ⟨old, rfl⟩ := next.imp_right Option.some.inj
    exact ⟨fun _ id member => by simpa using old id member, rfl⟩
  | sizesDisable =>
    cases next
    exact ⟨trivial, rfl⟩

theorem counters_match_linked_items_mixed : ∃ s, Run CountedStep
    (Store.init (settingsInit 1500000000) memlogDefaultSize 62) countedTrace s ∧ s.Consistent ∧
      s.stats.currItems = 2 ∧ s.stats.sizesHist.map (· 2) = some 1 := by
  have eval : (countedTrace.foldlM Store.operateSimply
      (Store.init (settingsInit 1500000000) memlogDefaultSize 62)).map (fun s =>
        (s.stats.currItems, s.stats.sizesHist.map (· 2))) = some (2, some 1) := by
    decide +kernel
  obtain ⟨s, run, last⟩ := Option.map_eq_some_iff.1 eval
  have steps := (Run.of_foldlM run).mono fun _ _ _ next => countedStep_of_simple next
  obtain ⟨items, hist⟩ := Prod.mk.inj last
  exact ⟨s, steps, counters_match_linked_items rfl rfl steps, items, hist⟩

/-- The block after `set b 0 0 1073741824`. -/
def hugeBlock : List UInt8 := List.replicate (2 ^ 30 + 2) 0

theorem vlenOf_hugeBlock : Store.vlenOf hugeBlock = 2 ^ 30 := by
  rw [Store.vlenOf, hugeBlock, List.length_replicate]
  norm_num

/-- The attempts of a request as large as the log wrap it twice, and the second cycle record
overwrites the header of a linked item. -/
theorem huge_set_breaks_counters : ∃ s, Run (fun s op s' => Store.operate s op = .ok s')
    (Store.init (settingsInit 1500000000) memlogDefaultSize 62)
      [.command (.store .set [97] 0 0 0 [120, 13, 10]),
        .command (.store .set [98] 0 0 0 hugeBlock)] s ∧
      s.stats.currBytes.toNat = 35 ∧
      (s.table.map fun id => itemNtotal s.log.mem (s.itemOf id)).sum = 32 ∧ ¬s.Consistent := by
  have eval : (((Store.init (settingsInit 1500000000) memlogDefaultSize 62).operate
      (.command (.store .set [97] 0 0 0 [120, 13, 10]))).toOption.bind fun s =>
        (s.processUpdateCommand .set [98] 0 0 (2 ^ 30) 0).toOption.map fun p =>
          (p.2, p.1.stats.currBytes.toNat,
            (p.1.table.map fun id => itemNtotal p.1.log.mem (p.1.itemOf id)).sum)) =
      some (.reply .noMemoryStoring, 35, 32) := by
    decide +kernel
  obtain ⟨s₁, first, eval⟩ := Option.bind_eq_some_iff.1 eval
  obtain ⟨⟨s₂, update⟩, header, eq⟩ := Option.map_eq_some_iff.1 eval
  simp only [Prod.mk.injEq] at eq
  obtain ⟨rfl, bytes, total⟩ := eq
  have second : s₁.operate (.command (.store .set [98] 0 0 0 hugeBlock)) = .ok s₂ := by
    rw [Store.operate, Store.exec, vlenOf_hugeBlock]
    change ((s₁.processUpdateCommand .set [98] 0 0 (2 ^ 30) 0 >>= _) >>= _) = _
    rw [ok_of_toOption header]
    rfl
  refine ⟨s₂, .cons (ok_of_toOption first) (.one second), bytes, total, fun consistent => ?_⟩
  have := consistent.currBytes
  rw [bytes, total] at this
  cases this

end LogMemcached

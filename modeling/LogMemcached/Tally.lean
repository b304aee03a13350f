import LogMemcached.Record

/-!
# The counters of the linked items

`stats_state`, `hash_items`, `sizes` and the histogram of `stats sizes` are changed by separate
functions whenever an item is linked or unlinked, from values read out of its record.  Here the
counters are compared with the list of what was read: a link adds one entry to it and an unlink
takes one away.
-/

namespace LogMemcached

open ByteMem Tiling

structure Measure where
  ntotal : ℕ
  nbytes : ℕ
  cas : ℕ

def Measure.bucket (x : Measure) : ℕ := (x.ntotal + 31) / 32

/-- Whether a histogram that counts from `casMin` counts the record in bucket `b`. -/
def Measure.counted (x : Measure) (casMin b : ℕ) : Bool := casMin ≤ x.cas && x.bucket == b

def measureOf (m : Mem) (o : ℕ) : Measure := ⟨itemNtotal m o, nbytesOf m o, itemGetCas m o⟩

def Store.measure (s : Store) (id : ℕ) : Measure := measureOf s.log.mem (s.itemOf id)

theorem Whole.measureOf_congr {m m' : Mem} {b : Block} (h : Whole m b)
    (same : Agree m' m b.off b.stop) : measureOf m' b.off = measureOf m b.off := by
  have header := h.agree_header same
  rw [measureOf, measureOf, itemNtotal_congr header, nbytesOf_congr header, h.itemGetCas_congr same]

theorem measureOf_write_data {m : Mem} {o a : ℕ} (bytes : List UInt8) (low : itemData m o ≤ a) :
    measureOf (write m a bytes) o = measureOf m o := by
  simp only [itemData, sizeofItemData] at low
  have header : Agree (write m a bytes) m o (o + 16) := agree_write (Or.inl (by omega))
  have cas : itemGetCas (write m a bytes) o = itemGetCas m o := by
    rw [itemGetCas, itemGetCas, flagsOf_congr header]
    split_ifs with cas
    · have room : casRoom (flagsOf m o) = 8 := if_pos cas
      exact u64_congr (agree_write (Or.inl (by simp only [sizeofItemData]; omega)))
    · rfl
  rw [measureOf, measureOf, itemNtotal_congr header, nbytesOf_congr header, cas]

theorem Whole.measureOf_setFlags {m : Mem} {b : Block} {f : UInt8} (h : Whole m b)
    (h' : Whole (LogMemcached.setFlags m b.off f) b)
    (same : has f itemCas = has (flagsOf m b.off) itemCas) :
    measureOf (LogMemcached.setFlags m b.off f) b.off = measureOf m b.off := by
  have nbytes : nbytesOf (LogMemcached.setFlags m b.off f) b.off = nbytesOf m b.off :=
    u32_congr fun x _ hx => setFlags_outside (by omega)
  have cas : itemGetCas (LogMemcached.setFlags m b.off f) b.off = itemGetCas m b.off := by
    rw [itemGetCas, itemGetCas, flagsOf_setFlags, same]
    split_ifs
    · exact u64_congr fun x low _ => setFlags_outside (by simp only [sizeofItemData] at low; omega)
    · rfl
  rw [measureOf, measureOf, h'.sized.total, h.sized.total, nbytes, cas]

namespace ItemStats

def sized (st : ItemStats) (x : Measure) (change : UInt32 → UInt32) : ItemStats :=
  match st.sizesHist with
  | none => st
  | some hist =>
      if st.sizesCasMin > x.cas then st
      else if x.bucket < st.sizesBuckets then
        { st with sizesHist := some (Function.update hist x.bucket (change (hist x.bucket))) }
      else st

def link (st : ItemStats) (x : Measure) : ItemStats :=
  { st with
    currBytes := st.currBytes + UInt64.ofNat x.ntotal
    currItems := st.currItems + 1
    totalItems := st.totalItems + 1
    hashItems := st.hashItems + 1
    sizes := st.sizes + 1
    sizesBytes := st.sizesBytes + UInt64.ofNat (intToSize x.nbytes) }.sized x (· + 1)

def unlink (st : ItemStats) (x : Measure) : ItemStats :=
  let st := { st with
    currBytes := st.currBytes - UInt64.ofNat x.ntotal
    currItems := st.currItems - 1 }.sized x (· - 1)
  { st with
    hashItems := st.hashItems - 1
    sizes := st.sizes - 1
    sizesBytes := st.sizesBytes - UInt64.ofNat (intToSize x.nbytes) }

end ItemStats

/-- The counters agree with a list of linked records, as far as their width goes. -/
structure Tallies (st : ItemStats) (l : List Measure) : Prop where
  currItems : st.currItems = UInt64.ofNat l.length
  currBytes : st.currBytes = UInt64.ofNat (l.map Measure.ntotal).sum
  hashItems : st.hashItems = UInt32.ofNat l.length
  sizes : st.sizes = UInt32.ofNat l.length
  sizesBytes : st.sizesBytes = UInt64.ofNat (l.map fun x => intToSize x.nbytes).sum
  hist : ∀ hist, st.sizesHist = some hist → ∀ b < st.sizesBuckets,
    hist b = UInt32.ofNat (l.countP (·.counted st.sizesCasMin b))

section Counting

variable {st : ItemStats} {l l' : List Measure} {x : Measure}

theorem Tallies.perm (h : Tallies st l) (same : l.Perm l') : Tallies st l' where
  currItems := by rw [h.currItems, same.length_eq]
  currBytes := by rw [h.currBytes, (same.map _).sum_eq]
  hashItems := by rw [h.hashItems, same.length_eq]
  sizes := by rw [h.sizes, same.length_eq]
  sizesBytes := by rw [h.sizesBytes, (same.map _).sum_eq]
  hist := fun hist on b hb => by rw [h.hist hist on b hb, same.countP_eq]

theorem sized_eq (st : ItemStats) (x : Measure) (change : UInt32 → UInt32) :
    ∃ counts, st.sized x change = { st with sizesHist := counts } ∧
      ∀ hist', counts = some hist' → ∃ hist, st.sizesHist = some hist ∧
        ∀ b < st.sizesBuckets,
          hist' b = if x.counted st.sizesCasMin b then change (hist b) else hist b := by
  unfold ItemStats.sized Measure.counted
  rcases on : st.sizesHist with _ | hist <;> dsimp only
  · exact ⟨none, by rw [← on], fun _ => nofun⟩
  split_ifs with old inside
  · refine ⟨some hist, by rw [← on], fun hist' eq => ⟨hist, rfl, fun b _ => ?_⟩⟩
    cases eq
    rw [if_neg]
    simp [old]
  · refine ⟨_, rfl, fun hist' eq => ⟨hist, rfl, fun b _ => ?_⟩⟩
    cases eq
    rw [Function.update_apply]
    by_cases here : b = x.bucket
    · rw [if_pos here, if_pos (by simpa [here] using old), here]
    · rw [if_neg here, if_neg (by simp [Ne.symm here])]
  · refine ⟨some hist, by rw [← on], fun hist' eq => ⟨hist, rfl, fun b hb => ?_⟩⟩
    cases eq
    have other : x.bucket ≠ b := by omega
    rw [if_neg (by simp [other])]

theorem Tallies.link (h : Tallies st l) (x : Measure) : Tallies (st.link x) (x :: l) := by
  obtain ⟨counts, eq, hist⟩ := sized_eq { st with
    currBytes := st.currBytes + UInt64.ofNat x.ntotal
    currItems := st.currItems + 1
    totalItems := st.totalItems + 1
    hashItems := st.hashItems + 1
    sizes := st.sizes + 1
    sizesBytes := st.sizesBytes + UInt64.ofNat (intToSize x.nbytes) } x (· + 1)
  rw [ItemStats.link, eq]
  refine ⟨?_, ?_, ?_, ?_, ?_, fun hist' on b hb => ?_⟩ <;> dsimp only
  · rw [h.currItems, List.length_cons, UInt64.ofNat_add]
    rfl
  · rw [h.currBytes, List.map_cons, List.sum_cons, UInt64.ofNat_add, UInt64.add_comm]
  · rw [h.hashItems, List.length_cons, UInt32.ofNat_add]
    rfl
  · rw [h.sizes, List.length_cons, UInt32.ofNat_add]
    rfl
  · rw [h.sizesBytes, List.map_cons, List.sum_cons, UInt64.ofNat_add, UInt64.add_comm]
  · obtain ⟨old, was, value⟩ := hist hist' on
    rw [value b hb, h.hist old was b hb, List.countP_cons]
    split_ifs
    · rw [UInt32.ofNat_add]
      rfl
    · rfl

theorem Tallies.unlink (h : Tallies st (x :: l)) : Tallies (st.unlink x) l := by
  obtain ⟨counts, eq, hist⟩ := sized_eq { st with
    currBytes := st.currBytes - UInt64.ofNat x.ntotal
    currItems := st.currItems - 1 } x (· - 1)
  rw [ItemStats.unlink, eq]
  refine ⟨?_, ?_, ?_, ?_, ?_, fun hist' on b hb => ?_⟩ <;> dsimp only
  · rw [h.currItems, List.length_cons, UInt64.ofNat_add]
    exact UInt64.add_sub_cancel _ _
  · rw [h.currBytes, List.map_cons, List.sum_cons, UInt64.ofNat_add, UInt64.add_comm]
    exact UInt64.add_sub_cancel _ _
  · rw [h.hashItems, List.length_cons, UInt32.ofNat_add]
    exact UInt32.add_sub_cancel _ _
  · rw [h.sizes, List.length_cons, UInt32.ofNat_add]
    exact UInt32.add_sub_cancel _ _
  · rw [h.sizesBytes, List.map_cons, List.sum_cons, UInt64.ofNat_add, UInt64.add_comm]
    exact UInt64.add_sub_cancel _ _
  · obtain ⟨old, was, value⟩ := hist hist' on
    rw [value b hb, h.hist old was b hb, List.countP_cons]
    split_ifs
    · rw [UInt32.ofNat_add]
      exact UInt32.add_sub_cancel _ _
    · rfl

end Counting

/-! ## The counters of a store -/

def Tally (s : Store) : Prop := Tallies s.stats (s.table.map s.measure)

theorem Tally.congr {s s' : Store} (h : Tally s) (stats : s'.stats = s.stats)
    (table : s'.table = s.table) (same : ∀ id ∈ s.table, s'.measure id = s.measure id) :
    Tally s' := by
  rw [Tally, stats, table, List.map_congr_left same]
  exact h

section Stores

variable {s : Store} {id : ℕ}

theorem measure_updateMeta {f : ItemMeta → ItemMeta} (kept : ∀ it, (f it).item = it.item) (k : ℕ) :
    (s.updateMeta id f).measure k = s.measure k := by
  simp only [Store.measure, Store.itemOf, Store.updateMeta, Function.update_apply]
  split_ifs with eq
  · rw [kept, eq]
  · rfl

theorem measure_refcountIncr (k : ℕ) : (s.refcountIncr id).measure k = s.measure k := by
  apply measure_updateMeta
  exact fun _ => rfl

theorem itemStatsSizesAdd_stats (s : Store) (id : ℕ) :
    (s.itemStatsSizesAdd id).stats = s.stats.sized (s.measure id) (· + 1) := rfl

theorem stats_linked (s t : Store) (id : ℕ)
    (eq : ((s.statsLink id).setNewCas id).assocInsert id = t) :
    (Store.itemStatsSizesAdd (Store.refcountIncr { t with stats := { t.stats with
        sizes := t.stats.sizes + 1
        sizesBytes := t.stats.sizesBytes + t.sizeBytes id } } id) id).stats =
      s.stats.link (measureOf (s.setNewCas id).log.mem (s.itemOf id)) := by
  -- the bytes are counted before the CAS id is written, which does not change the length
  have ntotal : itemNtotal (s.setNewCas id).log.mem (s.itemOf id) =
      itemNtotal s.log.mem (s.itemOf id) :=
    itemNtotal_congr fun x low high => itemSetCas_outside (by omega)
  have size : UInt64.ofNat (itemNtotal s.log.mem (s.itemOf id)) =
      UInt64.ofNat (measureOf (s.setNewCas id).log.mem (s.itemOf id)).ntotal := by
    rw [← ntotal]
    rfl
  rw [itemStatsSizesAdd_stats, measure_refcountIncr, ← eq, ItemStats.link, ← size]
  rfl

theorem stats_unlinked (s t : Store) (id : ℕ) (table : List ℕ)
    (eq : (s.statsUnlink id).itemStatsSizesRemove id = t) :
    (Store.doItemUnlinkQ { t with
        table := table
        stats := { t.stats with hashItems := t.stats.hashItems - 1 } } id).stats =
      s.stats.unlink (s.measure id) := by
  subst eq
  rfl

end Stores

end LogMemcached

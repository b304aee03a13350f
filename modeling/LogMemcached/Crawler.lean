import LogMemcached.Lib.Run

/-!
# The LRU crawler

`lru_crawler_start` enables crawlers and counts them in `crawler_count`; `item_crawler_thread` goes
over the enabled ones, with `lru_crawler_lock` held, until the count is zero.  The count is right as
long as no start enables a crawler that is still enabled.
-/

namespace LogMemcached

open Transition

/-- `LARGEST_ID`. -/
def largestId : ℕ := 256

/-- `MAX_NUMBER_OF_SLAB_CLASSES`. -/
def maxNumberOfSlabClasses : ℕ := 64

/-- Where `item_crawler_thread` is: in `pthread_cond_wait`, which releases the lock, or at class
`i` of the loop over the crawlers, with the lock held. -/
inductive CrawlerThread
  | waiting
  | crawling (i : ℕ)
deriving DecidableEq, Repr

/-- The crawlers: `enabled` are the indices with `it_flags == 1`. -/
structure Crawlers where
  crawlerCount : ℤ
  enabled : Finset ℕ
  thread : CrawlerThread
deriving DecidableEq

/-- The calls of the workers and the steps of the thread.  `configured` says that
`lru_crawler_start` finds the client it needs, `full` that the client of the crawl has no room. -/
inductive CrawlerStep
  | start (ids : ℕ → Bool) (configured : Bool)
  | wake
  | visit (full : Bool)

/-- `tocrawl`: the three crawlers of a class. -/
def tocrawl (id : ℕ) : List ℕ := [id ||| 0, id ||| 64, id ||| 128]

/-- `do_item_crawl_q`, which finds no item. -/
def doItemCrawlQ (_i : ℕ) : Option ℕ := none

namespace Crawlers

def init : Crawlers := ⟨0, ∅, .waiting⟩

def enable (s : Crawlers) (sid : ℕ) : Crawlers :=
  { s with crawlerCount := s.crawlerCount + 1, enabled := insert sid s.enabled }

/-- `do_lru_crawler_start`. -/
def doLruCrawlerStart (s : Crawlers) (id : ℕ) : Crawlers := (tocrawl id).foldl enable s

/-- The classes that a call of `lru_crawler_start` names, from `POWER_SMALLEST` on. -/
def classes (ids : ℕ → Bool) : List ℕ :=
  ((List.range maxNumberOfSlabClasses).drop 1).filter ids

/-- `lru_crawler_start`; the lock cannot be taken while the thread crawls. -/
def lruCrawlerStart (s : Crawlers) (ids : ℕ → Bool) (configured : Bool) : Crawlers :=
  if s.thread = .waiting ∧ configured then (classes ids).foldl doLruCrawlerStart s else s

/-- `lru_crawler_class_done`. -/
def lruCrawlerClassDone (s : Crawlers) (i : ℕ) : Crawlers :=
  { s with crawlerCount := s.crawlerCount - 1, enabled := s.enabled.erase i }

/-- The test of the loop `while (crawler_count)`. -/
def enter (s : Crawlers) : Crawlers :=
  { s with thread := if s.crawlerCount = 0 then .waiting else .crawling 1 }

/-- The class `i` of the loop over the crawlers. -/
def crawl (s : Crawlers) (i : ℕ) (full : Bool) : Crawlers :=
  if i ∈ s.enabled then
    if full then s.lruCrawlerClassDone i
    else
      match doItemCrawlQ i with
      | none => s.lruCrawlerClassDone i
      | some _ => s
  else s

/-- One class of the loop, and the loop's test behind the last one. -/
def visit (s : Crawlers) (i : ℕ) (full : Bool) : Crawlers :=
  let s := s.crawl i full
  if i + 1 < largestId then { s with thread := .crawling (i + 1) } else s.enter

def next (s : Crawlers) : CrawlerStep → Option Crawlers
  | .start ids configured => some (s.lruCrawlerStart ids configured)
  | .wake => if s.thread = .waiting then some s.enter else none
  | .visit full =>
      match s.thread with
      | .waiting => none
      | .crawling i => some (s.visit i full)

/-- A start that is carried out names no class with a crawler that is enabled. -/
def Rested (s : Crawlers) : CrawlerStep → Prop
  | .start ids configured => s.thread = .waiting ∧ configured →
      ∀ id ∈ classes ids, ∀ sid ∈ tocrawl id, sid ∉ s.enabled
  | _ => True

/-! ## The count -/

/-- The count is the number of enabled crawlers, and the thread has yet to visit each of them. -/
structure Counted (s : Crawlers) : Prop where
  count : s.crawlerCount = s.enabled.card
  range : ∀ sid ∈ s.enabled, 1 ≤ sid ∧ sid < largestId
  ahead : ∀ i, s.thread = .crawling i → i < largestId ∧ ∀ sid ∈ s.enabled, i ≤ sid

theorem Counted.init : Counted init where
  count := rfl
  range sid mem := absurd mem (Finset.notMem_empty sid)
  ahead i crawling := by cases crawling

variable {s s' : Crawlers}

theorem Counted.enable {sids : List ℕ} (h : Counted s) (waiting : s.thread = .waiting)
    (nodup : sids.Nodup) (range : ∀ sid ∈ sids, 1 ≤ sid ∧ sid < largestId)
    (absent : ∀ sid ∈ sids, sid ∉ s.enabled) : Counted (sids.foldl Crawlers.enable s) := by
  induction sids generalizing s with
  | nil => exact h
  | cons sid sids ih =>
    obtain ⟨fresh, nodup⟩ := List.nodup_cons.1 nodup
    have off : sid ∉ s.enabled := absent sid List.mem_cons_self
    refine ih ⟨?_, ?_, ?_⟩ waiting nodup (fun sid mem => range sid (List.mem_cons_of_mem _ mem)) ?_
    · simp only [Crawlers.enable, Finset.card_insert_of_notMem off, h.count]
      push_cast
      rfl
    · intro sid' mem
      rcases Finset.mem_insert.1 mem with rfl | mem
      · exact range _ List.mem_cons_self
      · exact h.range sid' mem
    · intro i crawling
      rw [show (s.enable sid).thread = s.thread from rfl, waiting] at crawling
      cases crawling
    · intro sid' mem on
      rcases Finset.mem_insert.1 on with rfl | on
      · exact fresh mem
      · exact absent sid' (List.mem_cons_of_mem _ mem) on

theorem foldl_doLruCrawlerStart (ids : List ℕ) :
    ids.foldl doLruCrawlerStart s = (ids.flatMap tocrawl).foldl Crawlers.enable s := by
  rw [List.foldl_flatMap]
  rfl

def allCrawlers : List ℕ := ((List.range maxNumberOfSlabClasses).drop 1).flatMap tocrawl

theorem sublist_allCrawlers (ids : ℕ → Bool) :
    ((classes ids).flatMap tocrawl).Sublist allCrawlers :=
  List.filter_sublist.flatMap _

theorem nodup_allCrawlers : allCrawlers.Nodup := by
  decide +kernel

theorem range_allCrawlers : ∀ sid ∈ allCrawlers, 1 ≤ sid ∧ sid < largestId := by
  decide +kernel

theorem Counted.lruCrawlerStart (h : Counted s) {ids : ℕ → Bool} {configured : Bool}
    (rested : s.Rested (.start ids configured)) : Counted (s.lruCrawlerStart ids configured) := by
  rw [Crawlers.lruCrawlerStart]
  split_ifs with free
  · have part := sublist_allCrawlers ids
    rw [foldl_doLruCrawlerStart]
    refine h.enable free.1 (part.nodup nodup_allCrawlers)
      (fun sid mem => range_allCrawlers sid (part.mem mem)) fun sid mem => ?_
    obtain ⟨id, named, crawler⟩ := List.mem_flatMap.1 mem
    exact rested free id named sid crawler
  · exact h

theorem Counted.enter (count : s.crawlerCount = s.enabled.card)
    (range : ∀ sid ∈ s.enabled, 1 ≤ sid ∧ sid < largestId) : Counted s.enter where
  count := count
  range := range
  ahead i crawling := by
    simp only [Crawlers.enter] at crawling
    split_ifs at crawling
    obtain rfl := CrawlerThread.crawling.inj crawling
    exact ⟨by decide, fun sid mem => (range sid mem).1⟩

theorem crawl_eq (i : ℕ) (full : Bool) :
    s.crawl i full = if i ∈ s.enabled then s.lruCrawlerClassDone i else s := by
  rw [crawl]
  split_ifs <;> rfl

theorem enabled_crawl (i : ℕ) (full : Bool) : (s.crawl i full).enabled = s.enabled.erase i := by
  rw [crawl_eq]
  split_ifs with on
  · rfl
  · exact (Finset.erase_eq_of_notMem on).symm

theorem Counted.crawl_count (h : Counted s) (i : ℕ) (full : Bool) :
    (s.crawl i full).crawlerCount = (s.crawl i full).enabled.card := by
  rw [crawl_eq]
  split_ifs with on
  · have card := Finset.card_erase_add_one on
    simp only [lruCrawlerClassDone, h.count]
    omega
  · exact h.count

theorem Counted.visit (h : Counted s) {i : ℕ} (crawling : s.thread = .crawling i) (full : Bool) :
    Counted (s.visit i full) := by
  have count := h.crawl_count i full
  have range : ∀ sid ∈ (s.crawl i full).enabled, 1 ≤ sid ∧ sid < largestId := by
    rw [enabled_crawl]
    exact fun sid mem => h.range sid (Finset.mem_of_mem_erase mem)
  rw [Crawlers.visit]
  split_ifs with more
  · refine ⟨count, range, fun j at_next => ?_⟩
    obtain rfl := CrawlerThread.crawling.inj at_next
    refine ⟨more, fun sid mem => ?_⟩
    replace mem : sid ∈ (s.crawl i full).enabled := mem
    rw [enabled_crawl, Finset.mem_erase] at mem
    have := (h.ahead i crawling).2 sid mem.2
    omega
  · exact .enter count range

theorem Counted.step (h : Counted s) {a : CrawlerStep} (rested : s.Rested a)
    (run : s.next a = some s') : Counted s' := by
  cases a with
  | start ids configured =>
    obtain rfl := Option.some.inj run
    exact h.lruCrawlerStart rested
  | wake =>
    simp only [next] at run
    split_ifs at run
    obtain rfl := Option.some.inj run
    exact .enter h.count h.range
  | visit full =>
    simp only [next] at run
    split at run
    · cases run
    · rename_i i crawling
      obtain rfl := Option.some.inj run
      exact h.visit crawling full

theorem Counted.pass (h : Counted s) {i : ℕ} (crawling : s.thread = .crawling i)
    {fulls : List Bool} (long : i + fulls.length = largestId) :
    ∃ s', Run (fun s a s' => s.next a = some s') s (fulls.map .visit) s' ∧
      s'.thread = .waiting ∧ s'.enabled = ∅ := by
  induction fulls generalizing s i with
  | nil =>
    have := (h.ahead i crawling).1
    simp only [List.length_nil] at long
    omega
  | cons full fulls ih =>
    have step : s.next (.visit full) = some (s.visit i full) := by
      simp only [next, crawling]
    rw [List.length_cons] at long
    by_cases last : i + 1 < largestId
    · have at_next : (s.visit i full).thread = .crawling (i + 1) := by
        rw [Crawlers.visit, if_pos last]
      obtain ⟨s', rest, ended⟩ := ih (h.visit crawling full) at_next (by omega)
      exact ⟨s', .cons step rest, ended⟩
    · obtain rfl : fulls = [] := List.length_eq_zero_iff.1 (by omega)
      have empty : (s.crawl i full).enabled = ∅ := by
        rw [enabled_crawl, Finset.eq_empty_iff_forall_notMem]
        intro sid mem
        obtain ⟨other, mem⟩ := Finset.mem_erase.1 mem
        have := (h.ahead i crawling).2 sid mem
        have := (h.range sid mem).2
        omega
      have zero : (s.crawl i full).crawlerCount = 0 := by
        rw [h.crawl_count, empty]
        rfl
      refine ⟨_, .one step, ?_, ?_⟩
      · rw [Crawlers.visit, if_neg last, Crawlers.enter, if_pos zero]
      · rw [Crawlers.visit, if_neg last]
        exact empty

/-- In every run whose starts name no class with an enabled crawler the count is the number of
enabled crawlers, and a crawling thread is back to waiting, with nothing enabled, once it has
visited the remaining classes. -/
theorem crawler_count_exact {as : List CrawlerStep}
    (run : Run (fun s a s' => s.Rested a ∧ s.next a = some s') init as s) :
    s.crawlerCount = s.enabled.card ∧
      ∀ i, s.thread = .crawling i → ∀ fulls : List Bool, i + fulls.length = largestId →
        ∃ s', Run (fun s a s' => s.next a = some s') s (fulls.map .visit) s' ∧
          s'.thread = .waiting ∧ s'.enabled = ∅ := by
  have h : Counted s := run.invariant Counted (fun _ _ _ h step => h.step step.1 step.2) .init
  exact ⟨h.count, fun i crawling fulls long => h.pass crawling long⟩

/-- The class 1 is started, and class 2 before the thread wakes. -/
theorem crawler_count_exact_two : ∃ s,
    Run (fun s a s' => s.Rested a ∧ s.next a = some s') init
      [.start (· == 1) true, .start (· == 2) true, .wake] s ∧
    s.crawlerCount = s.enabled.card ∧ s.enabled.card = 6 ∧ s.thread = .crawling 1 := by
  have run : Run (fun s a s' => s.Rested a ∧ s.next a = some s') init
      [.start (· == 1) true, .start (· == 2) true, .wake] _ :=
    .cons ⟨by simp [Rested, init], rfl⟩
      (.cons ⟨by unfold Rested; decide +kernel, rfl⟩ (.cons ⟨trivial, rfl⟩ (.nil _)))
  exact ⟨_, run, (crawler_count_exact run).1, by decide +kernel, by decide +kernel⟩

/-! ## A class that is started twice -/

theorem crawling_forever (none : s.enabled = ∅) (positive : s.crawlerCount ≠ 0) {i : ℕ}
    (crawling : s.thread = .crawling i) {fulls : List Bool}
    (run : Run (fun s a s' => s.next a = some s') s (fulls.map .visit) s') :
    s'.enabled = ∅ ∧ s'.thread ≠ .waiting := by
  induction fulls generalizing s i with
  | nil =>
    cases run
    exact ⟨none, by rw [crawling]; exact fun h => by cases h⟩
  | cons full fulls ih =>
    cases run with
    | cons step rest =>
      simp only [next, crawling] at step
      obtain rfl := Option.some.inj step
      have idle : s.crawl i full = s := by
        rw [crawl_eq, none, if_neg (Finset.notMem_empty i)]
      rw [Crawlers.visit, idle] at rest
      split_ifs at rest with more
      · exact ih (s := { s with thread := .crawling (i + 1) }) none positive rfl rest
      · exact ih (s := s.enter) none positive (if_neg positive) rest

/-- The class 1 is started twice before the thread wakes: the count is 6 with three enabled
crawlers, and after the thread has visited all classes it goes on for ever, with the lock held and
nothing left to crawl. -/
theorem crawler_spins : ∃ s s',
    Run (fun s a s' => s.next a = some s') init
      [.start (· == 1) true, .start (· == 1) true, .wake] s ∧
    s.crawlerCount = 6 ∧ s.enabled.card = 3 ∧
    Run (fun s a s' => s.next a = some s') s (List.replicate 255 (.visit false)) s' ∧
    s'.enabled = ∅ ∧ s'.crawlerCount = 3 ∧
    ∀ fulls : List Bool, ∀ s'', Run (fun s a s' => s.next a = some s') s' (fulls.map .visit) s'' →
      s''.enabled = ∅ ∧ s''.thread ≠ .waiting := by
  have twice : [.start (· == 1) true, .start (· == 1) true, .wake].foldlM next init =
      some ⟨6, {129, 65, 1}, .crawling 1⟩ := rfl
  have pass : ((List.replicate 255 (.visit false)).foldlM next
      ⟨6, {129, 65, 1}, .crawling 1⟩).map (fun s => decide (s.enabled.card = 0) &&
        decide (s.crawlerCount = 3) && decide (s.thread = .crawling 1)) = some true := by
    decide +kernel
  obtain ⟨s', run, reached⟩ := Option.map_eq_some_iff.1 pass
  simp only [Bool.and_eq_true, decide_eq_true_eq] at reached
  obtain ⟨⟨card, count⟩, crawling⟩ := reached
  have none := Finset.card_eq_zero.1 card
  exact ⟨_, s', .of_foldlM twice, rfl, rfl, .of_foldlM run, none, count,
    fun fulls s'' run => crawling_forever none (by omega) crawling run⟩

end Crawlers

end LogMemcached

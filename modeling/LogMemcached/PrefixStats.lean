import LogMemcached.Lib.Run

/-!
# Prefix statistics

`stats.c` counts the commands by the part of their key before a delimiter, in 256 hash chains.  An
entry is found by a comparison that is cut off at the length of the prefix looked for, so an entry
for a longer prefix of the same chain is taken for it.  Apart from that, and from NUL characters,
the counts are exact.
-/

namespace LogMemcached

open Transition

/-! ## The table -/

/-- `PREFIX_STATS`. -/
structure PrefixStats where
  prefixText : List UInt8
  prefixLen : ℕ
  numGets : UInt64
  numSets : UInt64
  numDeletes : UInt64
  numHits : UInt64
deriving DecidableEq, Repr

/-- The static variables of `stats.c`. -/
structure PrefixTable where
  prefixStats : ℕ → List PrefixStats
  numPrefixes : ℕ
  totalPrefixSize : ℕ

/-- `PREFIX_HASH_SIZE`. -/
def prefixHashSize : ℕ := 256

def hashval (hash : List UInt8 → UInt32) (p : List UInt8) : ℕ := (hash p).toNat % prefixHashSize

inductive PrefixOp
  | get (key : List UInt8) (isHit : Bool)
  | set (key : List UInt8)
  | delete (key : List UInt8)
deriving DecidableEq, Repr

def PrefixOp.key : PrefixOp → List UInt8
  | .get key _ => key
  | .set key => key
  | .delete key => key

def PrefixOp.bump (pfs : PrefixStats) : PrefixOp → PrefixStats
  | .get _ isHit =>
      { pfs with
        numGets := pfs.numGets + 1
        numHits := if isHit then pfs.numHits + 1 else pfs.numHits }
  | .set _ => { pfs with numSets := pfs.numSets + 1 }
  | .delete _ => { pfs with numDeletes := pfs.numDeletes + 1 }

/-- `strncmp(a, b, n) == 0`, where `a` and `b` end in a NUL. -/
def strncmpEq : ℕ → List UInt8 → List UInt8 → Bool
  | 0, _, _ => true
  | n + 1, a, b =>
      a.headD 0 == b.headD 0 && (a.headD 0 == 0 || strncmpEq n a.tail b.tail)

/-- The loop of `stats_prefix_find` over the key: the length of the prefix, or `none` to bail
out. -/
def prefixLength (delimiter : UInt8) : List UInt8 → Option ℕ
  | [] => none
  | c :: key =>
      if c = 0 then none
      else if c = delimiter then some 0
      else (prefixLength delimiter key).map (· + 1)

/-- The entry that `calloc` and `strncpy` make. -/
def newPrefix (text : List UInt8) : PrefixStats := ⟨text, text.length, 0, 0, 0, 0⟩

namespace PrefixTable

/-- `stats_prefix_clear`. -/
def statsPrefixClear (_t : PrefixTable) : PrefixTable := ⟨fun _ => [], 0, 0⟩

section Table

variable (hash : List UInt8 → UInt32) (delimiter : UInt8)

/-- `stats_prefix_find`, with memory available: the table and the entry, as its chain and its
place there. -/
def statsPrefixFind (t : PrefixTable) (key : List UInt8) : Option (PrefixTable × ℕ × ℕ) :=
  match prefixLength delimiter key with
  | none => none
  | some length =>
      let h := hashval hash (key.take length)
      match (t.prefixStats h).findIdx? fun pfs => strncmpEq length pfs.prefixText key with
      | some i => some (t, h, i)
      | none =>
          some
            ({ prefixStats := Function.update t.prefixStats h
                (newPrefix (key.take length) :: t.prefixStats h)
               numPrefixes := t.numPrefixes + 1
               totalPrefixSize := t.totalPrefixSize + length }, h, 0)

/-- `stats_prefix_record_get`, `stats_prefix_record_set` and `stats_prefix_record_delete`. -/
def record (t : PrefixTable) (op : PrefixOp) : PrefixTable :=
  match t.statsPrefixFind hash delimiter op.key with
  | none => t
  | some (t, h, i) =>
      { t with
        prefixStats := Function.update t.prefixStats h ((t.prefixStats h).modify i op.bump) }

end Table

def entries (t : PrefixTable) : List PrefixStats :=
  (List.range prefixHashSize).flatMap t.prefixStats

end PrefixTable

/-! ## What the entries should be -/

section Spec

variable (delimiter : UInt8)

def keyPrefix (key : List UInt8) : Option (List UInt8) :=
  if delimiter ∈ key then some (key.takeWhile (· ≠ delimiter)) else none

/-- A call for a key of the prefix `p`. -/
def PrefixOp.concerns (p : List UInt8) (op : PrefixOp) : Bool := keyPrefix delimiter op.key = some p

def PrefixOp.isGet : PrefixOp → Bool
  | .get _ _ => true
  | _ => false

def PrefixOp.isHit : PrefixOp → Bool
  | .get _ isHit => isHit
  | _ => false

def PrefixOp.isSet : PrefixOp → Bool
  | .set _ => true
  | _ => false

def PrefixOp.isDelete : PrefixOp → Bool
  | .delete _ => true
  | _ => false

/-- The number of calls of a kind for the prefix `p`. -/
def countOps (p : List UInt8) (kind : PrefixOp → Bool) (ops : List PrefixOp) : UInt64 :=
  .ofNat (ops.countP fun op => op.concerns delimiter p && kind op)

/-- The entry of the prefix `p` after the calls `ops`. -/
def prefixTally (p : List UInt8) (ops : List PrefixOp) : PrefixStats :=
  ⟨p, p.length, countOps delimiter p PrefixOp.isGet ops, countOps delimiter p PrefixOp.isSet ops,
    countOps delimiter p PrefixOp.isDelete ops, countOps delimiter p PrefixOp.isHit ops⟩

end Spec

/-! ## Finding an entry -/

/-- A key of the prefix `p` up to its delimiter is free of NUL characters. -/
def Clean (delimiter : UInt8) (key : List UInt8) : Prop :=
  ∀ p, keyPrefix delimiter key = some p → delimiter ≠ 0 ∧ 0 ∉ p

section Find

variable {delimiter : UInt8} {key p : List UInt8}

theorem prefixLength_eq_none (absent : keyPrefix delimiter key = none) :
    prefixLength delimiter key = none := by
  have free : delimiter ∉ key := by
    rw [keyPrefix] at absent
    split_ifs at absent with mem
    exact mem
  clear absent
  induction key with
  | nil => rfl
  | cons c key ih =>
    rw [List.mem_cons, not_or] at free
    rw [prefixLength, if_neg (Ne.symm free.1), ih free.2]
    exact ite_self _

theorem prefixLength_eq_some (has : keyPrefix delimiter key = some p) (clean : Clean delimiter key) :
    prefixLength delimiter key = some p.length ∧ key.take p.length = p := by
  obtain ⟨visible, noNul⟩ := clean p has
  have mem : delimiter ∈ key ∧ key.takeWhile (· ≠ delimiter) = p := by
    rw [keyPrefix] at has
    split_ifs at has with mem
    exact ⟨mem, Option.some.inj has⟩
  clear has clean
  induction key generalizing p with
  | nil => exact absurd mem.1 List.not_mem_nil
  | cons c key ih =>
    obtain ⟨mem, rfl⟩ := mem
    rw [prefixLength]
    by_cases found : c = delimiter
    · subst found
      simp [visible]
    · rw [List.takeWhile_cons_of_pos (by simpa using found), List.mem_cons, not_or] at noNul
      obtain ⟨length, take⟩ := ih noNul.2 ⟨(List.mem_cons.1 mem).resolve_left (Ne.symm found), rfl⟩
      rw [List.takeWhile_cons_of_pos (by simpa using found), if_neg (Ne.symm noNul.1), if_neg found,
        length, List.length_cons, List.take_succ_cons, take]
      exact ⟨rfl, rfl⟩

theorem strncmpEq_iff (noNul : 0 ∉ p) (a : List UInt8) (rest : List UInt8) :
    strncmpEq p.length a (p ++ rest) = true ↔ p <+: a := by
  induction p generalizing a with
  | nil => simp [strncmpEq]
  | cons c p ih =>
    rw [List.mem_cons, not_or] at noNul
    cases a with
    | nil => simp [strncmpEq, noNul.1]
    | cons x a =>
      simp only [strncmpEq, List.length_cons, List.cons_append, List.headD_cons, List.tail_cons,
        Bool.and_eq_true, beq_iff_eq, Bool.or_eq_true, ih noNul.2, List.cons_prefix_cons]
      constructor
      · rintro ⟨rfl, zero | rest⟩
        · exact absurd zero.symm noNul.1
        · exact ⟨rfl, rest⟩
      · rintro ⟨rfl, rest⟩
        exact ⟨rfl, .inr rest⟩

theorem modify_of_findIdx {q : PrefixStats → Bool} {chain : List PrefixStats} {i : ℕ}
    (found : chain.findIdx? q = some i) (f : PrefixStats → PrefixStats) :
    ∃ l₁ e l₂, chain = l₁ ++ e :: l₂ ∧ q e = true ∧ chain.modify i f = l₁ ++ f e :: l₂ := by
  induction chain generalizing i with
  | nil => simp at found
  | cons e chain ih =>
    rw [List.findIdx?_cons] at found
    split_ifs at found with head
    · obtain rfl := Option.some.inj found
      exact ⟨[], e, chain, rfl, head, rfl⟩
    · obtain ⟨j, later, rfl⟩ := Option.map_eq_some_iff.1 found
      obtain ⟨l₁, e', l₂, split, fits, modified⟩ := ih later
      refine ⟨e :: l₁, e', l₂, by rw [split]; rfl, fits, ?_⟩
      rw [List.modify_succ_cons, modified]
      rfl

end Find

/-! ## Exact counts -/

namespace PrefixTable

variable {hash : List UInt8 → UInt32} {delimiter : UInt8} {t t' : PrefixTable} {op : PrefixOp}
  {ops : List PrefixOp} {p : List UInt8}

variable (hash delimiter) in
/-- The key has no NUL character up to its delimiter, and no entry in the chain of its prefix is for
a longer prefix that begins with it. -/
def Distinct (t : PrefixTable) (op : PrefixOp) : Prop :=
  Clean delimiter op.key ∧ ∀ p, keyPrefix delimiter op.key = some p →
    ∀ e ∈ t.prefixStats (hashval hash p), p <+: e.prefixText → e.prefixText = p

theorem record_of_none (none : keyPrefix delimiter op.key = none) : t.record hash delimiter op = t := by
  rw [record, statsPrefixFind, prefixLength_eq_none none]

/-- A call for the prefix `p` counts in the entry of `p`, or in a new one. -/
theorem record_of_some (has : keyPrefix delimiter op.key = some p)
    (distinct : t.Distinct hash delimiter op) :
    ∃ chain, (t.record hash delimiter op).prefixStats =
        Function.update t.prefixStats (hashval hash p) chain ∧
      ((∃ l₁ e l₂, t.prefixStats (hashval hash p) = l₁ ++ e :: l₂ ∧ e.prefixText = p ∧
          chain = l₁ ++ op.bump e :: l₂) ∨
        (∀ e ∈ t.prefixStats (hashval hash p), e.prefixText ≠ p) ∧
          chain = op.bump (newPrefix p) :: t.prefixStats (hashval hash p)) := by
  obtain ⟨length, take⟩ := prefixLength_eq_some has distinct.1
  have split : op.key = p ++ op.key.drop p.length := by
    nth_rewrite 1 [← List.take_append_drop p.length op.key]
    rw [take]
  have matches_iff (a : List UInt8) : strncmpEq p.length a op.key = true ↔ p <+: a := by
    rw [split]
    exact strncmpEq_iff (distinct.1 p has).2 a _
  simp only [record, statsPrefixFind, length, take]
  cases found : (t.prefixStats (hashval hash p)).findIdx?
      fun pfs => strncmpEq p.length pfs.prefixText op.key with
  | some i =>
    obtain ⟨l₁, e, l₂, chain, fits, modified⟩ := modify_of_findIdx found op.bump
    refine ⟨_, rfl, .inl ⟨l₁, e, l₂, chain, ?_, modified⟩⟩
    exact distinct.2 p has e (by rw [chain]; simp) ((matches_iff _).1 fits)
  | none =>
    refine ⟨_, ?_, .inr ⟨fun e mem same => ?_, rfl⟩⟩
    · simp
    · have differs := List.findIdx?_eq_none_iff.1 found e mem
      rw [(matches_iff _).2 (same ▸ List.prefix_rfl)] at differs
      exact absurd differs Bool.true_eq_false.mp

theorem countOps_snoc (kind : PrefixOp → Bool) : countOps delimiter p kind (ops ++ [op]) =
    if op.concerns delimiter p && kind op then countOps delimiter p kind ops + 1
    else countOps delimiter p kind ops := by
  rw [countOps, countOps, List.countP_append, List.countP_singleton]
  split_ifs
  · exact UInt64.ofNat_add _ _
  · rfl

theorem prefixTally_snoc : prefixTally delimiter p (ops ++ [op]) =
    if op.concerns delimiter p then op.bump (prefixTally delimiter p ops)
    else prefixTally delimiter p ops := by
  cases concerns : op.concerns delimiter p with
  | false =>
    simp only [prefixTally, countOps_snoc, concerns, Bool.false_and]
    rfl
  | true =>
    simp only [prefixTally, countOps_snoc, concerns, Bool.true_and]
    cases op with
    | get key isHit => cases isHit <;> rfl
    | set key => rfl
    | delete key => rfl

theorem prefixTally_of_unseen (unseen : ∀ op ∈ ops, keyPrefix delimiter op.key ≠ some p) :
    prefixTally delimiter p ops = newPrefix p := by
  have none (kind : PrefixOp → Bool) : countOps delimiter p kind ops = 0 := by
    rw [countOps, List.countP_eq_zero.2]
    · rfl
    · intro op mem
      simp [PrefixOp.concerns, unseen op mem]
  simp only [prefixTally, none]
  rfl

variable (hash delimiter) in
/-- The entries are those of the prefixes of the calls `ops`, each once and with its counts. -/
structure Exact (t : PrefixTable) (ops : List PrefixOp) : Prop where
  placed : ∀ h, ∀ e ∈ t.prefixStats h, hashval hash e.prefixText = h
  nodup : ∀ h, ((t.prefixStats h).map PrefixStats.prefixText).Nodup
  tallied : ∀ h, ∀ e ∈ t.prefixStats h, e = prefixTally delimiter e.prefixText ops
  present : ∀ p, (∃ op ∈ ops, keyPrefix delimiter op.key = some p) ↔
    ∃ e ∈ t.prefixStats (hashval hash p), e.prefixText = p

theorem Exact.clear (t : PrefixTable) : Exact hash delimiter t.statsPrefixClear [] where
  placed h e mem := absurd mem List.not_mem_nil
  nodup h := List.nodup_nil
  tallied h e mem := absurd mem List.not_mem_nil
  present p := by simp [statsPrefixClear]

@[simp]
theorem prefixText_bump (e : PrefixStats) : (op.bump e).prefixText = e.prefixText := by
  cases op <;> rfl

theorem Exact.record_none (h : Exact hash delimiter t ops)
    (none : keyPrefix delimiter op.key = none) :
    Exact hash delimiter (t.record hash delimiter op) (ops ++ [op]) := by
  have same (p : List UInt8) :
      prefixTally delimiter p (ops ++ [op]) = prefixTally delimiter p ops := by
    rw [prefixTally_snoc, if_neg (by simp [PrefixOp.concerns, none])]
  rw [record_of_none none]
  refine ⟨h.placed, h.nodup, fun b e mem => (h.tallied b e mem).trans (same _).symm, fun p => ?_⟩
  rw [← h.present p]
  constructor
  · rintro ⟨op', mem, has⟩
    rcases List.mem_append.1 mem with mem | last
    · exact ⟨op', mem, has⟩
    · rw [List.mem_singleton.1 last, none] at has
      cases has
  · rintro ⟨op', mem, has⟩
    exact ⟨op', List.mem_append_left _ mem, has⟩

theorem ne_of_nodup {l₁ l₂ : List PrefixStats} {e : PrefixStats}
    (nodup : ((l₁ ++ e :: l₂).map PrefixStats.prefixText).Nodup) {e' : PrefixStats}
    (mem : e' ∈ l₁ ∨ e' ∈ l₂) : e'.prefixText ≠ e.prefixText := by
  rw [List.map_append, List.map_cons, List.nodup_middle, List.nodup_cons, ← List.map_append] at nodup
  exact fun same => nodup.1 (same ▸ List.mem_map_of_mem (List.mem_append.2 mem))

/-- The chain of `p` after a call for it: the other entries stay, and the entry of `p` counts the
call. -/
theorem Exact.record_chain (h : Exact hash delimiter t ops)
    (has : keyPrefix delimiter op.key = some p) (distinct : t.Distinct hash delimiter op) :
    ∃ chain, (t.record hash delimiter op).prefixStats =
        Function.update t.prefixStats (hashval hash p) chain ∧
      (chain.map PrefixStats.prefixText).Nodup ∧
      ∀ e, e ∈ chain ↔ e ∈ t.prefixStats (hashval hash p) ∧ e.prefixText ≠ p ∨
        e = prefixTally delimiter p (ops ++ [op]) := by
  have concerns : op.concerns delimiter p = true := by simp [PrefixOp.concerns, has]
  obtain ⟨chain, recorded, shape⟩ := record_of_some has distinct
  refine ⟨chain, recorded, ?_⟩
  have nodup := h.nodup (hashval hash p)
  rw [prefixTally_snoc, if_pos concerns]
  rcases shape with ⟨l₁, e, l₂, old, text, rfl⟩ | ⟨absent, rfl⟩
  · have mem : e ∈ t.prefixStats (hashval hash p) := by simp [old]
    have tally : e = prefixTally delimiter p ops := by
      have tallied := h.tallied _ e mem
      rwa [text] at tallied
    rw [old] at nodup ⊢
    refine ⟨by simpa using nodup, fun e' => ?_⟩
    simp only [List.mem_append, List.mem_cons]
    constructor
    · rintro (mem | rfl | mem)
      · exact .inl ⟨.inl mem, text ▸ ne_of_nodup nodup (.inl mem)⟩
      · exact .inr (by rw [← tally])
      · exact .inl ⟨.inr (.inr mem), text ▸ ne_of_nodup nodup (.inr mem)⟩
    · rintro (⟨mem | rfl | mem, other⟩ | rfl)
      · exact .inl mem
      · exact absurd text other
      · exact .inr (.inr mem)
      · exact .inr (.inl (by rw [← tally]))
  · have unseen : prefixTally delimiter p ops = newPrefix p := by
      refine prefixTally_of_unseen fun op' mem same => ?_
      obtain ⟨e, mem, text⟩ := (h.present p).1 ⟨op', mem, same⟩
      exact absent e mem text
    refine ⟨?_, fun e' => ?_⟩
    · rw [List.map_cons, List.nodup_cons]
      refine ⟨fun mem => ?_, nodup⟩
      obtain ⟨e, mem, text⟩ := List.mem_map.1 mem
      exact absent e mem (text.trans (prefixText_bump _))
    · rw [List.mem_cons, unseen]
      constructor
      · rintro (rfl | mem)
        · exact .inr rfl
        · exact .inl ⟨mem, absent e' mem⟩
      · rintro (⟨mem, -⟩ | rfl)
        · exact .inr mem
        · exact .inl rfl

theorem Exact.record_some (h : Exact hash delimiter t ops)
    (has : keyPrefix delimiter op.key = some p) (distinct : t.Distinct hash delimiter op) :
    Exact hash delimiter (t.record hash delimiter op) (ops ++ [op]) := by
  obtain ⟨chain, recorded, nodup, mem_chain⟩ := h.record_chain has distinct
  have other {q : List UInt8} (ne : q ≠ p) :
      prefixTally delimiter q (ops ++ [op]) = prefixTally delimiter q ops := by
    rw [prefixTally_snoc, if_neg (by simpa [PrefixOp.concerns, has] using Ne.symm ne)]
  -- An entry is the one of `p`, or was there before and is not the one of `p`.
  have mem_iff (b : ℕ) (e : PrefixStats) : e ∈ (t.record hash delimiter op).prefixStats b ↔
      e ∈ t.prefixStats b ∧ e.prefixText ≠ p ∨
        b = hashval hash p ∧ e = prefixTally delimiter p (ops ++ [op]) := by
    rw [recorded, Function.update_apply]
    split_ifs with here
    · rw [mem_chain, here]
      simp
    · simp only [here, false_and, or_false]
      refine ⟨fun mem => ⟨mem, fun text => here ?_⟩, And.left⟩
      rw [← h.placed b e mem, text]
  refine ⟨?_, ?_, ?_, ?_⟩
  · intro b e mem
    rcases (mem_iff b e).1 mem with ⟨mem, -⟩ | ⟨rfl, rfl⟩
    · exact h.placed b e mem
    · rfl
  · intro b
    rw [recorded, Function.update_apply]
    split_ifs
    · exact nodup
    · exact h.nodup b
  · intro b e mem
    rcases (mem_iff b e).1 mem with ⟨mem, ne⟩ | ⟨-, rfl⟩
    · exact (h.tallied b e mem).trans (other ne).symm
    · rfl
  · intro q
    by_cases same : q = p
    · subst same
      refine iff_of_true ⟨op, by simp, has⟩ ⟨prefixTally delimiter q (ops ++ [op]), ?_, rfl⟩
      exact (mem_iff _ _).2 (.inr ⟨rfl, rfl⟩)
    · have earlier : (∃ op' ∈ ops ++ [op], keyPrefix delimiter op'.key = some q) ↔
          ∃ op' ∈ ops, keyPrefix delimiter op'.key = some q := by
        simp [or_and_right, exists_or, has, Ne.symm same]
      rw [earlier, h.present q]
      constructor
      · rintro ⟨e, mem, text⟩
        exact ⟨e, (mem_iff _ e).2 (.inl ⟨mem, text ▸ same⟩), text⟩
      · rintro ⟨e, mem, text⟩
        rcases (mem_iff _ e).1 mem with ⟨mem, -⟩ | ⟨-, rfl⟩
        · exact ⟨e, mem, text⟩
        · exact absurd text.symm same

theorem Exact.step (h : Exact hash delimiter t ops) (distinct : t.Distinct hash delimiter op) :
    Exact hash delimiter (t.record hash delimiter op) (ops ++ [op]) := by
  cases has : keyPrefix delimiter op.key with
  | none => exact h.record_none has
  | some p => exact h.record_some has distinct

theorem mem_entries (h : Exact hash delimiter t ops) {e : PrefixStats} :
    e ∈ t.entries ↔ e ∈ t.prefixStats (hashval hash e.prefixText) := by
  rw [entries, List.mem_flatMap]
  constructor
  · rintro ⟨b, -, mem⟩
    rw [h.placed b e mem]
    exact mem
  · exact fun mem => ⟨_, List.mem_range.2 (Nat.mod_lt _ (by decide)), mem⟩

theorem Exact.nodup_entries (h : Exact hash delimiter t ops) :
    (t.entries.map PrefixStats.prefixText).Nodup := by
  rw [entries, List.map_flatMap, List.nodup_flatMap]
  refine ⟨fun b _ => h.nodup b, List.nodup_range.pairwise_of_forall_ne fun b _ b' _ ne => ?_⟩
  intro text mem mem'
  obtain ⟨e, here, rfl⟩ := List.mem_map.1 mem
  obtain ⟨e', there, same⟩ := List.mem_map.1 mem'
  exact ne ((h.placed b e here).symm.trans (same ▸ h.placed b' e' there))

/-- After every sequence of calls that meet the condition: no two entries have the same prefix, the
entry of a prefix has the counts of the calls for it, and the prefixes that have an entry are those
of the keys. -/
theorem prefix_stats_exact (hash : List UInt8 → UInt32) (delimiter : UInt8) (t₀ : PrefixTable)
    {ops : List PrefixOp}
    (run : Run (fun t op t' => t.Distinct hash delimiter op ∧ t' = t.record hash delimiter op)
      t₀.statsPrefixClear ops t) :
    (t.entries.map PrefixStats.prefixText).Nodup ∧
      (∀ e ∈ t.entries, e = prefixTally delimiter e.prefixText ops) ∧
      ∀ p, (∃ e ∈ t.entries, e.prefixText = p) ↔
        ∃ op ∈ ops, keyPrefix delimiter op.key = some p := by
  have h : Exact hash delimiter t ops :=
    run.history (Exact hash delimiter)
      (by
        rintro _ op _ done before ⟨distinct, rfl⟩
        exact before.step distinct)
      (.clear t₀)
  refine ⟨h.nodup_entries, fun e mem => ?_, fun p => ?_⟩
  · exact h.tallied _ e ((mem_entries h).1 mem)
  · rw [h.present p]
    constructor
    · rintro ⟨e, mem, rfl⟩
      exact ⟨e, (mem_entries h).1 mem, rfl⟩
    · rintro ⟨e, mem, rfl⟩
      exact ⟨e, (mem_entries h).2 mem, rfl⟩

/-- Two prefixes in one chain, the longer one second. -/
theorem prefix_stats_exact_two :
    ∃ t, Run (fun (t : PrefixTable) op t' => t.Distinct (fun _ => 0) 58 op ∧
        t' = t.record (fun _ => 0) 58 op) (statsPrefixClear ⟨fun _ => [], 0, 0⟩)
      [.get [97, 58, 120] true, .set [97, 98, 58, 121], .get [122] false] t ∧
    ∀ e ∈ t.entries, e.prefixText = [97] → e = ⟨[97], 1, 1, 0, 0, 1⟩ := by
  have run : Run (fun (t : PrefixTable) op t' => t.Distinct (fun _ => 0) 58 op ∧
      t' = t.record (fun _ => 0) 58 op) (statsPrefixClear ⟨fun _ => [], 0, 0⟩)
      [.get [97, 58, 120] true, .set [97, 98, 58, 121], .get [122] false] _ :=
    .cons ⟨⟨by simp [Clean, keyPrefix, PrefixOp.key], by simp [statsPrefixClear]⟩, rfl⟩
      (.cons ⟨⟨by simp [Clean, keyPrefix, PrefixOp.key],
          by simp [keyPrefix, PrefixOp.key, statsPrefixClear, record, statsPrefixFind, prefixLength,
            hashval, newPrefix, PrefixOp.bump]⟩, rfl⟩
        (.cons ⟨⟨by simp [Clean, keyPrefix, PrefixOp.key], by simp [keyPrefix, PrefixOp.key]⟩, rfl⟩
          (.nil _)))
  obtain ⟨-, tallied, -⟩ := prefix_stats_exact (fun _ => 0) 58 _ run
  refine ⟨_, run, fun e mem text => ?_⟩
  rw [tallied e mem, text]
  decide +kernel

/-- With all prefixes in one chain, a key of the prefix `a` is counted in the entry of `ab`, and `a`
has no entry. -/
theorem prefix_counted_for_longer :
    ([.set [97, 98, 58, 120], .set [97, 58, 121]].foldl (record (fun _ => 0) 58)
      (statsPrefixClear ⟨fun _ => [], 0, 0⟩)).entries = [⟨[97, 98], 2, 0, 2, 0, 0⟩] := by
  decide +kernel

end PrefixTable

end LogMemcached

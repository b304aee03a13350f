import LogMemcached.Lib.Chains
import LogMemcached.Lib.Run

/-!
# The hash table

`assoc.c`: chains of items in a primary table, and during an expansion also in the old one, from
which `assoc_maintenance_thread` moves one bucket at a time.  Every operation first decides in which
of the two tables a key lives.  Over a whole run the table refines a finite map.
-/

namespace LogMemcached

open Transition

/-- A position of one of the two tables.  An index is an integer, since the migration computes it as
an `int`; a negative one lies in front of the table. -/
inductive Slot
  | old (i : ℤ)
  | primary (i : ℤ)
deriving DecidableEq

/-- The static variables of `assoc.c`; a chain is the list of its items.  `started_expanding` only
wakes the maintenance thread and is left out. -/
structure HashTable (Item : Type) where
  hashpower : ℕ
  primary : ℤ → List Item
  old : ℤ → List Item
  expanding : Bool
  expandBucket : ℕ
  hashItems : UInt32

/-- The calls of `assoc.c` and the steps of its thread. -/
inductive AssocOp (Item Key : Type)
  | insert (it : Item)
  | delete (k : Key)
  | expand (calloc : Bool)
  | migrate

/-- `hv & hashmask(n)`. -/
def maskedHash (hv : UInt32) (n : ℕ) : ℕ := hv.toNat % 2 ^ n

/-- The value of an `int` that is assigned an `unsigned int`. -/
def wordToInt (n : ℕ) : ℤ := if n < 2 ^ 31 then n else n - 2 ^ 32

namespace HashTable

variable {Item Key : Type}

/-- `assoc_init`. -/
def assocInit (power : ℕ) : HashTable Item :=
  ⟨power, fun _ => [], fun _ => [], false, 0, 0⟩

def home (t : HashTable Item) (hv : UInt32) : Slot :=
  if t.expanding ∧ t.expandBucket ≤ maskedHash hv (t.hashpower - 1) then
    .old (maskedHash hv (t.hashpower - 1))
  else .primary (maskedHash hv t.hashpower)

def chain (t : HashTable Item) : Slot → List Item
  | .old i => t.old i
  | .primary i => t.primary i

def setChain (t : HashTable Item) (slot : Slot) (items : List Item) : HashTable Item :=
  match slot with
  | .old i => { t with old := Function.update t.old i items }
  | .primary i => { t with primary := Function.update t.primary i items }

variable [DecidableEq Key] (key : Item → Key) (hash : Key → UInt32)

/-- `assoc_find`. -/
def assocFind (t : HashTable Item) (k : Key) : Option Item :=
  (t.chain (t.home (hash k))).find? fun it => key it = k

/-- `assoc_insert`. -/
def assocInsert (t : HashTable Item) (it : Item) : HashTable Item :=
  let slot := t.home (hash (key it))
  { t.setChain slot (it :: t.chain slot) with hashItems := t.hashItems + 1 }

/-- `assoc_delete`; `none` when its assertion fails. -/
def assocDelete (t : HashTable Item) (k : Key) : Option (HashTable Item) :=
  if (t.assocFind key hash k).isSome then
    let slot := t.home (hash k)
    some { t.setChain slot ((t.chain slot).eraseP fun it => key it = k) with
      hashItems := t.hashItems - 1 }
  else none

omit [DecidableEq Key] in
/-- `assoc_expand`; `calloc` says whether the new table could be allocated. -/
def assocExpand (t : HashTable Item) (calloc : Bool) : HashTable Item :=
  if calloc then
    { t with
      hashpower := t.hashpower + 1
      primary := fun _ => []
      old := t.primary
      expanding := true
      expandBucket := 0 }
  else t

omit [DecidableEq Key] in
def moveItem (power : ℕ) (primary : ℤ → List Item) (it : Item) : ℤ → List Item :=
  let bucket := wordToInt (maskedHash (hash (key it)) power)
  Function.update primary bucket (it :: primary bucket)

omit [DecidableEq Key] in
/-- One bucket of the loop of `assoc_maintenance_thread`, with the item lock taken. -/
def migrateBucket (t : HashTable Item) : HashTable Item :=
  let next := (t.expandBucket + 1) % 2 ^ 32
  { t with
    primary := (t.old t.expandBucket).foldl (moveItem key hash t.hashpower) t.primary
    old := Function.update t.old t.expandBucket []
    expandBucket := next
    expanding := decide (next ≠ 2 ^ (t.hashpower - 1)) }

/-- A call or a step of the thread, when it is allowed: a key is inserted only when it is not
present and deleted only when it is, and the thread expands only when no expansion is under way. -/
def next (t : HashTable Item) : AssocOp Item Key → Option (HashTable Item)
  | .insert it =>
      if (t.assocFind key hash (key it)).isNone then some (t.assocInsert key hash it) else none
  | .delete k => t.assocDelete key hash k
  | .expand calloc => if t.expanding then none else some (t.assocExpand calloc)
  | .migrate => if t.expanding then some (t.migrateBucket key hash) else none

end HashTable

def AssocOp.apply {Item Key : Type} [DecidableEq Key] (key : Item → Key) (f : Key → Option Item) :
    AssocOp Item Key → Key → Option Item
  | .insert it => Function.update f (key it) (some it)
  | .delete k => Function.update f k none
  | .expand _ => f
  | .migrate => f

/-! ## Refinement -/

namespace HashTable

section Chains

variable {Item : Type} {t : HashTable Item}

theorem chain_setChain (slot slot' : Slot) (items : List Item) :
    (t.setChain slot items).chain slot' = if slot' = slot then items else t.chain slot' := by
  cases slot <;> cases slot' <;> simp [setChain, chain, Function.update_apply]

theorem home_setChain (slot : Slot) (items : List Item) (hv : UInt32) :
    (t.setChain slot items).home hv = t.home hv := by
  cases slot <;> rfl

theorem setChain_rest (slot : Slot) (items : List Item) :
    (t.setChain slot items).hashpower = t.hashpower ∧
      (t.setChain slot items).expanding = t.expanding ∧
      (t.setChain slot items).expandBucket = t.expandBucket := by
  cases slot <;> exact ⟨rfl, rfl, rfl⟩

end Chains

variable {Item Key : Type} {key : Item → Key} {hash : Key → UInt32} {t t' : HashTable Item}
  {f : Key → Option Item}

variable (key hash) in
/-- The table holds the map `f`: every item lives where its key is looked for, and nowhere else. -/
structure Refines (t : HashTable Item) (f : Key → Option Item) : Prop where
  power : t.hashpower ≤ 31
  bucket : t.expanding = true → 1 ≤ t.hashpower ∧ t.expandBucket < 2 ^ (t.hashpower - 1)
  home : ∀ slot, ∀ it ∈ t.chain slot, t.home (hash (key it)) = slot
  nodup : ∀ slot, (t.chain slot).Nodup
  keyed : ∀ k it, f k = some it → key it = k
  present : ∀ it, f (key it) = some it ↔ it ∈ t.chain (t.home (hash (key it)))
  count : ∃ items : Finset Item, (∀ it, it ∈ items ↔ f (key it) = some it) ∧
    t.hashItems = UInt32.ofNat items.card

theorem Refines.init {power : ℕ} (small : power ≤ 31) :
    Refines key hash (assocInit power : HashTable Item) fun _ => none where
  power := small
  bucket := by simp [assocInit]
  home slot it mem := by cases slot <;> simp [assocInit, chain] at mem
  nodup slot := by cases slot <;> exact List.nodup_nil
  keyed := by simp
  present it := by
    cases (assocInit power : HashTable Item).home (hash (key it)) <;> simp [assocInit, chain]
  count := ⟨∅, by simp, rfl⟩

theorem home_eq_old {hv : UInt32} {i : ℤ} (at_old : t.home hv = .old i) :
    t.expandBucket ≤ maskedHash hv (t.hashpower - 1) ∧ i = maskedHash hv (t.hashpower - 1) := by
  rw [HashTable.home] at at_old
  split_ifs at at_old with busy
  exact ⟨busy.2, (Slot.old.inj at_old).symm⟩

theorem home_eq_primary {hv : UInt32} {i : ℤ} (busy : t.expanding = true)
    (at_primary : t.home hv = .primary i) :
    maskedHash hv (t.hashpower - 1) < t.expandBucket ∧ i = maskedHash hv t.hashpower := by
  rw [HashTable.home] at at_primary
  split_ifs at at_primary with later
  exact ⟨not_le.1 fun le => later ⟨busy, le⟩, (Slot.primary.inj at_primary).symm⟩

/-- `assoc_expand` with no expansion under way: the old table takes over all chains. -/
theorem Refines.expanded (h : Refines key hash t f) (idle : t.expanding = false) {calloc : Bool}
    (small : calloc = true → t.hashpower < 31) : Refines key hash (t.assocExpand calloc) f := by
  cases calloc with
  | false => exact h
  | true =>
    have homes (hv : UInt32) : (t.assocExpand true).home hv = .old (maskedHash hv t.hashpower) ∧
        t.home hv = .primary (maskedHash hv t.hashpower) := by
      simp [HashTable.home, assocExpand, idle]
    have old (i : ℤ) : (t.assocExpand true).chain (.old i) = t.chain (.primary i) := rfl
    refine ⟨Nat.succ_le_of_lt (small rfl), fun _ => ⟨Nat.le_add_left .., Nat.two_pow_pos _⟩,
      fun slot it mem => ?_, fun slot => ?_, h.keyed, fun it => ?_, h.count⟩
    · cases slot with
      | primary i => cases mem
      | old i =>
        have := h.home (.primary i) it mem
        rw [(homes _).2, Slot.primary.injEq] at this
        rw [(homes _).1, this]
    · cases slot with
      | primary i => exact List.nodup_nil
      | old i => exact h.nodup (.primary i)
    · rw [h.present it, (homes _).1, (homes _).2, old]

theorem Refines.home_migrate (h : Refines key hash t f) (busy : t.expanding = true) (hv : UInt32) :
    (t.migrateBucket key hash).home hv =
      if maskedHash hv (t.hashpower - 1) = t.expandBucket then .primary (maskedHash hv t.hashpower)
      else t.home hv := by
  obtain ⟨positive, inside⟩ := h.bucket busy
  have power := h.power
  have bound : 2 ^ (t.hashpower - 1) ≤ 2 ^ 30 := Nat.pow_le_pow_right (by norm_num) (by omega)
  have below : maskedHash hv (t.hashpower - 1) < 2 ^ (t.hashpower - 1) :=
    Nat.mod_lt _ (Nat.two_pow_pos _)
  have next : (t.expandBucket + 1) % 2 ^ 32 = t.expandBucket + 1 := Nat.mod_eq_of_lt (by omega)
  simp only [HashTable.home, migrateBucket, next, busy, true_and, decide_eq_true_eq]
  by_cases moved : maskedHash hv (t.hashpower - 1) = t.expandBucket
  · rw [if_pos moved, if_neg (by omega)]
  · rw [if_neg moved]
    by_cases later : t.expandBucket ≤ maskedHash hv (t.hashpower - 1)
    · rw [if_pos later, if_pos (by omega)]
    · rw [if_neg later, if_neg (by omega)]

theorem Refines.chain_primary_migrate (h : Refines key hash t f) (i : ℤ) :
    (t.migrateBucket key hash).chain (.primary i) =
      ((t.old t.expandBucket).filter fun it =>
        (maskedHash (hash (key it)) t.hashpower : ℤ) = i).reverse ++ t.primary i := by
  -- an index below `2 ^ 31` is the same as an `int`
  have dest (it : Item) : wordToInt (maskedHash (hash (key it)) t.hashpower) =
      maskedHash (hash (key it)) t.hashpower := by
    have : maskedHash (hash (key it)) t.hashpower < 2 ^ 31 :=
      lt_of_lt_of_le (Nat.mod_lt _ (Nat.two_pow_pos _)) (Nat.pow_le_pow_right (by norm_num) h.power)
    rw [wordToInt, if_pos this]
  have push := Chains.foldl_push (fun it => wordToInt (maskedHash (hash (key it)) t.hashpower))
    (t.old t.expandBucket) t.primary i
  simp only [dest] at push
  have move : moveItem key hash t.hashpower = fun c it =>
      Function.update c (maskedHash (hash (key it)) t.hashpower : ℤ)
        (it :: c (maskedHash (hash (key it)) t.hashpower)) := by
    funext c it
    simp only [moveItem, dest]
  rw [← push, ← move]
  rfl

theorem chain_old_migrate (i : ℤ) : (t.migrateBucket key hash).chain (.old i) =
    if i = t.expandBucket then [] else t.old i := by
  simp [HashTable.chain, migrateBucket, Function.update_apply]

theorem Refines.migrated (h : Refines key hash t f) (busy : t.expanding = true) :
    Refines key hash (t.migrateBucket key hash) f := by
  obtain ⟨positive, inside⟩ := h.bucket busy
  have power := h.power
  have bound : 2 ^ (t.hashpower - 1) ≤ 2 ^ 30 := Nat.pow_le_pow_right (by norm_num) (by omega)
  have next : (t.expandBucket + 1) % 2 ^ 32 = t.expandBucket + 1 := Nat.mod_eq_of_lt (by omega)
  -- the items of the bucket, and those of the primary table
  have moving : ∀ it ∈ t.old t.expandBucket,
      maskedHash (hash (key it)) (t.hashpower - 1) = t.expandBucket := fun it mem => by
    have := (home_eq_old (h.home (.old _) it mem)).2
    omega
  have resting : ∀ i, ∀ it ∈ t.primary i, maskedHash (hash (key it)) (t.hashpower - 1) <
      t.expandBucket ∧ i = maskedHash (hash (key it)) t.hashpower := fun i it mem =>
    home_eq_primary busy (h.home (.primary i) it mem)
  refine ⟨power, fun more => ⟨positive, ?_⟩, fun slot it mem => ?_, fun slot => ?_, h.keyed,
    fun it => ?_, h.count⟩
  · simp only [migrateBucket, next, decide_eq_true_eq] at more ⊢
    omega
  · rw [h.home_migrate busy]
    cases slot with
    | old i =>
      rw [chain_old_migrate] at mem
      split_ifs at mem with here
      · cases mem
      · have at_old := h.home (.old i) it mem
        have := (home_eq_old at_old).2
        rw [if_neg (by omega), at_old]
    | primary i =>
      rw [h.chain_primary_migrate, List.mem_append, List.mem_reverse, List.mem_filter] at mem
      rcases mem with ⟨mem, dest⟩ | mem
      · rw [if_pos (moving it mem)]
        simpa using dest
      · rw [if_neg (resting i it mem).1.ne]
        exact h.home (.primary i) it mem
  · cases slot with
    | old i =>
      rw [chain_old_migrate]
      split_ifs
      · exact List.nodup_nil
      · exact h.nodup (.old i)
    | primary i =>
      rw [h.chain_primary_migrate]
      have bucket : (t.old t.expandBucket).Nodup := h.nodup (.old _)
      refine List.Nodup.append (List.nodup_reverse.2 (bucket.filter _)) (h.nodup (.primary i)) ?_
      intro it mem mem'
      rw [List.mem_reverse, List.mem_filter] at mem
      have := (resting i it mem').1
      have := moving it mem.1
      omega
  · rw [h.present it, h.home_migrate busy]
    by_cases moved : maskedHash (hash (key it)) (t.hashpower - 1) = t.expandBucket
    · have at_old : t.home (hash (key it)) = .old t.expandBucket := by
        rw [HashTable.home, if_pos ⟨busy, moved.ge⟩, moved]
      rw [if_pos moved, at_old, h.chain_primary_migrate, List.mem_append, List.mem_reverse,
        List.mem_filter]
      refine ⟨fun mem => Or.inl ⟨mem, by simp⟩, ?_⟩
      rintro (mem | mem)
      · exact mem.1
      · exact absurd moved (resting _ it mem).1.ne
    · rw [if_neg moved]
      cases place : t.home (hash (key it)) with
      | old i =>
        have := (home_eq_old place).2
        rw [chain_old_migrate, if_neg (by omega)]
        rfl
      | primary i =>
        rw [h.chain_primary_migrate, List.mem_append, List.mem_reverse, List.mem_filter]
        refine ⟨Or.inr, ?_⟩
        rintro (mem | mem)
        · exact absurd (moving it mem.1) moved
        · exact mem

variable [DecidableEq Key]

theorem Refines.find (h : Refines key hash t f) (k : Key) : t.assocFind key hash k = f k := by
  cases found : t.assocFind key hash k with
  | none =>
    cases has : f k with
    | none => rfl
    | some it =>
      have keyEq := h.keyed k it has
      have mem : it ∈ t.chain (t.home (hash k)) := by
        rw [← keyEq] at has ⊢
        exact (h.present it).1 has
      have := List.find?_eq_none.1 found it mem
      simp [keyEq] at this
  | some it =>
    have keyEq : key it = k := by simpa using List.find?_some found
    have mem := List.mem_of_find?_eq_some found
    rw [← keyEq] at mem ⊢
    exact ((h.present it).2 mem).symm

/-- The invariant after a change of the chain where `k` is looked for, when the two maps differ at
`k` only and the chain changes by items with that key. -/
theorem Refines.setChain {k : Key} {items : List Item} {x : Option Item} (h : Refines key hash t f)
    (nodup : items.Nodup) (keyed : ∀ it, x = some it → key it = k)
    (self : ∀ it, key it = k → (it ∈ items ↔ x = some it))
    (other : ∀ it, key it ≠ k → (it ∈ items ↔ it ∈ t.chain (t.home (hash k)))) (n : UInt32)
    (count : ∃ all : Finset Item, (∀ it, it ∈ all ↔ Function.update f k x (key it) = some it) ∧
      n = UInt32.ofNat all.card) :
    Refines key hash { t.setChain (t.home (hash k)) items with hashItems := n }
      (Function.update f k x) := by
  obtain ⟨power, expanding, bucket⟩ := setChain_rest (t := t) (t.home (hash k)) items
  have home (hv : UInt32) : HashTable.home
      { t.setChain (t.home (hash k)) items with hashItems := n } hv = t.home hv :=
    home_setChain _ _ hv
  have chain (slot : Slot) : HashTable.chain
      { t.setChain (t.home (hash k)) items with hashItems := n } slot =
        if slot = t.home (hash k) then items else t.chain slot := by
    rw [← chain_setChain]
    cases slot <;> rfl
  refine ⟨by rw [power]; exact h.power, by rw [power, expanding, bucket]; exact h.bucket,
    fun slot it mem => ?_, fun slot => ?_, fun k' it has => ?_, fun it => ?_, count⟩
  · rw [home]
    rw [chain] at mem
    by_cases here : slot = t.home (hash k)
    · rw [if_pos here] at mem
      by_cases same : key it = k
      · rw [same, here]
      · rw [here]
        exact h.home _ it ((other it same).1 mem)
    · rw [if_neg here] at mem
      exact h.home slot it mem
  · rw [chain]
    split_ifs
    · exact nodup
    · exact h.nodup slot
  · by_cases same : k' = k
    · rw [same, Function.update_self] at has
      rw [keyed it has, same]
    · rw [Function.update_of_ne same] at has
      exact h.keyed k' it has
  · rw [home, chain]
    by_cases same : key it = k
    · rw [same, if_pos rfl, Function.update_self, self it same]
    · rw [Function.update_of_ne same, h.present it]
      by_cases here : t.home (hash (key it)) = t.home (hash k)
      · rw [if_pos here, here, other it same]
      · rw [if_neg here]

theorem Refines.inserted (h : Refines key hash t f) {it : Item} (absent : f (key it) = none) :
    Refines key hash (t.assocInsert key hash it) (Function.update f (key it) (some it)) := by
  classical
  have missing : ∀ it', key it' = key it → it' ∉ t.chain (t.home (hash (key it))) := by
    intro it' same mem
    rw [← same] at mem absent
    rw [(h.present it').2 mem] at absent
    cases absent
  apply h.setChain
  · exact List.nodup_cons.2 ⟨missing it rfl, h.nodup _⟩
  · intro it' eq
    rw [Option.some.inj eq]
  · intro it' same
    rw [List.mem_cons, Option.some.injEq, or_iff_left (missing it' same), eq_comm]
  · intro it' differ
    rw [List.mem_cons, or_iff_right]
    intro eq
    exact differ (congrArg key eq)
  · obtain ⟨items, mem, count⟩ := h.count
    have new : it ∉ items := fun contra => by
      rw [mem, absent] at contra
      cases contra
    refine ⟨insert it items, fun it' => ?_, ?_⟩
    · rw [Finset.mem_insert, mem]
      by_cases same : key it' = key it
      · rw [same, Function.update_self, absent, Option.some.injEq, eq_comm]
        simp
      · rw [Function.update_of_ne same, or_iff_right]
        intro eq
        exact same (congrArg key eq)
    · rw [Finset.card_insert_of_notMem new, count]
      simp

theorem Refines.deleted (h : Refines key hash t f) {k : Key}
    (run : t.assocDelete key hash k = some t') :
    Refines key hash t' (Function.update f k none) := by
  classical
  rw [assocDelete] at run
  split_ifs at run with some
  obtain ⟨it, found⟩ := Option.isSome_iff_exists.1 some
  obtain rfl := Option.some.inj run
  have keyEq : key it = k := by simpa using List.find?_some found
  have has : f k = .some it := by rw [← h.find k, found]
  have only : ∀ it', key it' = k → it' ∈ t.chain (t.home (hash k)) → it' = it := by
    intro it' same mem
    have := (h.present it').2 (same ▸ mem)
    rw [same, has] at this
    exact (Option.some.inj this).symm
  have erase := Chains.eraseP_of_find? found
  apply h.setChain
  · rw [erase]
    exact (h.nodup _).erase it
  · intro it' contra
    cases contra
  · intro it' same
    rw [erase, (h.nodup _).mem_erase_iff]
    refine ⟨fun mem => absurd (only it' same mem.2) mem.1, fun contra => by cases contra⟩
  · intro it' differ
    rw [erase, (h.nodup _).mem_erase_iff]
    exact ⟨fun mem => mem.2, fun mem => ⟨fun eq => differ (eq ▸ keyEq), mem⟩⟩
  · obtain ⟨items, mem, count⟩ := h.count
    have old : it ∈ items := (mem it).2 (by rw [keyEq, has])
    refine ⟨items.erase it, fun it' => ?_, ?_⟩
    · rw [Finset.mem_erase, mem]
      by_cases same : key it' = k
      · rw [same, Function.update_self, has, Option.some.injEq]
        simp [eq_comm]
      · rw [Function.update_of_ne same]
        exact ⟨fun both => both.2, fun fk => ⟨fun eq => same (eq ▸ keyEq), fk⟩⟩
    · have := Finset.card_erase_add_one old
      rw [count, ← this]
      simp

/-- A step that keeps the hash power within the range of an `int` index. -/
def Fits (t : HashTable Item) (op : AssocOp Item Key) : Prop :=
  op = .expand true → t.hashpower < 31

theorem Refines.step (h : Refines key hash t f) {op : AssocOp Item Key} (fits : t.Fits op)
    (run : t.next key hash op = some t') : Refines key hash t' (op.apply key f) := by
  cases op with
  | insert it =>
    simp only [next] at run
    split_ifs at run with absent
    obtain rfl := Option.some.inj run
    rw [h.find, Option.isNone_iff_eq_none] at absent
    exact h.inserted absent
  | delete k => exact h.deleted run
  | expand calloc =>
    simp only [next] at run
    split_ifs at run with idle
    obtain rfl := Option.some.inj run
    exact h.expanded (by simpa using idle) fun ok => fits (ok ▸ rfl)
  | migrate =>
    simp only [next] at run
    split_ifs at run with busy
    obtain rfl := Option.some.inj run
    exact h.migrated busy

/-- In every run whose hash power stays below 32 the table refines the finite map of the operations:
a lookup gives the item inserted last and not deleted since, every present item is in exactly one
chain and there once, no other item is in a chain, and `hash_items` counts the items. -/
theorem hash_table_refines (key : Item → Key) (hash : Key → UInt32) {power : ℕ}
    (small : power ≤ 31) {ops : List (AssocOp Item Key)}
    (run : Run (fun t op t' => t.Fits op ∧ t.next key hash op = some t') (assocInit power) ops t) :
    let f := ops.foldl (AssocOp.apply key) fun _ => none
    (∀ k, t.assocFind key hash k = f k) ∧
      (∀ it, f (key it) = some it → ∃! slot, it ∈ t.chain slot) ∧
      (∀ slot, (t.chain slot).Nodup ∧ ∀ it ∈ t.chain slot, f (key it) = some it) ∧
      ∃ items : Finset Item, (∀ it, it ∈ items ↔ f (key it) = some it) ∧
        t.hashItems = UInt32.ofNat items.card := by
  have h : Refines key hash t (ops.foldl (AssocOp.apply key) fun _ => none) :=
    run.simulates (Refines key hash) (AssocOp.apply key)
      (fun _ _ _ _ related step => related.step step.1 step.2) (.init small)
  have placed : ∀ slot, ∀ it ∈ t.chain slot,
      ops.foldl (AssocOp.apply key) (fun _ => none) (key it) = some it := by
    intro slot it mem
    rw [h.present it, h.home slot it mem]
    exact mem
  refine ⟨h.find, fun it has => ⟨t.home (hash (key it)), (h.present it).1 has, fun slot mem => ?_⟩,
    fun slot => ⟨h.nodup slot, placed slot⟩, h.count⟩
  exact (h.home slot it mem).symm

theorem hash_table_refines_expansion : ∃ t : HashTable ℕ,
    Run (fun t op t' => t.Fits op ∧ t.next id UInt32.ofNat op = some t') (assocInit 16)
      [.insert 5, .expand true, .migrate, .insert 7] t ∧
    t.assocFind id UInt32.ofNat 5 = some 5 ∧ t.hashItems = 2 := by
  have run : Run (fun (t : HashTable ℕ) op t' => t.Fits op ∧ t.next id UInt32.ofNat op = some t')
      (assocInit 16) [.insert 5, .expand true, .migrate, .insert 7] _ :=
    .cons ⟨by rintro ⟨⟩, rfl⟩ (.cons ⟨fun _ => by decide, rfl⟩
      (.cons ⟨by rintro ⟨⟩, rfl⟩ (.cons ⟨by rintro ⟨⟩, rfl⟩ (.nil _))))
  obtain ⟨find, -, -, items, mem, count⟩ := hash_table_refines id UInt32.ofNat (by norm_num) run
  refine ⟨_, run, find 5, ?_⟩
  decide

/-- An item whose hash has its top bit set, in a table that grows from 2^31 to 2^32 buckets: the
migration writes it in front of the new table, where no lookup finds it. -/
theorem migrated_item_lost :
    ([.insert 0, .expand true, .migrate].foldlM (next id fun _ => 2147483648)
      (assocInit 31 : HashTable ℕ)).map (fun t =>
        (t.hashpower, t.assocFind id (fun _ => 2147483648) 0, t.hashItems,
          t.primary (-2147483648))) = some (32, none, 1, [0]) := by
  decide +kernel

end HashTable

end LogMemcached

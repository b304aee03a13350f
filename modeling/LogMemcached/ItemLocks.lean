import LogMemcached.HashTable

/-!
# Item locks and buckets

`item_lock` takes a lock by the low bits of a hash value, as the tables choose a bucket, but by
fewer of them.  So one lock covers a whole chain, and `assoc_maintenance_thread` can migrate a
bucket under the lock of its number.
-/

namespace LogMemcached

open Transition

/-- The size of the lock table that `memcached_thread_init` chooses. -/
def lockPower (nthreads : ℤ) : ℕ :=
  if nthreads < 3 then 10 else if nthreads < 4 then 11 else if nthreads < 5 then 12 else 13

/-- The check of `memcached_thread_init`; `none` when it exits. -/
def threadInit (nthreads : ℤ) (hashpower : ℕ) : Option ℕ :=
  if lockPower nthreads ≥ hashpower then none else some (lockPower nthreads)

/-- The index of the lock that `item_lock` and `item_trylock` take. -/
def itemLock (power : ℕ) (hv : UInt32) : ℕ := maskedHash hv power

/-- The items with the hash value `hv` are kept at index `i` of a table of power `n`: the
operations compute the index as an `unsigned int`, the migration as an `int`. -/
def AtIndex (hv : UInt32) (n : ℕ) (i : ℤ) : Prop :=
  i = maskedHash hv n ∨ i = wordToInt (maskedHash hv n)

theorem threadInit_lt {nthreads : ℤ} {hashpower m : ℕ}
    (ok : threadInit nthreads hashpower = some m) : m < hashpower := by
  rw [threadInit] at ok
  split_ifs at ok with small
  obtain rfl := Option.some.inj ok
  exact not_le.1 small

theorem maskedHash_lt (hv : UInt32) (n : ℕ) : maskedHash hv n < 2 ^ 32 :=
  Nat.lt_of_le_of_lt (Nat.mod_le _ _) hv.toNat_lt

theorem AtIndex.maskedHash_eq {hv hv' : UInt32} {n : ℕ} {i : ℤ} (h : AtIndex hv n i)
    (h' : AtIndex hv' n i) : maskedHash hv n = maskedHash hv' n := by
  have low := maskedHash_lt hv n
  have low' := maskedHash_lt hv' n
  simp only [AtIndex, wordToInt] at h h'
  split_ifs at h h' <;> omega

theorem AtIndex.eq_maskedHash {hv : UInt32} {n b : ℕ} (h : AtIndex hv n b) :
    b = maskedHash hv n := by
  have low := maskedHash_lt hv n
  simp only [AtIndex, wordToInt] at h
  split_ifs at h <;> omega

theorem itemLock_eq {hv : UInt32} {m n : ℕ} (le : m ≤ n) :
    itemLock m hv = maskedHash hv n % 2 ^ m :=
  (Nat.mod_mod_of_dvd _ (pow_dvd_pow 2 le)).symm

namespace HashTable

variable {Item Key : Type} {key : Item → Key} {hash : Key → UInt32} {t t' : HashTable Item}

/-- The items with the hash value `hv` are kept in a chain. -/
def Falls (t : HashTable Item) (hv : UInt32) : Slot → Prop
  | .primary i => AtIndex hv t.hashpower i
  | .old i => AtIndex hv (t.hashpower - 1) i

theorem falls_home (hv : UInt32) : t.Falls hv (t.home hv) := by
  rw [home]
  split <;> exact .inl rfl

theorem itemLock_of_falls {m : ℕ} (power : m < t.hashpower) {hv hv' : UInt32} {slot : Slot}
    (falls : t.Falls hv slot) (falls' : t.Falls hv' slot) : itemLock m hv = itemLock m hv' := by
  cases slot with
  | old i =>
    rw [itemLock_eq (n := t.hashpower - 1) (by omega), falls.maskedHash_eq falls',
      ← itemLock_eq (by omega)]
  | primary i =>
    rw [itemLock_eq power.le, falls.maskedHash_eq falls', ← itemLock_eq power.le]

variable (key hash) in
/-- Every item is in a chain of its hash value; the old table counts while it is migrated. -/
structure Placed (t : HashTable Item) : Prop where
  primary : ∀ i, ∀ it ∈ t.primary i, t.Falls (hash (key it)) (.primary i)
  old : t.expanding = true → ∀ i, ∀ it ∈ t.old i, t.Falls (hash (key it)) (.old i)

theorem Placed.init (power : ℕ) : Placed key hash (assocInit power : HashTable Item) where
  primary i it mem := absurd mem List.not_mem_nil
  old busy := absurd busy Bool.false_ne_true

theorem foldl_moveItem {power : ℕ} {items : List Item} {primary : ℤ → List Item} {i : ℤ}
    (other : ∀ it ∈ items, wordToInt (maskedHash (hash (key it)) power) ≠ i) :
    items.foldl (moveItem key hash power) primary i = primary i := by
  induction items generalizing primary with
  | nil => rfl
  | cons it items ih =>
    rw [List.foldl_cons, ih fun it mem => other it (List.mem_cons_of_mem _ mem), moveItem,
      Function.update_of_ne (other it List.mem_cons_self).symm]

theorem mem_foldl_moveItem {power : ℕ} {items : List Item} {primary : ℤ → List Item} {i : ℤ}
    {it : Item} (mem : it ∈ items.foldl (moveItem key hash power) primary i) :
    it ∈ primary i ∨ i = wordToInt (maskedHash (hash (key it)) power) := by
  induction items generalizing primary with
  | nil => exact .inl mem
  | cons it' items ih =>
    rcases ih mem with mem | at_bucket
    · rw [moveItem, Function.update_apply] at mem
      split_ifs at mem with bucket
      · rcases List.mem_cons.1 mem with rfl | mem
        · exact .inr bucket
        · exact .inl (bucket ▸ mem)
      · exact .inl mem
    · exact .inr at_bucket

theorem Placed.setChain (h : Placed key hash t) {slot : Slot} {items : List Item}
    (falls : ∀ it ∈ items, t.Falls (hash (key it)) slot) :
    Placed key hash (t.setChain slot items) := by
  cases slot with
  | old i =>
    refine ⟨h.primary, fun busy j it mem => ?_⟩
    simp only [HashTable.setChain, Function.update_apply] at mem
    split_ifs at mem with same
    · exact same ▸ falls it mem
    · exact h.old busy j it mem
  | primary i =>
    refine ⟨fun j it mem => ?_, h.old⟩
    simp only [HashTable.setChain, Function.update_apply] at mem
    split_ifs at mem with same
    · exact same ▸ falls it mem
    · exact h.primary j it mem

theorem Placed.chain (h : Placed key hash t) (hv : UInt32) :
    ∀ it ∈ t.chain (t.home hv), t.Falls (hash (key it)) (t.home hv) := by
  intro it mem
  rw [home] at mem ⊢
  split_ifs at mem ⊢ with later
  · exact h.old later.1 _ it mem
  · exact h.primary _ it mem

theorem Placed.migrated (h : Placed key hash t) (busy : t.expanding = true) :
    Placed key hash (t.migrateBucket key hash) where
  primary i it mem := by
    rcases mem_foldl_moveItem mem with mem | bucket
    · exact h.primary i it mem
    · exact .inr bucket
  old _ i it mem := by
    simp only [migrateBucket, Function.update_apply] at mem
    split_ifs at mem
    · exact absurd mem List.not_mem_nil
    · exact h.old busy i it mem

theorem Placed.step [DecidableEq Key] (h : Placed key hash t) {op : AssocOp Item Key}
    (run : t.next key hash op = some t') :
    Placed key hash t' ∧ t.hashpower ≤ t'.hashpower := by
  cases op with
  | insert it =>
    simp only [next] at run
    split_ifs at run
    obtain rfl := Option.some.inj run
    have placed : Placed key hash (t.setChain (t.home (hash (key it))) (it ::
        t.chain (t.home (hash (key it))))) := by
      refine h.setChain fun it' mem => ?_
      rcases List.mem_cons.1 mem with rfl | mem
      · exact falls_home _
      · exact h.chain _ it' mem
    exact ⟨⟨placed.primary, placed.old⟩, (setChain_rest _ _).1.ge⟩
  | delete k =>
    simp only [next, assocDelete] at run
    split_ifs at run
    obtain rfl := Option.some.inj run
    have placed : Placed key hash (t.setChain (t.home (hash k))
        ((t.chain (t.home (hash k))).eraseP fun it => key it = k)) :=
      h.setChain fun it mem => h.chain _ it (List.mem_of_mem_eraseP mem)
    exact ⟨⟨placed.primary, placed.old⟩, (setChain_rest _ _).1.ge⟩
  | expand calloc =>
    simp only [next, assocExpand] at run
    split_ifs at run
    · obtain rfl := Option.some.inj run
      refine ⟨⟨fun i it mem => absurd mem List.not_mem_nil, fun _ i it mem => ?_⟩, Nat.le_succ _⟩
      exact h.primary i it mem
    · obtain rfl := Option.some.inj run
      exact ⟨h, Nat.le_refl _⟩
  | migrate =>
    simp only [next] at run
    split_ifs at run with busy
    obtain rfl := Option.some.inj run
    exact ⟨h.migrated busy, Nat.le_refl _⟩

theorem Placed.itemLock_migrate (h : Placed key hash t) (busy : t.expanding = true) {m : ℕ}
    (power : m < t.hashpower) {slot : Slot}
    (changed : (t.migrateBucket key hash).chain slot ≠ t.chain slot) {hv : UInt32}
    (falls : t.Falls hv slot) : itemLock m hv = itemLock m (UInt32.ofNat t.expandBucket) := by
  have lock {hv : UInt32} (bucket : t.Falls hv (.old t.expandBucket)) :
      itemLock m hv = itemLock m (UInt32.ofNat t.expandBucket) := by
    have eq := AtIndex.eq_maskedHash bucket
    have word : t.expandBucket < 2 ^ 32 := eq ▸ maskedHash_lt hv (t.hashpower - 1)
    rw [itemLock_eq (n := t.hashpower - 1) (by omega), ← eq, itemLock, maskedHash,
      UInt32.toNat_ofNat_of_lt' word]
  cases slot with
  | old i =>
    obtain rfl : i = t.expandBucket := by
      by_contra other
      exact changed (Function.update_of_ne other _ _)
    exact lock falls
  | primary i =>
    obtain ⟨it, mem, bucket⟩ : ∃ it ∈ t.old t.expandBucket,
        wordToInt (maskedHash (hash (key it)) t.hashpower) = i := by
      by_contra none
      exact changed (foldl_moveItem fun it mem bucket => none ⟨it, mem, bucket⟩)
    rw [itemLock_of_falls power falls (.inr bucket.symm : t.Falls (hash (key it)) (.primary i))]
    exact lock (h.old busy _ it mem)

/-- In every state that is reached from a table of more bits than the lock table, the hash values of
a chain have one lock, and a step of the migration changes only chains whose hash values have the
lock that `item_trylock(expand_bucket)` takes. -/
theorem item_lock_covers_chain [DecidableEq Key] (key : Item → Key) (hash : Key → UInt32)
    {m power : ℕ} (enforced : m < power) {ops : List (AssocOp Item Key)}
    (run : Run (fun t op t' => t.next key hash op = some t') (assocInit power) ops t) :
    m < t.hashpower ∧
      (∀ slot hv hv', t.Falls hv slot → t.Falls hv' slot → itemLock m hv = itemLock m hv') ∧
      (t.expanding = true → ∀ slot, (t.migrateBucket key hash).chain slot ≠ t.chain slot →
        ∀ hv, t.Falls hv slot → itemLock m hv = itemLock m (UInt32.ofNat t.expandBucket)) := by
  obtain ⟨placed, above⟩ := run.invariant (fun t => Placed key hash t ∧ power ≤ t.hashpower)
    (fun _ _ _ h step => ⟨(h.1.step step).1, h.2.trans (h.1.step step).2⟩)
    ⟨.init power, Nat.le_refl _⟩
  have wide : m < t.hashpower := Nat.lt_of_lt_of_le enforced above
  exact ⟨wide, fun slot hv hv' falls falls' => itemLock_of_falls wide falls falls',
    fun busy slot changed hv falls => placed.itemLock_migrate busy wide changed falls⟩

/-- An item of bucket 0 of the old table, hash value 2^16, has the lock 0 and so has every other
hash value of the two chains between which it is moved. -/
theorem item_lock_covers_chain_expansion : ∃ t : HashTable ℕ,
    Run (fun t op t' => t.next id UInt32.ofNat op = some t') (assocInit 16)
      [.insert 65536, .expand true] t ∧
    (t.migrateBucket id UInt32.ofNat).chain (.primary 65536) ≠ t.chain (.primary 65536) ∧
    ∀ hv, t.Falls hv (.primary 65536) → itemLock 13 hv = 0 := by
  have run : Run (fun (t : HashTable ℕ) op t' => t.next id UInt32.ofNat op = some t')
      (assocInit 16) [.insert 65536, .expand true] _ := .cons rfl (.cons rfl (.nil _))
  obtain ⟨-, -, migration⟩ := item_lock_covers_chain id UInt32.ofNat
    (threadInit_lt (rfl : threadInit 5 16 = some 13)) run
  have changed : ((assocInit 16 : HashTable ℕ).assocInsert id UInt32.ofNat 65536 |>.assocExpand true
      |>.migrateBucket id UInt32.ofNat).chain (.primary 65536) = [65536] := by
    decide +kernel
  have moves := changed.trans_ne (List.cons_ne_nil _ _)
  exact ⟨_, run, moves, fun hv falls => migration rfl _ moves hv falls⟩

end HashTable

end LogMemcached

import Mathlib

/-!
# Journals

A journal is a list of entries that are read one after another, each of which may set its key to a
value, clear it, or do nothing.  Reading a journal leaves under each key what the last entry said
that says anything about it.
-/

namespace Journal

variable {α κ ν : Type*}

/-- How the entries of a journal are read: the key of each, and what it does to it. -/
structure Reading (α κ ν : Type*) where
  key : α → κ
  act : α → Option (Option ν)

variable [DecidableEq κ] (R : Reading α κ ν)

/-- The effect of one entry. -/
def Reading.apply (t : κ → Option ν) (a : α) : κ → Option ν :=
  match R.act a with
  | none => t
  | some value => Function.update t (R.key a) value

/-- The effect of a journal. -/
def Reading.replay (as : List α) (t : κ → Option ν) : κ → Option ν := as.foldl R.apply t

/-- The entry says something about the key. -/
def Reading.concerns (k : κ) (a : α) : Bool := decide (R.key a = k) && (R.act a).isSome

/-- The last entry that says something about a key. -/
def Reading.last (as : List α) (k : κ) : Option α := as.reverse.find? (R.concerns k)

variable {R} {as bs : List α} {a : α} {k : κ} {t : κ → Option ν}

@[simp] theorem last_nil : R.last [] k = none := rfl

theorem last_append : R.last (as ++ bs) k = (R.last bs k).or (R.last as k) := by
  simp [Reading.last, List.find?_append]

theorem last_snoc : R.last (as ++ [a]) k = if R.concerns k a then some a else R.last as k := by
  rw [last_append, Reading.last, List.reverse_singleton, List.find?_singleton]
  cases R.concerns k a <;> rfl

theorem last_eq_some (h : R.last as k = some a) : a ∈ as ∧ R.concerns k a = true :=
  ⟨List.mem_reverse.1 (List.mem_of_find?_eq_some h), List.find?_some h⟩

/-- What is read under a key is what its last entry says. -/
theorem replay_eq_last : R.replay as t k = (R.last as k).elim (t k) fun a => (R.act a).join := by
  induction as using List.reverseRecOn with
  | nil => rfl
  | append_singleton as a ih =>
    rw [Reading.replay, List.foldl_append, List.foldl_cons, List.foldl_nil, last_snoc]
    change R.apply (R.replay as t) a k = _
    unfold Reading.apply Reading.concerns
    cases act : R.act a with
    | none => simpa using ih
    | some value =>
      by_cases same : R.key a = k
      · simp [same, act]
      · simp [same, Function.update_of_ne (Ne.symm same), ih]

end Journal

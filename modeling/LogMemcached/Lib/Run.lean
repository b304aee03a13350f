import Mathlib

/-!
# Runs of a labelled transition system

`Run step s as t` says that the actions `as`, taken one after another from `s`, lead to `t`.  The
step relation is a parameter, so the same rules serve a system and its restriction to the steps
that meet a side condition.
-/

namespace Transition

variable {σ α : Type*} {step step' : σ → α → σ → Prop} {s t u : σ} {a : α} {as bs : List α}

/-- The actions `as` lead from the first state to the last one. -/
inductive Run (step : σ → α → σ → Prop) : σ → List α → σ → Prop
  | nil (s : σ) : Run step s [] s
  | cons {s t u : σ} {a : α} {as : List α} :
      step s a t → Run step t as u → Run step s (a :: as) u

namespace Run

theorem one (h : step s a t) : Run step s [a] t := .cons h (.nil t)

theorem append (h : Run step s as t) (h' : Run step t bs u) : Run step s (as ++ bs) u := by
  induction h with
  | nil => exact h'
  | cons hs _ ih => exact .cons hs (ih h')

/-- A run of a partial step function, computed. -/
theorem of_foldlM {f : σ → α → Option σ} (h : as.foldlM f s = some t) :
    Run (fun s a t => f s a = some t) s as t := by
  induction as generalizing s with
  | nil =>
    obtain rfl : s = t := by simpa using h
    exact .nil s
  | cons a as ih =>
    rw [List.foldlM_cons] at h
    obtain ⟨u, first, rest⟩ := Option.bind_eq_some_iff.1 h
    exact .cons first (ih rest)

/-- A property kept by every step is kept by every run. -/
theorem invariant (I : σ → Prop) (keeps : ∀ s a t, I s → step s a t → I t)
    (h : Run step s as t) (hs : I s) : I t := by
  induction h with
  | nil => exact hs
  | cons h _ ih => exact ih (keeps _ _ _ hs h)

/-- A relation to an abstract state that every step keeps relates the ends of every run. -/
theorem simulates {τ : Type*} (R : σ → τ → Prop) (f : τ → α → τ)
    (keeps : ∀ s a t x, R s x → step s a t → R t (f x a)) (h : Run step s as t) {x : τ}
    (hs : R s x) : R t (as.foldl f x) := by
  induction h generalizing x with
  | nil => exact hs
  | cons h _ ih => exact ih (keeps _ _ _ _ hs h)

/-- A relation to the actions taken so far that every step keeps. -/
theorem history (R : σ → List α → Prop)
    (keeps : ∀ s a t done, R s done → step s a t → R t (done ++ [a])) (h : Run step s as t)
    {done : List α} (hs : R s done) : R t (done ++ as) := by
  induction h generalizing done with
  | nil => rwa [List.append_nil]
  | cons h _ ih =>
    rw [List.append_cons]
    exact ih (keeps _ _ _ _ hs h)

/-- A run of a system is a run of every system with more steps. -/
theorem mono (sub : ∀ s a t, step s a t → step' s a t) (h : Run step s as t) :
    Run step' s as t := by
  induction h with
  | nil s => exact .nil s
  | cons h _ ih => exact .cons (sub _ _ _ h) ih

/-- A run whose labels all meet a condition is a run of the system restricted to such labels. -/
theorem meeting {P : α → Prop} (h : Run step s as t) (all : ∀ a ∈ as, P a) :
    Run (fun s a t => P a ∧ step s a t) s as t := by
  induction h with
  | nil s => exact .nil s
  | cons h _ ih =>
    obtain ⟨first, rest⟩ := List.forall_mem_cons.1 all
    exact .cons ⟨first, h⟩ (ih rest)

end Run

end Transition

import Mathlib

/-!
# Computations that may abort

An `Except` computation stands for code with assertions: `check` is an assertion, and the rules
below read a run that did not abort back into the runs of its steps.
-/

namespace Fallible

variable {ε α β : Type}

/-- `assert(p)`, aborting with `e`. -/
def check (p : Bool) (e : ε) : Except ε Unit := if p then .ok () else .error e

/-- The value of an `Option`, aborting with `e` when there is none. -/
def ofOption (o : Option α) (e : ε) : Except ε α :=
  match o with
  | none => .error e
  | some a => .ok a

theorem ofOption_some (a : α) (e : ε) : ofOption (some a) e = .ok a := rfl

theorem ok_bind (a : α) (f : α → Except ε β) : (Except.ok a >>= f) = f a := rfl

/-- A sequence ran to its end exactly when both parts did. -/
theorem bind_ran {x : Except ε α} {f : α → Except ε β} {b : β} :
    (x >>= f) = .ok b ↔ ∃ a, x = .ok a ∧ f a = .ok b := by
  refine ⟨fun h => ?_, fun ⟨a, hx, hf⟩ => by rw [hx, ok_bind, hf]⟩
  match x, h with
  | .ok a, h => exact ⟨a, rfl, h⟩

theorem pure_ran {a b : α} : (pure a : Except ε α) = .ok b ↔ a = b :=
  ⟨fun h => Except.ok.inj h, fun h => h ▸ rfl⟩

theorem pair_ran {a c : α} {b d : β} :
    (pure (a, b) : Except ε (α × β)) = .ok (c, d) ↔ a = c ∧ b = d :=
  pure_ran.trans Prod.mk_inj

theorem check_ran {p : Bool} {e : ε} {b : Unit} : check p e = .ok b ↔ p = true := by
  unfold check
  split_ifs with h
  · exact ⟨fun _ => h, fun _ => rfl⟩
  · exact ⟨fun contra => (nomatch contra), fun p => absurd p h⟩

/-- An assertion in front of a computation. -/
theorem check_bind_ran {p : Bool} {e : ε} {f : Unit → Except ε β} {b : β} :
    (check p e >>= f) = .ok b ↔ p = true ∧ f () = .ok b := by
  rw [bind_ran]
  exact ⟨fun ⟨_, hp, hf⟩ => ⟨check_ran.1 hp, hf⟩, fun ⟨hp, hf⟩ => ⟨(), check_ran.2 hp, hf⟩⟩

/-- A sequence aborts in its first part, or in the second after the first ran to its end. -/
theorem bind_aborted {x : Except ε α} {f : α → Except ε β} {e : ε} :
    (x >>= f) = .error e ↔ x = .error e ∨ ∃ a, x = .ok a ∧ f a = .error e := by
  cases x with
  | error e' =>
    refine ⟨fun h => .inl ?_, fun h => ?_⟩
    · exact congrArg Except.error (Except.error.inj h)
    · rcases h with h | ⟨a, ran, -⟩
      · exact congrArg Except.error (Except.error.inj h)
      · cases ran
  | ok a =>
    rw [ok_bind]
    refine ⟨fun h => .inr ⟨a, rfl, h⟩, fun h => ?_⟩
    rcases h with h | ⟨a', ran, h⟩
    · cases h
    · cases ran
      exact h

theorem pure_not_aborted {a : α} {e : ε} : (pure a : Except ε α) ≠ .error e := nofun

/-- Another assertion than the one in front aborts only in what follows. -/
theorem check_bind_aborted {p : Bool} {e e' : ε} {f : Unit → Except ε β} (other : e ≠ e')
    (h : (check p e >>= f) = .error e') : p = true ∧ f () = .error e' := by
  cases p with
  | true => exact ⟨rfl, h⟩
  | false => exact absurd (Except.error.inj h) other

theorem ok_of_toOption {x : Except ε α} {a : α} (h : x.toOption = some a) : x = .ok a := by
  match x, h with
  | .ok b, h => exact congrArg Except.ok (Option.some.inj h)

/-- A counted loop each of whose rounds succeeds and keeps an invariant. -/
theorem exists_foldlM_finRange {σ : Type} {n : ℕ} {f : σ → Fin n → Option σ} (P : ℕ → σ → Prop) {s : σ}
    (start : P 0 s) (round : ∀ (i : Fin n) s, P i s → ∃ s', f s i = some s' ∧ P (i + 1) s') :
    ∃ s', (List.finRange n).foldlM f s = some s' ∧ P n s' := by
  induction n with
  | zero => exact ⟨s, rfl, start⟩
  | succ n ih =>
    obtain ⟨s₁, ran, h₁⟩ := @ih (fun s i => f s i.castSucc) fun i s h => round i.castSucc s h
    obtain ⟨s', last, h'⟩ := round (Fin.last n) s₁ h₁
    refine ⟨s', ?_, h'⟩
    rw [List.finRange_succ_last, List.foldlM_append, List.foldlM_map, ran]
    simp only [Option.bind_eq_bind, Option.bind_some, List.foldlM_cons, last, List.foldlM_nil]
    rfl

end Fallible

import Mathlib

/-!
# Chains searched by a test

Lists as hash chains: what a search finds is what an erasure by the same test takes out, and moving
the elements of a list one by one to the fronts of other lists sorts them by their destination.
-/

namespace Chains

variable {α ι : Type*}

theorem eraseP_congr {p q : α → Bool} {as : List α} (same : ∀ a ∈ as, p a = q a) :
    as.eraseP p = as.eraseP q := by
  induction as with
  | nil => rfl
  | cons a as ih =>
    rw [List.eraseP_cons, List.eraseP_cons, same a (by simp),
      ih fun b hb => same b (List.mem_cons_of_mem _ hb)]

/-- Erasing by a test takes out the element that the test finds. -/
theorem eraseP_of_find? [DecidableEq α] {p : α → Bool} {as : List α} {a : α}
    (found : as.find? p = some a) : as.eraseP p = as.erase a := by
  obtain ⟨accepts, before, after, rfl, rejects⟩ := List.find?_eq_some_iff_append.1 found
  have reject : ∀ b ∈ before, ¬p b = true := fun b hb => by simpa using rejects b hb
  have notMem : a ∉ before := fun mem => reject a mem accepts
  rw [List.erase_append_right _ notMem, List.eraseP_append_right _ reject,
    List.eraseP_cons_of_pos accepts, List.erase_cons_head]

/-- Pushing the elements of a list to the fronts of the chains that `dest` gives. -/
theorem foldl_push [DecidableEq ι] (dest : α → ι) (as : List α) (chains : ι → List α) (i : ι) :
    as.foldl (fun c a => Function.update c (dest a) (a :: c (dest a))) chains i =
      (as.filter fun a => dest a = i).reverse ++ chains i := by
  induction as generalizing chains with
  | nil => rfl
  | cons a as ih =>
    rw [List.foldl_cons, ih]
    by_cases here : dest a = i
    · rw [List.filter_cons_of_pos (by simpa using here), here, Function.update_self,
        List.reverse_cons, List.append_assoc, List.singleton_append]
    · rw [List.filter_cons_of_neg (by simpa using here), Function.update_of_ne (Ne.symm here)]

end Chains

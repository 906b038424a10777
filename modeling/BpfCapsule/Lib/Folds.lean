import Mathlib.Order.MinMax
import Mathlib.Tactic.Common

/-!
# The largest value of a list

A loop that keeps the largest value it has come past computes the least upper bound of where it
started and of the values (`foldl_max_le_iff`), which is one of them (`foldl_max_eq`).
-/

namespace Folds

variable {β : Type} {h : β → Nat} {a b : Nat} {l : List β}

/-- A running maximum is below what everything is below. -/
theorem foldl_max_le_iff :
    l.foldl (fun best s => max best (h s)) a ≤ b ↔ a ≤ b ∧ ∀ s ∈ l, h s ≤ b := by
  induction l generalizing a with
  | nil => simp
  | cons s l ih =>
    rw [List.foldl_cons, ih, List.forall_mem_cons, max_le_iff, and_assoc]

theorem le_foldl_max {s : β} (hs : s ∈ l) : h s ≤ l.foldl (fun best s => max best (h s)) a :=
  (foldl_max_le_iff.mp (le_refl _)).2 s hs

/-- A running maximum is attained. -/
theorem foldl_max_eq (h : β → Nat) (a : Nat) (l : List β) :
    l.foldl (fun best s => max best (h s)) a = a ∨
      ∃ s ∈ l, l.foldl (fun best s => max best (h s)) a = h s := by
  refine List.foldlRecOn (motive := fun best => best = a ∨ ∃ s ∈ l, best = h s) l _ (.inl rfl) ?_
  intro best hbest s hs
  rcases max_choice best (h s) with hmax | hmax
  · rwa [hmax]
  · exact .inr ⟨s, hs, hmax⟩

end Folds

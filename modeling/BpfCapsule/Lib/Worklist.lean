import Mathlib.Algebra.BigOperators.Group.Finset.Basic
import Mathlib.Algebra.Order.BigOperators.Group.Finset
import Mathlib.Tactic.Common

/-!
# Worklists

The reachability loop of a program analysis: take an item off a stack, pass over it when it is to be
skipped or was seen before, otherwise mark it and push what it leads to. Looking at an item may fail,
and then the loop fails. `explore_spec` says what a loop that ended has seen: every item it was
started with, and with every item all that it leads to.
-/

namespace Worklist

variable {α ε : Type*} [DecidableEq α]

/-- The loop, with the top of the stack at the head; `expand` gives what an item leads to, the last
one pushed first. -/
def explore (skip : α → Bool) (expand : α → Except ε (List α)) :
    (fuel : Nat) → List α → Finset α → Except ε (Finset α)
  | 0, _, seen => .ok seen
  | _ + 1, [], seen => .ok seen
  | fuel + 1, a :: work, seen =>
    if skip a = true ∨ a ∈ seen then explore skip expand fuel work seen
    else
      match expand a with
      | .error e => .error e
      | .ok next => explore skip expand fuel (next ++ work) (insert a seen)

/-- What is known of a finished loop that was started with `work` and `seen`. -/
structure Explored (skip : α → Bool) (expand : α → Except ε (List α)) (work : List α)
    (seen result : Finset α) : Prop where
  subset : seen ⊆ result
  started : ∀ a ∈ work, skip a = true ∨ a ∈ result
  closed : ∀ a ∈ result, a ∉ seen → skip a = false ∧
    ∃ next, expand a = .ok next ∧ ∀ b ∈ next, skip b = true ∨ b ∈ result

variable {skip : α → Bool} {expand : α → Except ε (List α)}

/-- With fuel for the stack and for everything that can still be pushed, the loop runs to its end. -/
theorem explore_spec (all : Finset α) (size : α → Nat)
    (hall : ∀ a ∈ all, ∀ next, expand a = .ok next →
      next.length ≤ size a ∧ ∀ b ∈ next, skip b = true ∨ b ∈ all)
    {fuel : Nat} {work : List α} {seen result : Finset α}
    (hwork : ∀ a ∈ work, skip a = true ∨ a ∈ all)
    (hfuel : work.length + ∑ a ∈ all \ seen, size a ≤ fuel)
    (h : explore skip expand fuel work seen = .ok result) :
    Explored skip expand work seen result := by
  induction fuel generalizing work seen with
  | zero =>
    have hempty : work = [] := List.length_eq_zero_iff.mp (by omega)
    cases h
    refine ⟨Finset.Subset.refl _, ?_, fun a ha hnew => absurd ha hnew⟩
    rw [hempty]
    exact fun a ha => absurd ha List.not_mem_nil
  | succ fuel ih =>
    cases work with
    | nil =>
      cases h
      exact ⟨Finset.Subset.refl _, fun a ha => absurd ha List.not_mem_nil,
        fun a ha hnew => absurd ha hnew⟩
    | cons a work =>
      rw [List.length_cons] at hfuel
      unfold explore at h
      split at h
      · rename_i hpass
        have hrest := ih (fun b hb => hwork b (List.mem_cons_of_mem a hb)) (by omega) h
        refine ⟨hrest.subset, fun b hb => ?_, hrest.closed⟩
        rcases List.mem_cons.mp hb with rfl | hb
        · exact hpass.imp_right fun hseen => hrest.subset hseen
        · exact hrest.started b hb
      · rename_i hpass
        have hgo : skip a = false ∧ a ∉ seen := by simpa using hpass
        have hin : a ∈ all := by
          rcases hwork a List.mem_cons_self with hskip | hin
          · exact absurd hskip (by simp [hgo.1])
          · exact hin
        split at h
        · cases h
        · rename_i next hnext
          -- marking `a` frees the fuel its successors take
          have hsum : ∑ b ∈ all \ insert a seen, size b + size a = ∑ b ∈ all \ seen, size b := by
            have hmem : a ∈ all \ seen := Finset.mem_sdiff.mpr ⟨hin, hgo.2⟩
            have herase : all \ insert a seen = (all \ seen).erase a := by
              rw [Finset.sdiff_insert]
            rw [herase]
            exact Finset.sum_erase_add _ _ hmem
          obtain ⟨hlen, hnextin⟩ := hall a hin next hnext
          have hwork' : ∀ b ∈ next ++ work, skip b = true ∨ b ∈ all := by
            intro b hb
            rcases List.mem_append.mp hb with hb | hb
            · exact hnextin b hb
            · exact hwork b (List.mem_cons_of_mem a hb)
          have hrest := ih hwork' (by rw [List.length_append]; omega) h
          refine ⟨(Finset.subset_insert a seen).trans hrest.subset, fun b hb => ?_, ?_⟩
          · rcases List.mem_cons.mp hb with rfl | hb
            · exact .inr (hrest.subset (Finset.mem_insert_self b seen))
            · exact hrest.started b (List.mem_append_right _ hb)
          · intro b hb hnew
            by_cases hba : b = a
            · subst hba
              exact ⟨hgo.1, next, hnext, fun c hc => hrest.started c (List.mem_append_left _ hc)⟩
            · refine hrest.closed b hb fun hmem => ?_
              exact (Finset.mem_insert.mp hmem).elim hba hnew

end Worklist

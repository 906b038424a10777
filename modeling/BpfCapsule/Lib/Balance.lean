import Mathlib.Data.List.Basic
import Mathlib.Data.List.GetD
import Mathlib.Data.List.Nodup
import Mathlib.Data.List.Perm.Basic
import Mathlib.Tactic.Common

/-!
# Balance

Items are put into bins one after the other, each into the first bin of the least load. With at least
as many items of positive weight as bins, no bin stays empty (`greedy_covers`). `perm_of_keys` says
that items sorted into bins by a key are still all there, `existsUnique_bin` that each is in one bin.
-/

namespace Balance

open scoped List

def least (loads : List Nat) : Nat :=
  (List.range' 1 (loads.length - 1)).foldl
    (fun best bin => if loads.getD bin 0 < loads.getD best 0 then bin else best) 0

def greedy : (loads weights : List Nat) → List Nat
  | _, [] => []
  | loads, weight :: weights =>
    let bin := least loads
    bin :: greedy (loads.set bin (loads.getD bin 0 + weight)) weights

variable {loads weights : List Nat}

/-- The scan keeps the first of the least among what it has seen. -/
theorem foldl_least {bins : List Nat} {best n : Nat} (hbest : best < n) (hbins : ∀ bin ∈ bins, bin < n) :
    let found := bins.foldl
      (fun best bin => if loads.getD bin 0 < loads.getD best 0 then bin else best) best
    found < n ∧ loads.getD found 0 ≤ loads.getD best 0 ∧
      ∀ bin ∈ bins, loads.getD found 0 ≤ loads.getD bin 0 := by
  induction bins generalizing best with
  | nil => exact ⟨hbest, Nat.le_refl _, fun bin hbin => absurd hbin List.not_mem_nil⟩
  | cons bin bins ih =>
    have hrest : ∀ other ∈ bins, other < n := fun other h => hbins other (List.mem_cons_of_mem bin h)
    by_cases hless : loads.getD bin 0 < loads.getD best 0
    · simp only [List.foldl_cons, if_pos hless]
      obtain ⟨hlt, hle, hall⟩ := ih (hbins bin List.mem_cons_self) hrest
      refine ⟨hlt, Nat.le_trans hle (Nat.le_of_lt hless), fun other hother => ?_⟩
      rcases List.mem_cons.mp hother with rfl | hother
      · exact hle
      · exact hall other hother
    · simp only [List.foldl_cons, if_neg hless]
      obtain ⟨hlt, hle, hall⟩ := ih hbest hrest
      refine ⟨hlt, hle, fun other hother => ?_⟩
      rcases List.mem_cons.mp hother with rfl | hother
      · exact Nat.le_trans hle (Nat.le_of_not_lt hless)
      · exact hall other hother

theorem least_spec (hbins : 0 < loads.length) : least loads < loads.length ∧
    ∀ bin < loads.length, loads.getD (least loads) 0 ≤ loads.getD bin 0 := by
  have hscan : ∀ bin ∈ List.range' 1 (loads.length - 1), bin < loads.length := by
    intro bin hbin
    rw [List.mem_range'_1] at hbin
    omega
  obtain ⟨hlt, hle, hall⟩ := foldl_least hbins hscan
  refine ⟨hlt, fun bin hbin => ?_⟩
  cases bin with
  | zero => exact hle
  | succ bin =>
    apply hall
    rw [List.mem_range'_1]
    omega

theorem length_greedy (loads weights : List Nat) : (greedy loads weights).length = weights.length := by
  induction weights generalizing loads with
  | nil => rfl
  | cons weight weights ih => rw [greedy, List.length_cons, ih, List.length_cons]

theorem greedy_lt (hbins : 0 < loads.length) : ∀ bin ∈ greedy loads weights, bin < loads.length := by
  induction weights generalizing loads with
  | nil => exact fun bin hbin => absurd hbin List.not_mem_nil
  | cons weight weights ih =>
    intro bin hbin
    rcases List.mem_cons.mp hbin with rfl | hbin
    · exact (least_spec hbins).1
    · have hrest := ih (by rw [List.length_set]; exact hbins) bin hbin
      rw [List.length_set] at hrest
      exact hrest

/-- Every empty bin gets an item, if there are as many items as empty bins. -/
theorem mem_greedy_of_empty (hweights : ∀ weight ∈ weights, 0 < weight) {bin : Nat}
    (hbin : bin < loads.length) (hempty : loads.getD bin 0 = 0)
    (hcount : loads.count 0 ≤ weights.length) : bin ∈ greedy loads weights := by
  induction weights generalizing loads with
  | nil =>
    have hmem : 0 ∈ loads := by
      rw [← hempty, List.getD_eq_getElem _ _ hbin]
      exact List.getElem_mem hbin
    have hpos := List.count_pos_iff.mpr hmem
    rw [List.length_nil] at hcount
    omega
  | cons weight weights ih =>
    obtain ⟨hlt, hle⟩ := least_spec (Nat.zero_lt_of_lt hbin)
    by_cases hfirst : bin = least loads
    · rw [hfirst]
      exact List.mem_cons_self
    · -- the item goes to another empty bin, and one fewer is left
      have hzero : loads.getD (least loads) 0 = 0 := by
        have := hle bin hbin
        omega
      have hweight := hweights weight List.mem_cons_self
      apply List.mem_cons_of_mem
      apply ih (fun w hw => hweights w (List.mem_cons_of_mem weight hw))
      · rw [List.length_set]
        exact hbin
      · rw [List.getD_eq_getElem?_getD, List.getElem?_set_ne (Ne.symm hfirst),
          ← List.getD_eq_getElem?_getD, hempty]
      · rw [hzero, List.count_set hlt]
        rw [List.getD_eq_getElem _ _ hlt] at hzero
        rw [List.length_cons] at hcount
        have hne : (0 + weight == 0) = false := by
          rw [beq_eq_false_iff_ne]
          omega
        simp only [hzero, hne, beq_self_eq_true, if_true, Bool.false_eq_true, if_false]
        omega

/-- With at least as many positive weights as bins, no bin stays empty. -/
theorem greedy_covers {bins bin : Nat} (hweights : ∀ weight ∈ weights, 0 < weight)
    (hcount : bins ≤ weights.length) (hbin : bin < bins) :
    bin ∈ greedy (List.replicate bins 0) weights := by
  apply mem_greedy_of_empty hweights
  · rw [List.length_replicate]
    exact hbin
  · exact List.getD_replicate _ hbin
  · rw [List.count_replicate_self]
    exact hcount

/-- Sorting into bins by a key loses nothing. -/
theorem perm_of_keys {α : Type*} (key : α → Nat) {n : Nat} {l : List α} (hkeys : ∀ x ∈ l, key x < n) :
    (List.range n).flatMap (fun bin => l.filter (key · == bin)) ~ l := by
  have hbelow : ∀ m, (List.range m).flatMap (fun bin => l.filter (key · == bin)) ~
      l.filter (key · < m) := by
    intro m
    induction m with
    | zero => simp
    | succ m ih =>
      rw [List.range_succ, List.flatMap_append, List.flatMap_singleton]
      have hlow : (l.filter (key · < m + 1)).filter (key · < m) = l.filter (key · < m) := by
        rw [List.filter_filter]
        refine List.filter_congr fun x _ => ?_
        simp only [← Bool.decide_and, decide_eq_decide]
        omega
      have hhigh : (l.filter (key · < m + 1)).filter (fun x => !decide (key x < m)) =
          l.filter (key · == m) := by
        rw [List.filter_filter]
        refine List.filter_congr fun x _ => ?_
        rw [Bool.eq_iff_iff]
        simp
        omega
      calc _
        _ ~ l.filter (key · < m) ++ l.filter (key · == m) := ih.append_right _
        _ ~ l.filter (key · < m + 1) := by
          rw [← hlow, ← hhigh]
          exact List.filter_append_perm _ _
  have hall : l.filter (key · < n) = l := List.filter_eq_self.mpr fun x hx => by simp [hkeys x hx]
  rw [← hall]
  exact (hall.symm ▸ hbelow n)

/-- Bins that together hold no item twice hold each item in one place. -/
theorem existsUnique_bin {α β : Type*} {bins : List β} {items : β → List α}
    (hnodup : (bins.flatMap items).Nodup) {x : α} (hx : x ∈ bins.flatMap items) :
    ∃! i : Nat, ∃ bin, bins[i]? = some bin ∧ x ∈ items bin := by
  obtain ⟨bin, hbin, hmem⟩ := List.mem_flatMap.mp hx
  obtain ⟨i, hi⟩ := List.mem_iff_getElem?.mp hbin
  refine ⟨i, ⟨bin, hi, hmem⟩, ?_⟩
  rintro j ⟨other, hj, hother⟩
  have hapart := List.pairwise_iff_getElem.mp (List.nodup_flatMap.mp hnodup).2
  obtain ⟨hilt, rfl⟩ := List.getElem?_eq_some_iff.mp hi
  obtain ⟨hjlt, rfl⟩ := List.getElem?_eq_some_iff.mp hj
  rcases Nat.lt_trichotomy i j with hlt | heq | hgt
  · exact absurd hother (hapart i j hilt hjlt hlt hmem)
  · exact heq.symm
  · exact absurd hmem (hapart j i hjlt hilt hgt hother)

end Balance

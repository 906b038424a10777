import Mathlib.Order.Nat
import Mathlib.Tactic.Common

/-!
# Balanced comparison trees

A tree over the indices `lo … hi - 1` that halves the range with one test per level: `above m` says
that the wanted index is below `m`. The tree never checks that the wanted index is in the range, so
it always ends at some index of it; `descend_spec` says which.
-/

namespace RangeTree

/-- Follow the tree; `fuel` bounds its depth. -/
def descend (above : Nat → Bool) : (fuel lo hi : Nat) → Nat
  | 0, lo, _ => lo
  | fuel + 1, lo, hi =>
    if hi - lo ≤ 1 then lo
    else
      let middle := lo + (hi - lo) / 2
      if above middle then descend above fuel lo middle else descend above fuel middle hi

/-- The tree ends at an index of the range that is not above the wanted one, unless it is the
first, and whose successor is, unless it is the last. -/
theorem descend_spec (above : Nat → Bool) {fuel lo hi : Nat} (hfuel : hi - lo ≤ fuel)
    (hlt : lo < hi) :
    let i := descend above fuel lo hi
    lo ≤ i ∧ i < hi ∧ (i = lo ∨ above i = false) ∧ (i + 1 = hi ∨ above (i + 1) = true) := by
  induction fuel generalizing lo hi with
  | zero => omega
  | succ fuel ih =>
    unfold descend
    by_cases hone : hi - lo ≤ 1
    · rw [if_pos hone]
      exact ⟨le_rfl, hlt, .inl rfl, .inl (by omega)⟩
    · rw [if_neg hone]
      simp only
      have hmid : lo < lo + (hi - lo) / 2 ∧ lo + (hi - lo) / 2 < hi := by omega
      cases habove : above (lo + (hi - lo) / 2) with
      | true =>
        rw [if_pos rfl]
        obtain ⟨hlo, hhi, hleft, hright⟩ := ih (by omega) hmid.1
        refine ⟨hlo, by omega, hleft, .inr ?_⟩
        rcases hright with heq | h
        · rw [heq, habove]
        · exact h
      | false =>
        rw [if_neg (by simp)]
        obtain ⟨hlo, hhi, hleft, hright⟩ := ih (by omega) hmid.2
        refine ⟨by omega, hhi, .inr ?_, hright⟩
        rcases hleft with heq | h
        · rw [heq, habove]
        · exact h

/-- Over strictly increasing keys the tree finds the index whose keys start at or below the wanted
key and end above it. -/
theorem descend_eq {keys : Nat → Nat} {key n j : Nat} (hj : j < n)
    (hmono : ∀ a b, a < b → b < n → keys a < keys b) (hle : keys j ≤ key)
    (hlt : j + 1 < n → key < keys (j + 1)) :
    descend (fun m => decide (key < keys m)) n 0 n = j := by
  have hweak : ∀ a b, a ≤ b → b < n → keys a ≤ keys b := by
    intro a b hab hb
    rcases Nat.lt_or_eq_of_le hab with hlt | rfl
    · exact (hmono a b hlt hb).le
    · exact le_rfl
  have hspec := descend_spec (fun m => decide (key < keys m)) (Nat.sub_le n 0) (by omega : 0 < n)
  generalize descend (fun m => decide (key < keys m)) n 0 n = i at hspec ⊢
  obtain ⟨-, hi, hleft, hright⟩ := hspec
  simp only [decide_eq_false_iff_not, decide_eq_true_eq] at hleft hright
  rcases Nat.lt_trichotomy i j with hij | hij | hij
  · -- the successor of the found index would be above the key, but it is at most `j`
    have := hweak (i + 1) j hij hj
    omega
  · exact hij
  · -- the found index would start above the key
    have := hweak (j + 1) i hij hi
    omega

end RangeTree

import Mathlib.Algebra.BigOperators.Group.Finset.Basic
import Mathlib.Algebra.Order.BigOperators.Group.Finset
import Mathlib.Data.Fintype.BigOperators
import Mathlib.Tactic.Common

/-!
# Loop nests

Runs of a control-flow graph whose loops have trip counts. A state is a block and, for every loop, how
often it has gone round since it was last entered; a run goes round a loop until its trip count is
used up and leaves it then. The graph is *reducible* for the loops when every closed path stays inside
a loop and goes through its header.

Two visits of a block lie on a closed path, so between them some loop around the block has gone round
(`visit_grows`). Hence a block is executed at most as often as the product of the trip counts around it
(`visits_le_prod`), and at most once more than their sum, each less one, when no loop is entered a
second time (`visits_le_sum`).
-/

namespace LoopNest

structure Loop (V : Type*) where
  header : V
  blocks : Finset V
  trips : Nat

structure State (V ι : Type*) where
  block : V
  rounds : ι → Nat

variable {V ι : Type*} [DecidableEq V]

/-- The rounds after the step to `v`: a jump to the header from inside goes round, one from outside
enters. -/
def nextRounds (loops : ι → Loop V) (s : State V ι) (v : V) (i : ι) : Nat :=
  if v = (loops i).header then
    if s.block ∈ (loops i).blocks then s.rounds i + 1 else 0
  else s.rounds i

/-- A step to `v` respects the trip counts: it goes round only before the last one and leaves only
after it. -/
def Respects (loops : ι → Loop V) (s : State V ι) (v : V) : Prop :=
  ∀ i, s.block ∈ (loops i).blocks →
    (v = (loops i).header → s.rounds i + 1 < (loops i).trips) ∧
    (v ∉ (loops i).blocks → s.rounds i + 1 = (loops i).trips)

structure Step (edge : V → V → Prop) (loops : ι → Loop V) (s s' : State V ι) : Prop where
  edge : edge s.block s'.block
  respects : Respects loops s s'.block
  rounds : s'.rounds = nextRounds loops s s'.block

/-- A run of `n` steps. -/
structure Run (edge : V → V → Prop) (loops : ι → Loop V) (run : Nat → State V ι) (n : Nat) : Prop where
  start : ∀ i, (run 0).rounds i = 0
  step : ∀ t < n, Step edge loops (run t) (run (t + 1))

def Reducible (edge : V → V → Prop) (loops : ι → Loop V) : Prop :=
  ∀ (path : Nat → V) (a b : Nat), a < b → (∀ t, a ≤ t → t < b → edge (path t) (path (t + 1))) →
    path a = path b → ∃ i, (∀ t, a ≤ t → t ≤ b → path t ∈ (loops i).blocks) ∧
      ∃ t, a < t ∧ t ≤ b ∧ path t = (loops i).header

/-- No loop is entered again: a step into a loop finds none of its blocks executed. -/
def EntersOnce (loops : ι → Loop V) (run : Nat → State V ι) (n : Nat) : Prop :=
  ∀ i, ∀ t < n, (run (t + 1)).block = (loops i).header → (run t).block ∉ (loops i).blocks →
    ∀ u ≤ t, (run u).block ∉ (loops i).blocks

def visits (run : Nat → State V ι) (n : Nat) (x : V) : Finset Nat :=
  (Finset.range (n + 1)).filter fun t => (run t).block = x

section

variable {edge : V → V → Prop} {loops : ι → Loop V} {run : Nat → State V ι} {n : Nat}

theorem mem_visits {x : V} {t : Nat} : t ∈ visits run n x ↔ t ≤ n ∧ (run t).block = x := by
  rw [visits, Finset.mem_filter, Finset.mem_range, Nat.lt_succ_iff]

namespace Run

variable (h : Run edge loops run n)

include h

/-- Between entering and leaving, a loop has rounds left. -/
theorem rounds_lt (htrips : ∀ i, 0 < (loops i).trips) {t : Nat} (ht : t ≤ n) (i : ι) :
    (run t).rounds i < (loops i).trips := by
  induction t with
  | zero =>
    rw [h.start i]
    exact htrips i
  | succ t ih =>
    have hstep := h.step t ht
    rw [hstep.rounds, nextRounds]
    split
    · rename_i hheader
      split
      · rename_i hinside
        exact (hstep.respects i hinside).1 hheader
      · exact htrips i
    · exact ih (Nat.le_of_succ_le ht)

theorem rounds_step {t : Nat} (ht : t < n) {i : ι} (hinside : (run t).block ∈ (loops i).blocks) :
    (run (t + 1)).rounds i =
      if (run (t + 1)).block = (loops i).header then (run t).rounds i + 1 else (run t).rounds i := by
  rw [(h.step t ht).rounds, nextRounds, if_pos hinside]

theorem rounds_le_of_inside {i : ι} {a b : Nat} (hab : a ≤ b) (hb : b ≤ n)
    (hinside : ∀ t, a ≤ t → t ≤ b → (run t).block ∈ (loops i).blocks) :
    (run a).rounds i ≤ (run b).rounds i := by
  induction b, hab using Nat.le_induction with
  | base => exact Nat.le_refl _
  | succ b hab ih =>
    have hrest := ih (Nat.le_of_succ_le hb) fun t hat htb => hinside t hat (Nat.le_succ_of_le htb)
    rw [h.rounds_step hb (hinside b hab (Nat.le_succ b))]
    split
    · exact Nat.le_succ_of_le hrest
    · exact hrest

/-- Between two visits of a block, a loop around it has gone round. -/
theorem visit_grows (hreducible : Reducible edge loops) {a b : Nat} (hab : a < b) (hb : b ≤ n)
    (hsame : (run a).block = (run b).block) :
    ∃ i, (run a).block ∈ (loops i).blocks ∧ (run a).rounds i < (run b).rounds i := by
  obtain ⟨i, hinside, t, hat, htb, hheader⟩ := hreducible (fun t => (run t).block) a b hab
    (fun t _ htb => (h.step t (Nat.lt_of_lt_of_le htb hb)).edge) hsame
  refine ⟨i, hinside a (Nat.le_refl a) (Nat.le_of_lt hab), ?_⟩
  -- the step that arrives at the header comes from inside
  obtain ⟨u, rfl⟩ : ∃ u, t = u + 1 := ⟨t - 1, by omega⟩
  have hround : (run (u + 1)).rounds i = (run u).rounds i + 1 := by
    rw [h.rounds_step (by omega) (hinside u (by omega) (by omega)), if_pos hheader]
  have hbefore : (run a).rounds i ≤ (run u).rounds i :=
    h.rounds_le_of_inside (by omega) (by omega) fun t hat htu => hinside t hat (by omega)
  have hafter : (run (u + 1)).rounds i ≤ (run b).rounds i :=
    h.rounds_le_of_inside htb hb fun t hut htb => hinside t (by omega) htb
  omega

/-- Visits are counted by anything that tells two of them apart once a loop around the block has
gone round between them. -/
theorem card_visits_le (hreducible : Reducible edge loops) {κ : Type*} {mark : Nat → κ}
    {marks : Finset κ} {x : V} (hmaps : ∀ t ∈ visits run n x, mark t ∈ marks)
    (hdiffer : ∀ a b i, a < b → b ≤ n → x ∈ (loops i).blocks →
      (run a).rounds i < (run b).rounds i → mark a ≠ mark b) :
    (visits run n x).card ≤ marks.card := by
  have hlt : ∀ a b, a < b → a ∈ visits run n x → b ∈ visits run n x → mark a ≠ mark b := by
    intro a b hab ha hb
    obtain ⟨-, ha⟩ := mem_visits.mp ha
    obtain ⟨hbn, hb⟩ := mem_visits.mp hb
    obtain ⟨i, hinside, hgrows⟩ := h.visit_grows hreducible hab hbn (ha.trans hb.symm)
    exact hdiffer a b i hab hbn (ha ▸ hinside) hgrows
  refine Finset.card_le_card_of_injOn mark hmaps fun a ha b hb heq => ?_
  rcases Nat.lt_trichotomy a b with hab | hab | hab
  · exact absurd heq (hlt a b hab ha hb)
  · exact hab
  · exact absurd heq.symm (hlt b a hab hb ha)

/-! ## Any run -/

/-- **A block is executed at most as often as the trip counts around it allow.** -/
theorem visits_le_prod [Fintype ι] [DecidableEq ι] (hreducible : Reducible edge loops)
    (htrips : ∀ i, 0 < (loops i).trips) (x : V) :
    (visits run n x).card ≤ ∏ i with x ∈ (loops i).blocks, (loops i).trips := by
  -- a visit is told by the rounds of the loops around the block
  let mark (t : Nat) (i : ι) : Nat := if x ∈ (loops i).blocks then (run t).rounds i else 0
  let marks : Finset (ι → Nat) :=
    Fintype.piFinset fun i => if x ∈ (loops i).blocks then Finset.range (loops i).trips else {0}
  have hmaps : ∀ t ∈ visits run n x, mark t ∈ marks := by
    intro t ht
    rw [Fintype.mem_piFinset]
    intro i
    show (if x ∈ (loops i).blocks then (run t).rounds i else 0) ∈ _
    split
    · exact Finset.mem_range.mpr (h.rounds_lt htrips (mem_visits.mp ht).1 i)
    · exact Finset.mem_singleton_self 0
  have hdiffer : ∀ a b i, a < b → b ≤ n → x ∈ (loops i).blocks →
      (run a).rounds i < (run b).rounds i → mark a ≠ mark b := by
    intro a b i _ _ hinside hlt heq
    have hi := congrFun heq i
    simp only [mark, if_pos hinside] at hi
    omega
  calc (visits run n x).card
    _ ≤ marks.card := h.card_visits_le hreducible hmaps hdiffer
    _ = ∏ i, if x ∈ (loops i).blocks then (loops i).trips else 1 := by
      rw [Fintype.card_piFinset]
      refine Finset.prod_congr rfl fun i _ => ?_
      split
      · exact Finset.card_range _
      · exact Finset.card_singleton 0
    _ = ∏ i with x ∈ (loops i).blocks, (loops i).trips := (Finset.prod_filter _ _).symm

/-! ## Runs that enter no loop again -/

theorem rounds_eq_zero (hheader : ∀ i, (loops i).header ∈ (loops i).blocks) {i : ι} {t : Nat} (ht : t ≤ n)
    (houtside : ∀ u ≤ t, (run u).block ∉ (loops i).blocks) : (run t).rounds i = 0 := by
  induction t with
  | zero => exact h.start i
  | succ t ih =>
    have hne : (run (t + 1)).block ≠ (loops i).header := by
      intro heq
      apply houtside (t + 1) (Nat.le_refl _)
      rw [heq]
      exact hheader i
    rw [(h.step t ht).rounds, nextRounds, if_neg hne]
    exact ih (Nat.le_of_succ_le ht) fun u hu => houtside u (Nat.le_succ_of_le hu)

theorem rounds_le (hheader : ∀ i, (loops i).header ∈ (loops i).blocks) (honce : EntersOnce loops run n)
    {a b : Nat} (hab : a ≤ b) (hb : b ≤ n) (i : ι) : (run a).rounds i ≤ (run b).rounds i := by
  induction b, hab using Nat.le_induction with
  | base => exact Nat.le_refl _
  | succ b hab ih =>
    have hrest := ih (Nat.le_of_succ_le hb)
    rw [(h.step b hb).rounds, nextRounds]
    split
    · rename_i hto
      split
      · exact Nat.le_succ_of_le hrest
      · -- entered for the first time, so nothing is lost
        rename_i hfrom
        rw [h.rounds_eq_zero hheader (Nat.le_of_succ_le hb) (honce i b hb hto hfrom)] at hrest
        exact hrest
    · exact hrest

/-- **Entered once, loops add up.** -/
theorem visits_le_sum [Fintype ι] [DecidableEq ι] (hreducible : Reducible edge loops)
    (htrips : ∀ i, 0 < (loops i).trips) (hheader : ∀ i, (loops i).header ∈ (loops i).blocks)
    (honce : EntersOnce loops run n) (x : V) :
    (visits run n x).card ≤ 1 + ∑ i with x ∈ (loops i).blocks, ((loops i).trips - 1) := by
  let total (t : Nat) : Nat := ∑ i with x ∈ (loops i).blocks, (run t).rounds i
  let bound : Nat := ∑ i with x ∈ (loops i).blocks, ((loops i).trips - 1)
  have hmaps : ∀ t ∈ visits run n x, total t ∈ Finset.range (bound + 1) := by
    intro t ht
    have hle : total t ≤ bound := by
      refine Finset.sum_le_sum fun i _ => ?_
      have := h.rounds_lt htrips (mem_visits.mp ht).1 i
      omega
    exact Finset.mem_range.mpr (Nat.lt_succ_of_le hle)
  have hdiffer : ∀ a b i, a < b → b ≤ n → x ∈ (loops i).blocks →
      (run a).rounds i < (run b).rounds i → total a ≠ total b := fun a b i hab hbn hinside hlt =>
    Nat.ne_of_lt (Finset.sum_lt_sum (fun j _ => h.rounds_le hheader honce (Nat.le_of_lt hab) hbn j)
      ⟨i, Finset.mem_filter.mpr ⟨Finset.mem_univ i, hinside⟩, hlt⟩)
  have hcard := h.card_visits_le hreducible hmaps hdiffer
  rw [Finset.card_range] at hcard
  omega

end Run

theorem sum_run_eq (size : V → Nat) {all : Finset V} (hall : ∀ t ≤ n, (run t).block ∈ all) :
    ∑ t ∈ Finset.range (n + 1), size (run t).block = ∑ x ∈ all, (visits run n x).card * size x := by
  have hmaps : ∀ t ∈ Finset.range (n + 1), (run t).block ∈ all := fun t ht =>
    hall t (Nat.lt_succ_iff.mp (Finset.mem_range.mp ht))
  rw [← Finset.sum_fiberwise_of_maps_to hmaps]
  refine Finset.sum_congr rfl fun x _ => ?_
  have hconst : ∀ t ∈ visits run n x, size (run t).block = size x := fun t ht => by
    rw [(mem_visits.mp ht).2]
  exact Finset.sum_const_nat hconst

end

end LoopNest

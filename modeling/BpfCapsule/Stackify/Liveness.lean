import BpfCapsule.Ir.Ssa
import BpfCapsule.Lib.Fixpoint
import Mathlib.Data.Finset.Union

/-!
# BpfCapsule — Stackify's liveness analysis

A value that crosses a suspension has to be in memory, and a verifier pointer must not cross one at
all; `LivenessAnalysis` computes which values cross. It is the iterative backward analysis over basic
blocks, with the operands of a PHI counted on the edge they come in by.

`LiveAt` and `LiveEdge` say what liveness is, by the path to the use; `LiveAt.mem_liveAfter` and
`LiveEdge.mem_liveAcross` say that the analysis misses no live value.
-/

namespace BpfCapsule.Ssa

open Fixpoint (row solve)

namespace Func

variable (f : Func)

def successors (b : Nat) : List Nat := ((f.block? b).map fun block => block.term.successors).getD []

def termVals (b : Nat) : List Val := ((f.block? b).map fun block => block.term.vals).getD []

/-- The values the PHIs of `t` take from the edge out of `b`. -/
def edgeUses (b t : Nat) : List Val :=
  (f.phis t).flatMap fun phi => ((phi.incomingFor b).map Operand.vals).getD []

def phiVals (b : Nat) : List Val := (List.range (f.phis b).length).map (.phi b)

end Func

/-! ## The analysis -/

/-- The values a block reads before it defines them, and those it defines. -/
structure UseDef where
  used : Finset Val
  defined : Finset Val

/-- The scan over the instructions of a block, from the `k`-th on. -/
def scan (b : Nat) : (k : Nat) → List Op → UseDef → UseDef
  | _, [], acc => acc
  | k, op :: ops, acc =>
    scan b (k + 1) ops
      ⟨acc.used ∪ (op.vals.toFinset \ acc.defined), insert (.inst b k) acc.defined⟩

namespace Func

variable (f : Func)

def useDef (b : Nat) : UseDef :=
  let body := scan b 0 (f.body b) ⟨∅, (f.phiVals b).toFinset⟩
  ⟨body.used ∪ ((f.termVals b).toFinset \ body.defined), body.defined⟩

def liveOutOf (liveIn : Nat → Finset Val) (b : Nat) : Finset Val :=
  ((f.successors b).flatMap (f.edgeUses b)).toFinset ∪ (f.successors b).toFinset.biUnion liveIn

def transfer (liveIn : Nat → Finset Val) (b : Nat) : Finset Val :=
  (f.liveOutOf liveIn b \ (f.useDef b).defined) ∪ (f.useDef b).used

def mentioned : Finset Val :=
  ((List.range f.blocks.length).flatMap fun b =>
    (f.body b).flatMap Op.vals ++ f.termVals b ++ (f.successors b).flatMap (f.edgeUses b)).toFinset

/-- `LiveIn_`: sweeps in reverse block order until none changes a set. -/
def liveIn : Nat → Finset Val :=
  row (solve f.transfer (List.range f.blocks.length).reverse f.blocks.length
    (f.blocks.length * f.mentioned.card))

/-- `LiveOut_`. -/
def liveOut (b : Nat) : Finset Val := f.liveOutOf f.liveIn b

end Func

/-- Walk back over the instructions of a block, from its end to its `k`-th one. -/
def walkBack (b : Nat) : (k : Nat) → List Op → Finset Val → Finset Val
  | _, [], live => live
  | k, op :: ops, live => (walkBack b (k + 1) ops live).erase (.inst b k) ∪ op.vals.toFinset

namespace Func

variable (f : Func)

/-- The values live before the `k`-th instruction of a block, or before its terminator. -/
def liveBefore (b k : Nat) : Finset Val :=
  walkBack b k ((f.body b).drop k) (f.liveOut b ∪ (f.termVals b).toFinset)

/-- `liveAfter`: the values that must survive a suspension at the `k`-th instruction. -/
def liveAfter (b k : Nat) : Finset Val := f.liveBefore b (k + 1)

/-- `liveAcross`: the values that cross one edge. -/
def liveAcross (b t : Nat) : Finset Val := f.liveIn t ∪ (f.edgeUses b t).toFinset

end Func

/-! ## Liveness -/

/-- `v` is live before the `k`-th instruction of block `b`, or before its terminator: some path from
there reads it before it is defined again. -/
inductive LiveAt (f : Func) (v : Val) : (b k : Nat) → Prop where
  | use {b k : Nat} {op : Op} (hop : (f.body b)[k]? = some op) (hv : v ∈ op.vals) : LiveAt f v b k
  | pass {b k : Nat} (hk : k < (f.body b).length) (hdef : v ≠ .inst b k)
      (hnext : LiveAt f v b (k + 1)) : LiveAt f v b k
  | terminator {b : Nat} (hv : v ∈ f.termVals b) : LiveAt f v b (f.body b).length
  | phiUse {b t : Nat} (ht : t ∈ f.successors b) (hv : v ∈ f.edgeUses b t) :
      LiveAt f v b (f.body b).length
  | edge {b t : Nat} (ht : t ∈ f.successors b) (hdef : v ∉ f.phiVals t)
      (hnext : LiveAt f v t 0) : LiveAt f v b (f.body b).length

/-- `v` is live across the edge from `b` to `t`. -/
def LiveEdge (f : Func) (v : Val) (b t : Nat) : Prop :=
  v ∈ f.edgeUses b t ∨ (v ∉ f.phiVals t ∧ LiveAt f v t 0)

variable {f : Func} {v : Val} {b k : Nat} {ops : List Op}

theorem LiveEdge.liveAt {t : Nat} (h : LiveEdge f v b t) (ht : t ∈ f.successors b) :
    LiveAt f v b (f.body b).length := by
  rcases h with huse | ⟨hdef, hlive⟩
  · exact .phiUse ht huse
  · exact .edge ht hdef hlive

/-! ## The analysis misses no live value -/

theorem walkBack_mono {live live' : Finset Val} (h : live ⊆ live') :
    walkBack b k ops live ⊆ walkBack b k ops live' := by
  induction ops generalizing k with
  | nil => exact h
  | cons op ops ih =>
    exact Finset.union_subset_union (Finset.erase_subset_erase _ ih) (Finset.Subset.refl _)

theorem walkBack_subset {live : Finset Val} :
    walkBack b k ops live ⊆ live ∪ (ops.flatMap Op.vals).toFinset := by
  induction ops generalizing k with
  | nil => exact Finset.subset_union_left
  | cons op ops ih =>
    intro v hv
    have hrest := @ih (k + 1) v
    simp only [walkBack, Finset.mem_union, Finset.mem_erase, List.mem_toFinset, List.flatMap_cons,
      List.mem_append] at hv hrest ⊢
    tauto

/-- The forward scan and the walk back agree on what a block needs. -/
theorem scan_eq_walkBack {acc : UseDef} {live : Finset Val} :
    (live \ (scan b k ops acc).defined) ∪ (scan b k ops acc).used
      = acc.used ∪ (walkBack b k ops live \ acc.defined) := by
  induction ops generalizing k acc with
  | nil => exact Finset.union_comm _ _
  | cons op ops ih =>
    unfold scan
    rw [ih]
    ext v
    simp only [walkBack, Finset.mem_union, Finset.mem_sdiff, Finset.mem_insert, Finset.mem_erase,
      List.mem_toFinset]
    tauto

namespace Func

variable (f : Func)

theorem transfer_eq (liveIn : Nat → Finset Val) (b : Nat) :
    f.transfer liveIn b
      = walkBack b 0 (f.body b) (f.liveOutOf liveIn b ∪ (f.termVals b).toFinset)
        \ (f.phiVals b).toFinset := by
  let live := f.liveOutOf liveIn b ∪ (f.termVals b).toFinset
  let body := scan b 0 (f.body b) ⟨∅, (f.phiVals b).toFinset⟩
  have hscan : (live \ body.defined) ∪ body.used
      = ∅ ∪ (walkBack b 0 (f.body b) live \ (f.phiVals b).toFinset) := scan_eq_walkBack
  rw [Finset.empty_union] at hscan
  rw [← hscan]
  ext v
  simp only [transfer, useDef, live, body, Finset.mem_union, Finset.mem_sdiff]
  tauto

theorem transfer_mono (r r' : Nat → Finset Val) (h : ∀ b, r b ⊆ r' b) (b : Nat) :
    f.transfer r b ⊆ f.transfer r' b := by
  rw [transfer_eq, transfer_eq]
  refine Finset.sdiff_subset_sdiff (walkBack_mono (Finset.union_subset_union ?_ ?_)) ?_
  · exact Finset.union_subset_union (Finset.Subset.refl _) (Finset.biUnion_mono fun t _ => h t)
  · exact Finset.Subset.refl _
  · exact Finset.Subset.refl _

theorem block?_eq_none (hb : f.blocks.length ≤ b) : f.block? b = none :=
  List.getElem?_eq_none hb

theorem transfer_subset (r : Nat → Finset Val) (h : ∀ b, r b ⊆ f.mentioned) (b : Nat) :
    f.transfer r b ⊆ f.mentioned := by
  rw [transfer_eq]
  refine Finset.sdiff_subset.trans (walkBack_subset.trans ?_)
  intro v hv
  simp only [liveOutOf, Finset.mem_union, Finset.mem_biUnion, List.mem_toFinset] at hv
  by_cases hb : b < f.blocks.length
  · have hmem : v ∈ (f.body b).flatMap Op.vals ++ f.termVals b
        ++ (f.successors b).flatMap (f.edgeUses b) → v ∈ f.mentioned := by
      intro hv
      rw [mentioned, List.mem_toFinset, List.mem_flatMap]
      exact ⟨b, List.mem_range.mpr hb, hv⟩
    rcases hv with ((hedge | ⟨t, _, ht⟩) | hterm) | hbody
    · exact hmem (List.mem_append_right _ hedge)
    · exact h t ht
    · exact hmem (List.mem_append_left _ (List.mem_append_right _ hterm))
    · exact hmem (List.mem_append_left _ (List.mem_append_left _ hbody))
  · have hnone := f.block?_eq_none (Nat.le_of_not_lt hb)
    simp [successors, termVals, body, hnone] at hv

theorem liveIn_eq (hb : b < f.blocks.length) :
    f.liveIn b = f.liveBefore b 0 \ (f.phiVals b).toFinset := by
  have hsolve : f.liveIn b = f.transfer f.liveIn b :=
    Fixpoint.solve_eq f.transfer_mono f.transfer_subset (Nat.le_refl _)
      (List.mem_reverse.mpr (List.mem_range.mpr hb)) hb
  rw [hsolve, transfer_eq]
  rfl

theorem liveBefore_op {op : Op} (hop : (f.body b)[k]? = some op) :
    f.liveBefore b k = (f.liveAfter b k).erase (.inst b k) ∪ op.vals.toFinset := by
  have hdrop : (f.body b).drop k = op :: (f.body b).drop (k + 1) := by
    obtain ⟨hk, hget⟩ := List.getElem?_eq_some_iff.mp hop
    rw [List.drop_eq_getElem_cons hk, hget]
  unfold liveAfter liveBefore
  rw [hdrop]
  rfl

theorem liveBefore_end (b : Nat) :
    f.liveBefore b (f.body b).length = f.liveOut b ∪ (f.termVals b).toFinset := by
  unfold liveBefore
  rw [List.drop_length]
  rfl

theorem liveIn_subset_liveOut {t : Nat} (ht : t ∈ f.successors b) : f.liveIn t ⊆ f.liveOut b := by
  intro v hv
  rw [liveOut, liveOutOf, Finset.mem_union, Finset.mem_biUnion]
  exact .inr ⟨t, List.mem_toFinset.mpr ht, hv⟩

theorem mem_liveIn {t : Nat} (hv : v ∈ f.liveBefore t 0) (hdef : v ∉ f.phiVals t) :
    v ∈ f.liveIn t := by
  by_cases ht : t < f.blocks.length
  · rw [f.liveIn_eq ht, Finset.mem_sdiff, List.mem_toFinset]
    exact ⟨hv, hdef⟩
  · -- a block that does not exist needs nothing
    have hnone := f.block?_eq_none (Nat.le_of_not_lt ht)
    simp [liveBefore, liveOut, liveOutOf, walkBack, successors, termVals, body, hnone] at hv

end Func

/-- Every live value is in the set the analysis computes for its point. -/
theorem LiveAt.mem_liveBefore (h : LiveAt f v b k) : v ∈ f.liveBefore b k := by
  induction h with
  | use hop hv =>
    rw [f.liveBefore_op hop]
    exact Finset.mem_union_right _ (List.mem_toFinset.mpr hv)
  | pass hk hdef _ ih =>
    rw [f.liveBefore_op (List.getElem?_eq_getElem hk)]
    exact Finset.mem_union_left _ (Finset.mem_erase.mpr ⟨hdef, ih⟩)
  | terminator hv =>
    rw [f.liveBefore_end]
    exact Finset.mem_union_right _ (List.mem_toFinset.mpr hv)
  | phiUse ht hv =>
    rw [f.liveBefore_end, Func.liveOut, Func.liveOutOf]
    refine Finset.mem_union_left _ (Finset.mem_union_left _ (List.mem_toFinset.mpr ?_))
    exact List.mem_flatMap.mpr ⟨_, ht, hv⟩
  | edge ht hdef _ ih =>
    rw [f.liveBefore_end]
    exact Finset.mem_union_left _ (f.liveIn_subset_liveOut ht (f.mem_liveIn ih hdef))

theorem LiveEdge.mem_liveAcross {t : Nat} (h : LiveEdge f v b t) : v ∈ f.liveAcross b t := by
  rcases h with huse | ⟨hdef, hlive⟩
  · exact Finset.mem_union_right _ (List.mem_toFinset.mpr huse)
  · exact Finset.mem_union_left _ (f.mem_liveIn hlive.mem_liveBefore hdef)

end BpfCapsule.Ssa

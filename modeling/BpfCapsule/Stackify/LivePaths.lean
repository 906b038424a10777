import BpfCapsule.Stackify.Liveness
import Mathlib.Logic.Relation

/-!
# BpfCapsule — what Stackify's liveness analysis computes

The spill code and the rejection of verifier pointers both act on the sets of `LivenessAnalysis`: a
value it misses is lost at a suspension, and one it adds rejects a program that is fine. Here its
sets are compared with liveness as paths of the control-flow graph say it.

* `Point`, `Next` — the program points and the steps between them. PHI operands are read on the edge
  they come in by, so an edge is a point of its own.
* `Live` — some path reads the value before it comes past its definition.
* `Func.liveAfterInst` — `liveAfter` at any instruction, PHIs and terminators included.
* `liveness_exact` — the sweeps end, and both queries answer exactly `Live`.
-/

namespace BpfCapsule.Ssa

open Fixpoint (row)

/-! ## Program points and paths -/

/-- At an instruction of a block, before it is executed, or on an edge. -/
inductive Point where
  | phi (b j : Nat)
  | op (b k : Nat)
  | term (b : Nat)
  | edge (b t : Nat)
  deriving DecidableEq, Repr

namespace Func

variable (f : Func)

/-- The point at the `k`-th instruction behind the PHIs, or at the terminator. -/
def opPoint (b k : Nat) : Point := if k < (f.body b).length then .op b k else .term b

/-- The point at the `j`-th PHI, or behind the PHIs. -/
def phiPoint (b j : Nat) : Point := if j < (f.phis b).length then .phi b j else f.opPoint b 0

def readsAt : Point → List Val
  | .phi _ _ => []
  | .op b k => (((f.body b)[k]?).map Op.vals).getD []
  | .term b => f.termVals b
  | .edge b t => f.edgeUses b t

def IsInst : Point → Prop
  | .phi b j => j < (f.phis b).length
  | .op b k => k < (f.body b).length
  | .term b => b < f.blocks.length
  | .edge _ _ => False

end Func

def Point.defines : Point → Option Val
  | .phi b j => some (.phi b j)
  | .op b k => some (.inst b k)
  | .term _ | .edge _ _ => none

inductive Next (f : Func) : Point → Point → Prop where
  | phi {b j : Nat} (hj : j < (f.phis b).length) : Next f (.phi b j) (f.phiPoint b (j + 1))
  | op {b k : Nat} (hk : k < (f.body b).length) : Next f (.op b k) (f.opPoint b (k + 1))
  | term {b t : Nat} (ht : t ∈ f.successors b) : Next f (.term b) (.edge b t)
  | edge {b t : Nat} (ht : t ∈ f.successors b) : Next f (.edge b t) (f.phiPoint t 0)

/-- A step that does not come past the definition of `v`. -/
def Avoids (f : Func) (v : Val) (p q : Point) : Prop := Next f p q ∧ p.defines ≠ some v

/-- A path from `p` leads to a use of `v` and does not come past the definition of `v`. -/
def Live (f : Func) (v : Val) (p : Point) : Prop :=
  ∃ q, Relation.ReflTransGen (Avoids f v) p q ∧ v ∈ f.readsAt q

/-- `v` is live right after the instruction at `p`. -/
def LiveAfter (f : Func) (v : Val) (p : Point) : Prop := ∃ q, Next f p q ∧ Live f v q

variable {f : Func} {v : Val} {p : Point} {b k : Nat}

theorem Live.of_avoids {q : Point} (hpq : Avoids f v p q) (hq : Live f v q) : Live f v p := by
  obtain ⟨r, hpath, hread⟩ := hq
  exact ⟨r, .head hpq hpath, hread⟩

/-- A live value is read here, or not defined here and live at a next point. -/
theorem live_iff : Live f v p ↔ v ∈ f.readsAt p ∨ (p.defines ≠ some v ∧ LiveAfter f v p) := by
  constructor
  · intro ⟨q, hpath, hread⟩
    cases Relation.ReflTransGen.cases_head hpath with
    | inl heq => exact .inl (heq ▸ hread)
    | inr hstep =>
      obtain ⟨r, ⟨hnext, hdef⟩, hrest⟩ := hstep
      exact .inr ⟨hdef, r, hnext, q, hrest, hread⟩
  · intro h
    rcases h with hread | ⟨hdef, q, hnext, hlive⟩
    · exact ⟨p, .refl, hread⟩
    · exact .of_avoids ⟨hnext, hdef⟩ hlive

/-! ## Paths within a block -/

section Block

variable {t : Nat}

theorem liveAfter_op (hk : k < (f.body b).length) :
    LiveAfter f v (.op b k) ↔ Live f v (f.opPoint b (k + 1)) := by
  constructor
  · intro ⟨q, hnext, hlive⟩
    cases hnext with
    | op _ => exact hlive
  · intro hlive
    exact ⟨_, .op hk, hlive⟩

theorem liveAfter_phi {j : Nat} (hj : j < (f.phis b).length) :
    LiveAfter f v (.phi b j) ↔ Live f v (f.phiPoint b (j + 1)) := by
  constructor
  · intro ⟨q, hnext, hlive⟩
    cases hnext with
    | phi _ => exact hlive
  · intro hlive
    exact ⟨_, .phi hj, hlive⟩

theorem liveAfter_edge (ht : t ∈ f.successors b) :
    LiveAfter f v (.edge b t) ↔ Live f v (f.phiPoint t 0) := by
  constructor
  · intro ⟨q, hnext, hlive⟩
    cases hnext with
    | edge _ => exact hlive
  · intro hlive
    exact ⟨_, .edge ht, hlive⟩

theorem liveAfter_term : LiveAfter f v (.term b) ↔ ∃ t ∈ f.successors b, Live f v (.edge b t) := by
  constructor
  · intro ⟨q, hnext, hlive⟩
    cases hnext with
    | term ht => exact ⟨_, ht, hlive⟩
  · intro ⟨t, ht, hlive⟩
    exact ⟨_, .term ht, hlive⟩

/-- Coming past the PHIs from the `j`-th on, a value has to be none of them. -/
theorem live_phiPoint {j : Nat} (hj : j ≤ (f.phis b).length) :
    Live f v (f.phiPoint b j) ↔
      (∀ i, j ≤ i → i < (f.phis b).length → v ≠ .phi b i) ∧ Live f v (f.opPoint b 0) := by
  -- the induction is on the number of PHIs still ahead
  induction hn : (f.phis b).length - j generalizing j with
  | zero =>
    have hend : ¬ j < (f.phis b).length := by omega
    unfold Func.phiPoint
    rw [if_neg hend]
    constructor
    · exact fun h => ⟨fun i hi hlt => absurd (Nat.lt_of_le_of_lt hi hlt) hend, h⟩
    · exact fun h => h.2
  | succ n ih =>
    have hlt : j < (f.phis b).length := by omega
    have hhere : f.phiPoint b j = .phi b j := if_pos hlt
    rw [hhere, live_iff, liveAfter_phi hlt, ih hlt (by omega)]
    constructor
    · intro h
      rcases h with hread | ⟨hdef, hlater, hlive⟩
      · exact absurd hread List.not_mem_nil
      · refine ⟨fun i hi hilt => ?_, hlive⟩
        rcases Nat.lt_or_eq_of_le hi with hji | rfl
        · exact hlater i hji hilt
        · exact fun heq => hdef (congrArg some heq.symm)
    · intro ⟨hnot, hlive⟩
      refine .inr ⟨fun heq => ?_, fun i hi => hnot i (by omega), hlive⟩
      exact hnot j (Nat.le_refl j) hlt (Option.some.inj heq).symm

theorem mem_phiVals : v ∈ f.phiVals b ↔ ∃ i < (f.phis b).length, v = .phi b i := by
  unfold Func.phiVals
  rw [List.mem_map]
  constructor
  · intro ⟨i, hi, heq⟩
    exact ⟨i, List.mem_range.mp hi, heq.symm⟩
  · intro ⟨i, hi, heq⟩
    exact ⟨i, List.mem_range.mpr hi, heq.symm⟩

theorem live_phiPoint_zero :
    Live f v (f.phiPoint b 0) ↔ v ∉ f.phiVals b ∧ Live f v (f.opPoint b 0) := by
  rw [live_phiPoint (Nat.zero_le _), mem_phiVals]
  constructor
  · intro ⟨hnot, hlive⟩
    exact ⟨fun ⟨i, hi, heq⟩ => hnot i (Nat.zero_le i) hi heq, hlive⟩
  · intro ⟨hnot, hlive⟩
    exact ⟨fun i _ hi heq => hnot ⟨i, hi, heq⟩, hlive⟩

theorem live_edge (ht : t ∈ f.successors b) :
    Live f v (.edge b t) ↔
      v ∈ f.edgeUses b t ∨ (v ∉ f.phiVals t ∧ Live f v (f.opPoint t 0)) := by
  rw [live_iff, liveAfter_edge ht, live_phiPoint_zero]
  show v ∈ f.edgeUses b t ∨ ((none : Option Val) ≠ some v ∧ _) ↔ _
  simp

theorem live_term :
    Live f v (.term b) ↔ v ∈ f.termVals b ∨ ∃ t ∈ f.successors b, Live f v (.edge b t) := by
  rw [live_iff, liveAfter_term]
  show v ∈ f.termVals b ∨ ((none : Option Val) ≠ some v ∧ _) ↔ _
  simp

end Block

/-! ## Paths and `LiveAt` -/

theorem LiveAt.live (h : LiveAt f v b k) : Live f v (f.opPoint b k) := by
  have hend (b : Nat) : f.opPoint b (f.body b).length = .term b := if_neg (Nat.lt_irrefl _)
  induction h with
  | @use b k op hop hv =>
    obtain ⟨hk, -⟩ := List.getElem?_eq_some_iff.mp hop
    have hhere : f.opPoint b k = .op b k := if_pos hk
    rw [hhere, live_iff]
    refine .inl ?_
    show v ∈ (((f.body b)[k]?).map Op.vals).getD []
    rwa [hop]
  | @pass b k hk hdef _ ih =>
    have hhere : f.opPoint b k = .op b k := if_pos hk
    rw [hhere, live_iff, liveAfter_op hk]
    exact .inr ⟨fun heq => hdef (Option.some.inj heq).symm, ih⟩
  | terminator hv =>
    rw [hend, live_term]
    exact .inl hv
  | phiUse ht hv =>
    rw [hend, live_term]
    exact .inr ⟨_, ht, (live_edge ht).mpr (.inl hv)⟩
  | edge ht hdef _ ih =>
    rw [hend, live_term]
    exact .inr ⟨_, ht, (live_edge ht).mpr (.inr ⟨hdef, ih⟩)⟩

/-- What a path from a point reads, as `LiveAt` says it. -/
def PointLive (f : Func) (v : Val) : Point → Prop
  | .phi b j => (∀ i, j ≤ i → i < (f.phis b).length → v ≠ .phi b i) ∧ LiveAt f v b 0
  | .op b k => LiveAt f v b k
  | .term b => LiveAt f v b (f.body b).length
  | .edge b t => LiveEdge f v b t

theorem pointLive_opPoint (hk : k ≤ (f.body b).length) :
    PointLive f v (f.opPoint b k) ↔ LiveAt f v b k := by
  unfold Func.opPoint
  split
  · exact Iff.rfl
  · have heq : k = (f.body b).length := by omega
    rw [heq]
    exact Iff.rfl

theorem pointLive_phiPoint {j : Nat} :
    PointLive f v (f.phiPoint b j) ↔
      (∀ i, j ≤ i → i < (f.phis b).length → v ≠ .phi b i) ∧ LiveAt f v b 0 := by
  unfold Func.phiPoint
  split
  · exact Iff.rfl
  · rename_i hend
    rw [pointLive_opPoint (Nat.zero_le _)]
    exact ⟨fun h => ⟨fun i hi hlt => absurd (Nat.lt_of_le_of_lt hi hlt) hend, h⟩, fun h => h.2⟩

/-- One step back along a path. -/
theorem PointLive.of_avoids {q : Point} (hpq : Avoids f v p q) (hq : PointLive f v q) :
    PointLive f v p := by
  obtain ⟨hnext, hdef⟩ := hpq
  cases hnext with
  | @phi b j hj =>
    obtain ⟨hlater, hlive⟩ := pointLive_phiPoint.mp hq
    refine ⟨fun i hi hlt => ?_, hlive⟩
    rcases Nat.lt_or_eq_of_le hi with hji | rfl
    · exact hlater i hji hlt
    · exact fun heq => hdef (congrArg some heq.symm)
  | @op b k hk =>
    have hrest : LiveAt f v b (k + 1) := (pointLive_opPoint hk).mp hq
    exact .pass hk (fun heq => hdef (congrArg some heq.symm)) hrest
  | term ht => exact LiveEdge.liveAt hq ht
  | @edge b t ht =>
    obtain ⟨hnot, hlive⟩ := pointLive_phiPoint.mp hq
    refine .inr ⟨fun hmem => ?_, hlive⟩
    obtain ⟨i, hi, heq⟩ := mem_phiVals.mp hmem
    exact hnot i (Nat.zero_le i) hi heq

theorem PointLive.of_reads (hv : v ∈ f.readsAt p) : PointLive f v p := by
  cases p with
  | phi b j => exact absurd hv List.not_mem_nil
  | op b k =>
    have hread : v ∈ (((f.body b)[k]?).map Op.vals).getD [] := hv
    cases hop : (f.body b)[k]? with
    | none =>
      rw [hop] at hread
      exact absurd hread List.not_mem_nil
    | some op =>
      rw [hop] at hread
      exact .use hop hread
  | term b => exact .terminator hv
  | edge b t => exact .inl hv

theorem Live.pointLive (h : Live f v p) : PointLive f v p := by
  obtain ⟨q, hpath, hread⟩ := h
  induction hpath using Relation.ReflTransGen.head_induction_on with
  | refl => exact .of_reads hread
  | head hstep _ ih => exact .of_avoids hstep ih

theorem live_opPoint_iff (hk : k ≤ (f.body b).length) : Live f v (f.opPoint b k) ↔ LiveAt f v b k :=
  ⟨fun h => (pointLive_opPoint hk).mp h.pointLive, LiveAt.live⟩

theorem live_edge_iff {t : Nat} (ht : t ∈ f.successors b) :
    Live f v (.edge b t) ↔ LiveEdge f v b t := by
  rw [live_edge ht, live_opPoint_iff (Nat.zero_le _)]
  exact Iff.rfl

/-! ## The analysis adds no value -/

/-- The walk back over a block finds only values with a path to a use. -/
theorem liveAt_of_mem_walkBack {live : Finset Val} (hk : k ≤ (f.body b).length)
    (hlive : v ∈ live → LiveAt f v b (f.body b).length)
    (hv : v ∈ walkBack b k ((f.body b).drop k) live) : LiveAt f v b k := by
  induction hn : (f.body b).length - k generalizing k with
  | zero =>
    have heq : k = (f.body b).length := by omega
    rw [heq, List.drop_length] at hv
    exact heq ▸ hlive hv
  | succ n ih =>
    have hlt : k < (f.body b).length := by omega
    rw [List.drop_eq_getElem_cons hlt] at hv
    simp only [walkBack, Finset.mem_union, Finset.mem_erase, List.mem_toFinset] at hv
    rcases hv with ⟨hdef, hrest⟩ | hread
    · exact .pass hlt hdef (ih hlt hrest (by omega))
    · exact .use (List.getElem?_eq_getElem hlt) hread

section Precise

variable (f : Func)

/-- The values live out of a block, when the sets of its successors hold live values only. -/
theorem liveAt_of_mem_liveOutOf {liveIn : Nat → Finset Val}
    (hin : ∀ t, ∀ v ∈ liveIn t, v ∉ f.phiVals t ∧ LiveAt f v t 0)
    (hv : v ∈ f.liveOutOf liveIn b) : ∃ t ∈ f.successors b, LiveEdge f v b t := by
  rw [Func.liveOutOf, Finset.mem_union, List.mem_toFinset, List.mem_flatMap,
    Finset.mem_biUnion] at hv
  rcases hv with ⟨t, ht, huse⟩ | ⟨t, ht, hlive⟩
  · exact ⟨t, ht, .inl huse⟩
  · exact ⟨t, List.mem_toFinset.mp ht, .inr (hin t v hlive)⟩

/-- One block of a sweep keeps the sets to live values. -/
theorem transfer_precise (liveIn : Nat → Finset Val)
    (hin : ∀ t, ∀ v ∈ liveIn t, v ∉ f.phiVals t ∧ LiveAt f v t 0) (b : Nat) (v : Val)
    (hv : v ∈ f.transfer liveIn b) : v ∉ f.phiVals b ∧ LiveAt f v b 0 := by
  rw [Func.transfer_eq, Finset.mem_sdiff, List.mem_toFinset] at hv
  refine ⟨hv.2, liveAt_of_mem_walkBack (Nat.zero_le _) (fun hend => ?_) hv.1⟩
  rcases Finset.mem_union.mp hend with hout | hterm
  · obtain ⟨t, ht, hlive⟩ := liveAt_of_mem_liveOutOf f hin hout
    exact hlive.liveAt ht
  · exact .terminator (List.mem_toFinset.mp hterm)

theorem liveIn_precise (hv : v ∈ f.liveIn b) : v ∉ f.phiVals b ∧ LiveAt f v b 0 :=
  Fixpoint.solve_forall (transfer_precise f) hv

theorem mem_liveOut_iff : v ∈ f.liveOut b ↔ ∃ t ∈ f.successors b, LiveEdge f v b t := by
  constructor
  · exact liveAt_of_mem_liveOutOf f fun t v => liveIn_precise f
  · intro ⟨t, ht, hlive⟩
    rw [Func.liveOut, Func.liveOutOf, Finset.mem_union, List.mem_toFinset, List.mem_flatMap]
    rcases hlive with huse | ⟨hdef, hat⟩
    · exact .inl ⟨t, ht, huse⟩
    · refine .inr (Finset.mem_biUnion.mpr ⟨t, List.mem_toFinset.mpr ht, ?_⟩)
      exact f.mem_liveIn hat.mem_liveBefore hdef

theorem mem_liveBefore_iff (hk : k ≤ (f.body b).length) :
    v ∈ f.liveBefore b k ↔ LiveAt f v b k := by
  refine ⟨liveAt_of_mem_walkBack hk fun hend => ?_, LiveAt.mem_liveBefore⟩
  rcases Finset.mem_union.mp hend with hout | hterm
  · obtain ⟨t, ht, hlive⟩ := (mem_liveOut_iff f).mp hout
    exact hlive.liveAt ht
  · exact .terminator (List.mem_toFinset.mp hterm)

theorem mem_liveAcross_iff {t : Nat} : v ∈ f.liveAcross b t ↔ LiveEdge f v b t := by
  refine ⟨fun hv => ?_, LiveEdge.mem_liveAcross⟩
  rcases Finset.mem_union.mp hv with hlive | huse
  · exact .inr (liveIn_precise f hlive)
  · exact .inl (List.mem_toFinset.mp huse)

end Precise

/-! ## The two queries -/

namespace Func

variable (f : Func)

/-- The walk back over the PHIs of a block, from the last one to the `j`-th. -/
def liveBeforePhi (b j : Nat) : Finset Val :=
  (((List.range (f.phis b).length).drop j).map (Val.phi b)).foldr (fun v live => live.erase v)
    (f.liveBefore b 0)

/-- `liveAfter` at any instruction. -/
def liveAfterInst : Point → Finset Val
  | .phi b j => f.liveBeforePhi b (j + 1)
  | .op b k => f.liveAfter b k
  | .term b => f.liveOut b
  | .edge _ _ => ∅

/-- One round of the `while` loop: `LiveIn_` of every block, the last one first. -/
def liveSweep (table : List (Finset Val)) : List (Finset Val) :=
  Fixpoint.sweep f.transfer (List.range f.blocks.length).reverse table

/-- The loop is left after a round that changed no set, with the sets `liveIn` reads. -/
theorem liveSweep_ends :
    ∃ n, let table := f.liveSweep^[n] (List.replicate f.blocks.length ∅)
      f.liveSweep table = table ∧ row table = f.liveIn := by
  obtain ⟨n, hn⟩ := Fixpoint.stabilise_eq_iterate f.liveSweep
    (f.blocks.length * f.mentioned.card) (List.replicate f.blocks.length ∅)
  refine ⟨n, ?_⟩
  rw [← hn]
  exact ⟨(Fixpoint.sweep_solve f.transfer_mono f.transfer_subset (Nat.le_refl _) _).1, rfl⟩

end Func

theorem mem_foldr_erase {vals : List Val} {live : Finset Val} :
    v ∈ vals.foldr (fun v live => live.erase v) live ↔ v ∉ vals ∧ v ∈ live := by
  induction vals with
  | nil => simp
  | cons w vals ih =>
    rw [List.foldr_cons, Finset.mem_erase, ih, List.mem_cons, not_or, and_assoc]

theorem mem_liveBeforePhi_iff {j : Nat} (hj : j ≤ (f.phis b).length) :
    v ∈ f.liveBeforePhi b j ↔ Live f v (f.phiPoint b j) := by
  rw [live_phiPoint hj, live_opPoint_iff (Nat.zero_le _), ← mem_liveBefore_iff f (Nat.zero_le _)]
  unfold Func.liveBeforePhi
  rw [mem_foldr_erase]
  refine and_congr_left fun _ => ?_
  have hdrop : (List.range (f.phis b).length).drop j
      = List.range' j ((f.phis b).length - j) := by
    rw [List.range_eq_range', List.drop_range', Nat.zero_add, Nat.mul_one]
  rw [hdrop, List.mem_map]
  constructor
  · intro hnot i hi hlt heq
    exact hnot ⟨i, List.mem_range'_1.mpr ⟨hi, by omega⟩, heq.symm⟩
  · intro hnot ⟨i, hi, heq⟩
    obtain ⟨hji, hlt⟩ := List.mem_range'_1.mp hi
    exact hnot i hji (by omega) heq.symm

theorem mem_liveAfterInst_iff (hp : f.IsInst p) : v ∈ f.liveAfterInst p ↔ LiveAfter f v p := by
  cases p with
  | phi b j =>
    rw [liveAfter_phi hp]
    exact mem_liveBeforePhi_iff hp
  | op b k =>
    rw [liveAfter_op hp, live_opPoint_iff hp]
    exact mem_liveBefore_iff f hp
  | term b =>
    rw [liveAfter_term]
    refine (mem_liveOut_iff f).trans (exists_congr fun t => and_congr_right fun ht => ?_)
    exact (live_edge_iff ht).symm
  | edge b t => exact hp.elim

/-- The analysis ends on every function, and its two queries name exactly the values that some path
from the point in question reads before it comes past their definition. -/
theorem liveness_exact (f : Func) :
    (∃ n, let table := f.liveSweep^[n] (List.replicate f.blocks.length ∅)
      f.liveSweep table = table ∧ row table = f.liveIn) ∧
    (∀ p, f.IsInst p → ∀ v, v ∈ f.liveAfterInst p ↔ LiveAfter f v p) ∧
    (∀ b, ∀ t ∈ f.successors b, ∀ v, v ∈ f.liveAcross b t ↔ Live f v (.edge b t)) := by
  refine ⟨f.liveSweep_ends, fun p hp v => mem_liveAfterInst_iff hp, fun b t ht v => ?_⟩
  rw [live_edge_iff ht]
  exact mem_liveAcross_iff f

def counting : Func where
  args := [.ordinary]
  blocks := [
    ⟨[], [], .jump [] [1]⟩,
    ⟨[[(0, .val (.arg 0)), (1, .val (.inst 1 0))]], [.compute [.val (.phi 1 0)]],
      .jump [.val (.phi 1 0)] [1, 2]⟩,
    ⟨[], [], .ret (some (.val (.inst 1 0)))⟩]
  sectioned _ := false

/-- The counter crosses the back edge, and the PHI it feeds does not. -/
theorem liveness_exact_counting :
    LiveAfter counting (.inst 1 0) (.op 1 0) ∧ Live counting (.inst 1 0) (.edge 1 1) ∧
      ¬ Live counting (.phi 1 0) (.edge 1 1) := by
  have hinst : counting.IsInst (.op 1 0) := by
    show 0 < (counting.body 1).length
    decide
  have hsucc : 1 ∈ counting.successors 1 := by decide
  obtain ⟨-, hafter, hacross⟩ := liveness_exact counting
  refine ⟨(hafter _ hinst _).mp (by decide), (hacross 1 1 hsucc _).mp (by decide), ?_⟩
  exact fun h => absurd ((hacross 1 1 hsucc _).mpr h) (by decide)

end BpfCapsule.Ssa

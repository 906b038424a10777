import BpfCapsule.Stackify.Dispatch

/-!
# BpfCapsule — every region ID reaches its own region

`PackRegionIds` hands out region IDs step by step; `Dispatch` follows a word through the lifecycle
tests, the switch on the low byte, the units of a root and the regions of a unit. Here the two meet:

* `packUnits` numbers the states of a root without gaps and never twice (`packUnits_pairwise`,
  `packUnits_dense`);
* the search key of a state is its index times a constant stride, so both comparison trees run over
  strictly increasing keys and end at the owner (`route_owner`, `unitRegion_owner`);
* `region_dispatch_exact` puts the pieces together for both steps and both dispatch modes.

A region ID of a borrowed-context unit is refused by the scalar step because no step key reaches the
low byte of the completion sentinel; the root policy keeps it that way (`RootClass.Balanced.le`).
-/

namespace BpfCapsule.Stackify

open Packed

/-! ## The root policy -/

def maxMergeRoots : Nat := 64

def rootLoadTarget : Nat := 7500

/-- `RootClass`: the units of one ABI class, their load, and the roots the class has so far. -/
structure RootClass where
  units : Nat
  load : Nat
  roots : Nat

/-- `DesiredRoots`: the largest power of two below the load-derived count and the caps. -/
def RootClass.desiredRoots (c : RootClass) : Nat :=
  let ideal := max 1 ((c.load + rootLoadTarget - 1) / rootLoadTarget)
  2 ^ Nat.log2 (min ideal (min maxMergeRoots c.units))

def RootClass.splittable (budget : Nat) (c : RootClass) : Bool :=
  decide (c.roots < c.desiredRoots) && decide (c.roots ≤ budget)

/-- The class to split after one more candidate: the one with the most load for each root. -/
def betterClass (budget : Nat) (classes : List RootClass) (best : Option Nat) :
    RootClass × Nat → Option Nat
  | (c, index) =>
    if c.splittable budget then
      match best.bind fun b => classes[b]? with
      | none => some index
      | some b => if b.load * c.roots < c.load * b.roots then some index else best
    else best

def bestClass (budget : Nat) (classes : List RootClass) : Option Nat :=
  classes.zipIdx.foldl (betterClass budget classes) none

def splitRoots : (fuel budget : Nat) → List RootClass → List RootClass
  | 0, _, classes => classes
  | fuel + 1, budget, classes =>
    match bestClass budget classes with
    | none => classes
    | some best =>
      let added := (classes[best]?.map RootClass.roots).getD 0
      splitRoots fuel (budget - added)
        (classes.modify best fun c => { c with roots := 2 * c.roots })

/-! ## Packed words -/

variable {index step budget : Nat} {classes : List RootClass} {c : RootClass}

theorem packId_eq (hstep : step < 256) : packId index step = index * 256 + step := by
  unfold packId
  rw [← Nat.shiftLeft_add_eq_or_of_lt (show step < 2 ^ 8 from hstep), Nat.shiftLeft_eq]

theorem packId_and_stepMask (hstep : step < 256) : packId index step &&& stepMask = step := by
  rw [packId_eq hstep, show stepMask = 2 ^ 8 - 1 from rfl, Nat.and_two_pow_sub_one_eq_mod]
  omega

theorem packId_shiftRight (hstep : step < 256) : packId index step >>> 8 = index := by
  rw [packId_eq hstep, Nat.shiftRight_eq_div_pow]
  omega

theorem packId_and_indexMask (hindex : index < 2 ^ 16) (hstep : step < 256) :
    packId index step &&& indexMask = index * 256 := by
  have hlow : step &&& (0xffff <<< 8) = 0 := by
    refine Nat.eq_of_testBit_eq fun bit => ?_
    rw [Nat.testBit_and, Nat.testBit_shiftLeft, Nat.zero_testBit]
    by_cases hbit : 8 ≤ bit
    · have hhigh : step < 2 ^ bit := hstep.trans_le (Nat.pow_le_pow_right Nat.two_pos hbit)
      rw [Nat.testBit_lt_two_pow hhigh, Bool.false_and]
    · simp [hbit]
  unfold packId
  rw [show indexMask = 0xffff <<< 8 from rfl, Nat.and_or_distrib_right, hlow, Nat.or_zero,
    ← Nat.shiftLeft_and_distrib, show (0xffff : Nat) = 2 ^ 16 - 1 from rfl,
    Nat.and_two_pow_sub_one_eq_mod, Nat.mod_eq_of_lt hindex, Nat.shiftLeft_eq]

/-! ## What packing hands out -/

def PackedUnit.indexes (u : PackedUnit) : List Nat := List.range' u.first u.states.length

def Packed.ids (P : Packed) : List Nat :=
  P.units.flatMap fun u => (List.range u.states.length).map u.id

section PackUnits

variable {plan : Plan} {next : Nat → Nat} {us : List AllocationUnit} {v : PackedUnit}

theorem mem_packUnits (hv : v ∈ packUnits plan next us) :
    ∃ u ∈ us, v.borrowed = u.borrowed ∧ v.outputRoot = u.outputRoot ∧
      v.step = plan.stepForUnit u := by
  induction us generalizing next with
  | nil => cases hv
  | cons u us ih =>
    rcases List.mem_cons.mp hv with rfl | hv
    · exact ⟨u, List.mem_cons_self, rfl, rfl, rfl⟩
    · obtain ⟨w, hw, h⟩ := ih hv
      exact ⟨w, List.mem_cons_of_mem u hw, h⟩

/-- A unit starts at or after the next free index of its step. -/
theorem next_le_first (hv : v ∈ packUnits plan next us) : next v.step ≤ v.first := by
  induction us generalizing next with
  | nil => cases hv
  | cons u us ih =>
    rcases List.mem_cons.mp hv with rfl | hv
    · exact Nat.le_refl _
    · have hrest := ih hv
      by_cases hstep : v.step = plan.stepForUnit u
      · rw [hstep, Function.update_self] at hrest
        rw [hstep]
        omega
      · rwa [Function.update_of_ne hstep] at hrest

/-- Units of one step take consecutive ranges of indices. -/
theorem packUnits_pairwise : (packUnits plan next us).Pairwise fun a b =>
    a.step = b.step → a.first + a.states.length ≤ b.first := by
  induction us generalizing next with
  | nil => exact List.Pairwise.nil
  | cons u us ih =>
    refine List.Pairwise.cons (fun b hb hstep => ?_) ih
    have hfirst := next_le_first hb
    rw [← hstep, Function.update_self] at hfirst
    rw [List.length_insertionSort]
    exact hfirst

/-- The indexes of a step are consecutive, over all its units. -/
theorem packUnits_dense (k : Nat) :
    ((packUnits plan next us).filter fun u => u.step == k).flatMap PackedUnit.indexes
      = List.range' (next k)
          (((packUnits plan next us).filter fun u => u.step == k).map fun u =>
            u.states.length).sum := by
  induction us generalizing next with
  | nil => rfl
  | cons u us ih =>
    unfold packUnits
    rw [List.filter_cons]
    split
    case isTrue hstep =>
      -- this unit takes the next indexes, the rest of the step goes on behind it
      have hk : plan.stepForUnit u = k := by simpa using hstep
      rw [List.flatMap_cons, ih, List.map_cons, List.sum_cons, ← List.range'_append_1, hk,
        Function.update_self]
      simp only [PackedUnit.indexes, List.length_insertionSort]
    case isFalse hstep =>
      have hk : k ≠ plan.stepForUnit u := fun h => hstep (by simp [h])
      rw [ih, Function.update_of_ne hk]

end PackUnits

/-! ## Steps, classes and roots -/

section Accepted

variable {plan : Plan} {P : Packed} {u : PackedUnit}

structure Packed.Accepted (plan : Plan) (P : Packed) : Prop where
  units : P.units = packUnits plan (fun _ => 1) plan.units
  indirect : P.indirect = plan.indirect
  scalarRoots : P.scalarRoots = plan.scalarRoots
  borrowedRoots : P.borrowedRoots = plan.borrowedRoots
  scalarStepCount : P.scalarStepCount = plan.scalarStepCount
  steps : plan.scalarStepCount + plan.borrowedStepCount ≤ 256
  states : ∀ u ∈ P.units, 0 < u.states.length
  indexes : ∀ u ∈ P.units, u.first + u.states.length ≤ 2 ^ 16

theorem Packed.Accepted.of_pack (hP : plan.pack = some P) : Accepted plan P := by
  have hne (u : PackedUnit) (hu : u ∈ P.units) : 0 < u.states.length :=
    List.length_pos_iff.mpr (states_ne_nil_of_pack hP hu)
  unfold Plan.pack at hP
  simp only at hP
  split at hP
  · cases hP
  rename_i hcount
  split at hP
  · cases hP
  rename_i hany
  split at hP
  · cases hP
  cases hP
  refine ⟨rfl, rfl, rfl, rfl, rfl, ?_, hne, ?_⟩
  · rw [not_or] at hcount
    have hle := hcount.2
    unfold stepMask at hle
    omega
  · intro u hu
    simp only [List.any_eq_true, Bool.or_eq_true, List.isEmpty_iff, decide_eq_true_eq, not_exists,
      not_and, not_or] at hany
    have hle := (hany u hu).2
    omega

/-- A class with units has as many steps as roots. -/
theorem Plan.scalarStepCount_eq (plan : Plan) : plan.scalarStepCount = plan.scalarRoots := by
  unfold Plan.scalarStepCount
  split
  case isTrue hany =>
    obtain ⟨u, hu, hb⟩ := List.any_eq_true.mp hany
    have hlt := plan.root_lt u hu
    have hfalse : u.borrowed = false := by simpa using hb
    rw [hfalse] at hlt
    simp only [Bool.false_eq_true, if_false] at hlt
    omega
  case isFalse hany =>
    by_contra hne
    obtain ⟨u, hu, hb⟩ := plan.scalar_used (by omega)
    exact hany (List.any_eq_true.mpr ⟨u, hu, by simp [hb]⟩)

theorem Plan.borrowedStepCount_eq (plan : Plan) : plan.borrowedStepCount = plan.borrowedRoots := by
  unfold Plan.borrowedStepCount
  split
  case isTrue hany =>
    obtain ⟨u, hu, hb⟩ := List.any_eq_true.mp hany
    have hlt := plan.root_lt u hu
    rw [hb] at hlt
    simp only [if_true] at hlt
    omega
  case isFalse hany =>
    by_contra hne
    obtain ⟨u, hu, hb⟩ := plan.borrowed_used (by omega)
    exact hany (List.any_eq_true.mpr ⟨u, hu, hb⟩)

def Packed.stepKey (P : Packed) (borrowed : Bool) (root : Nat) : Nat :=
  if borrowed then P.scalarRoots + root else root

def Packed.roots (P : Packed) (borrowed : Bool) : Nat :=
  if borrowed then P.borrowedRoots else P.scalarRoots

namespace Packed.Accepted

variable (h : Accepted plan P)

include h

theorem step_eq (hu : u ∈ P.units) :
    u.step = P.stepKey u.borrowed u.outputRoot ∧ u.outputRoot < P.roots u.borrowed := by
  rw [h.units] at hu
  obtain ⟨a, ha, hb, hr, hs⟩ := mem_packUnits hu
  have hlt := plan.root_lt a ha
  have hcount := plan.scalarStepCount_eq
  unfold Plan.stepForUnit at hs
  unfold stepKey roots
  rw [hs, hb, hr, h.scalarRoots, h.borrowedRoots]
  cases hcase : a.borrowed with
  | true =>
    rw [hcase, if_pos rfl] at hlt
    simp only [if_true]
    rw [if_neg (by omega)]
    omega
  | false =>
    rw [hcase] at hlt
    simp only [Bool.false_eq_true, if_false] at hlt ⊢
    rw [if_neg (by omega)]
    omega

theorem roots_le : P.scalarRoots + P.borrowedRoots ≤ 256 := by
  have hsteps := h.steps
  rw [plan.scalarStepCount_eq, plan.borrowedStepCount_eq, ← h.scalarRoots, ← h.borrowedRoots]
    at hsteps
  exact hsteps

theorem scalarStepCount_eq : P.scalarStepCount = P.scalarRoots := by
  rw [h.scalarStepCount, h.scalarRoots, plan.scalarStepCount_eq]

theorem step_lt (hu : u ∈ P.units) : u.step < 256 := by
  obtain ⟨hstep, hroot⟩ := h.step_eq hu
  have hle := h.roots_le
  unfold stepKey at hstep
  unfold roots at hroot
  cases hb : u.borrowed <;> simp only [hb, if_true, Bool.false_eq_true, if_false] at hstep hroot <;>
    omega

theorem first_pos (hu : u ∈ P.units) : 0 < u.first := by
  rw [h.units] at hu
  exact next_le_first hu

theorem pairwise : P.units.Pairwise fun a b =>
    a.step = b.step → a.first + a.states.length ≤ b.first := by
  rw [h.units]
  exact packUnits_pairwise

/-- The units of a root are those with its step key. -/
theorem rootUnits_eq {borrowed : Bool} {root : Nat} (hroot : root < P.roots borrowed) :
    P.rootUnits borrowed root = P.units.filter fun u => u.step == P.stepKey borrowed root := by
  refine List.filter_congr fun u hu => ?_
  obtain ⟨hstep, hlt⟩ := h.step_eq hu
  rw [hstep]
  unfold roots at hlt hroot
  unfold stepKey
  cases hb : u.borrowed <;> cases borrowed <;> simp [hb] at hlt hroot ⊢ <;> omega

theorem rootUnits_nil {borrowed : Bool} {root : Nat} (hroot : ¬ root < P.roots borrowed) :
    P.rootUnits borrowed root = [] := by
  refine List.filter_eq_nil_iff.mpr fun u hu => ?_
  obtain ⟨-, hlt⟩ := h.step_eq hu
  simp only [Bool.and_eq_true, beq_iff_eq, not_and]
  intro hb hr
  rw [hb, hr] at hlt
  exact hroot hlt

theorem dense (borrowed : Bool) (root : Nat) :
    (P.rootUnits borrowed root).flatMap PackedUnit.indexes
      = List.range' 1 ((P.rootUnits borrowed root).map fun u => u.states.length).sum := by
  by_cases hroot : root < P.roots borrowed
  · rw [h.rootUnits_eq hroot, h.units]
    exact packUnits_dense _
  · rw [h.rootUnits_nil hroot]
    rfl

end Packed.Accepted

/-! ## Following a region ID -/

/-- A step that knows the unit's root has no key at the sentinel's low byte. -/
theorem Packed.step_ne_of_fold {borrowed : Bool} (hfold : P.foldLifecycle borrowed = true)
    (hkey : u.step < if borrowed then P.scalarStepCount + P.borrowedRoots else P.scalarRoots) :
    u.step ≠ 255 := by
  unfold foldLifecycle at hfold
  simp only [decide_eq_true_eq] at hfold
  rw [show regionIdDone &&& stepMask = 255 from by decide, if_neg (by omega)] at hfold
  omega

def Packed.stride (P : Packed) : Nat := if P.indirect then 1 else 256

theorem Packed.stride_pos (P : Packed) : 0 < P.stride := by
  unfold stride
  split <;> omega

namespace Packed.Accepted

variable (h : Accepted plan P)

include h

variable {i : Nat} {borrowed : Bool}

theorem index_lt (hu : u ∈ P.units) (hi : i < u.states.length) : u.first + i < 2 ^ 16 := by
  have hle := h.indexes u hu
  omega

theorem stateKey_eq (hu : u ∈ P.units) (hi : i < u.states.length) :
    P.stateKey u i = P.stride * (u.first + i) := by
  show (if P.indirect then (u.id i &&& indexMask) >>> 8 else u.id i &&& indexMask) = _
  unfold PackedUnit.id stride
  rw [packId_and_indexMask (h.index_lt hu hi) (h.step_lt hu), Nat.shiftRight_eq_div_pow]
  split <;> omega

theorem regionKey_eq (hu : u ∈ P.units) (hi : i < u.states.length) :
    P.regionKey (u.id i) = P.stride * (u.first + i) := by
  unfold regionKey PackedUnit.id stride
  rw [packId_and_indexMask (h.index_lt hu hi) (h.step_lt hu), packId_shiftRight (h.step_lt hu)]
  split <;> omega

/-- The tree of the owning unit ends at the state the ID was given to. -/
theorem unitRegion_owner (hu : u ∈ P.units) (hi : i < u.states.length) :
    P.unitRegion u (P.regionKey (u.id i)) = u.states[i]? := by
  have hpos := P.stride_pos
  have hdescend : RangeTree.descend
      (fun m => decide (P.regionKey (u.id i) < P.stateKey u m)) u.states.length 0 u.states.length
        = i := by
    apply RangeTree.descend_eq hi
    · intro a b hab hb
      rw [h.stateKey_eq hu (by omega), h.stateKey_eq hu hb]
      exact Nat.mul_lt_mul_of_pos_left (by omega) hpos
    · rw [h.stateKey_eq hu hi, h.regionKey_eq hu hi]
    · intro hnext
      rw [h.stateKey_eq hu hnext, h.regionKey_eq hu hi]
      exact Nat.mul_lt_mul_of_pos_left (by omega) hpos
  show u.states[RangeTree.descend _ _ 0 _]? = _
  rw [hdescend]

/-- Two units of a root, the earlier one with the smaller indexes. -/
theorem rootUnits_ordered {root a b : Nat} {v w : PackedUnit} (hab : a < b)
    (hv : (P.rootUnits borrowed root)[a]? = some v)
    (hw : (P.rootUnits borrowed root)[b]? = some w) : v.first + v.states.length ≤ w.first := by
  have hpair : (P.rootUnits borrowed root).Pairwise fun a b =>
      a.step = b.step → a.first + a.states.length ≤ b.first := h.pairwise.filter _
  obtain ⟨ha, rfl⟩ := List.getElem?_eq_some_iff.mp hv
  obtain ⟨hb, rfl⟩ := List.getElem?_eq_some_iff.mp hw
  apply List.pairwise_iff_getElem.mp hpair a b ha hb hab
  -- units of one root have one step key
  have hstep (k : Nat) (hk : k < (P.rootUnits borrowed root).length) :
      (P.rootUnits borrowed root)[k].step = P.stepKey borrowed root := by
    obtain ⟨hmem, hroot⟩ := List.mem_filter.mp (List.getElem_mem hk)
    simp only [Bool.and_eq_true, beq_iff_eq] at hroot
    rw [(h.step_eq hmem).1, hroot.1, hroot.2]
  rw [hstep a ha, hstep b hb]

/-- The root of the owning unit selects that unit. -/
theorem route_owner {root : Nat} (hu : u ∈ P.rootUnits borrowed root) (hi : i < u.states.length) :
    P.route (P.rootUnits borrowed root) (P.regionKey (u.id i)) = some u := by
  have hmem (v : PackedUnit) (hv : v ∈ P.rootUnits borrowed root) : v ∈ P.units :=
    List.mem_of_mem_filter hv
  have hpos := P.stride_pos
  have hunit := hmem u hu
  obtain ⟨j, hj⟩ := List.mem_iff_getElem?.mp hu
  obtain ⟨hjlt, -⟩ := List.getElem?_eq_some_iff.mp hj
  unfold route
  split
  case isTrue hmode =>
    -- the switch: no other unit of the root has a case with this index
    have howner (v : PackedUnit) (hv : v ∈ P.rootUnits borrowed root) (k : Nat)
        (hk : k < v.states.length) (hkey : P.stateKey v k = P.regionKey (u.id i)) : v = u := by
      rw [h.stateKey_eq (hmem v hv) hk, h.regionKey_eq hunit hi] at hkey
      have hindex := Nat.eq_of_mul_eq_mul_left hpos hkey
      obtain ⟨m, hm⟩ := List.mem_iff_getElem?.mp hv
      rcases Nat.lt_trichotomy m j with hlt | heq | hgt
      · have hle := h.rootUnits_ordered hlt hm hj
        omega
      · rw [heq, hj] at hm
        exact (Option.some.inj hm).symm
      · have hle := h.rootUnits_ordered hgt hj hm
        omega
    cases hfind : List.find? _ (P.rootUnits borrowed root) with
    | none =>
      have hno := List.find?_eq_none.mp hfind u hu
      refine absurd (List.any_eq_true.mpr ⟨i, List.mem_range.mpr hi, ?_⟩) hno
      rw [h.stateKey_eq hunit hi, h.regionKey_eq hunit hi, beq_self_eq_true]
    | some v =>
      have hany := List.find?_some hfind
      simp only [List.any_eq_true] at hany
      obtain ⟨k, hk, hkey⟩ := hany
      rw [howner v (List.mem_of_find?_eq_some hfind) k (List.mem_range.mp hk) (by simpa using hkey)]
  case isFalse =>
    -- the range tree: units start at increasing keys
    have hbegin (m : Nat) (v : PackedUnit) (hv : (P.rootUnits borrowed root)[m]? = some v) :
        P.routeBegin (P.rootUnits borrowed root) m = P.stride * v.first := by
      have hvmem := hmem v (List.mem_of_getElem? hv)
      have hkey := h.stateKey_eq hvmem (h.states v hvmem)
      simpa [routeBegin, hv] using hkey
    have hdescend : RangeTree.descend
        (fun m => decide (P.regionKey (u.id i) < P.routeBegin (P.rootUnits borrowed root) m))
        (P.rootUnits borrowed root).length 0 (P.rootUnits borrowed root).length = j := by
      apply RangeTree.descend_eq hjlt
      · intro a b hab hb
        have hav := List.getElem?_eq_getElem (Nat.lt_trans hab hb)
        have hbv := List.getElem?_eq_getElem hb
        have hle := h.rootUnits_ordered hab hav hbv
        have hlen := h.states _ (hmem _ (List.mem_of_getElem? hav))
        rw [hbegin a _ hav, hbegin b _ hbv]
        exact Nat.mul_lt_mul_of_pos_left (by omega) hpos
      · rw [hbegin j u hj, h.regionKey_eq hunit hi]
        exact Nat.mul_le_mul_left _ (by omega)
      · intro hnext
        have hv := List.getElem?_eq_getElem hnext
        have hle := h.rootUnits_ordered (Nat.lt_succ_self j) hj hv
        rw [hbegin (j + 1) _ hv, h.regionKey_eq hunit hi]
        exact Nat.mul_lt_mul_of_pos_left (by omega) hpos
    show (P.rootUnits borrowed root)[RangeTree.descend _ _ 0 _]? = some u
    rw [hdescend, hj]

/-- The switch on the low byte sends an ID to its state, wherever the step knows the unit's root. -/
theorem bySwitch_owner (hu : u ∈ P.units) {s : RegionState} (hs : u.states[i]? = some s)
    (borrowed : Bool) (hroot : P.rootOf borrowed u.step = some (u.borrowed, u.outputRoot)) :
    P.bySwitch borrowed (u.id i) = .region s := by
  obtain ⟨hi, -⟩ := List.getElem?_eq_some_iff.mp hs
  have hmem : u ∈ P.rootUnits u.borrowed u.outputRoot :=
    List.mem_filter.mpr ⟨hu, by simp⟩
  unfold bySwitch
  rw [show u.id i &&& stepMask = u.step from packId_and_stepMask (h.step_lt hu), hroot]
  show P.rootDispatch u.borrowed u.outputRoot (P.regionKey (u.id i)) = .region s
  unfold rootDispatch
  rw [h.route_owner hmem hi, Option.bind_some, h.unitRegion_owner hu hi, hs]

theorem id_bounds (hu : u ∈ P.units) (hi : i < u.states.length) : 0 < u.id i ∧ u.id i < 2 ^ 24 := by
  have hindex := h.index_lt hu hi
  have hfirst := h.first_pos hu
  have hstep := h.step_lt hu
  have heq : u.id i = (u.first + i) * 256 + u.step := packId_eq hstep
  omega

theorem not_lifecycle (hu : u ∈ P.units) (hi : i < u.states.length)
    (hlow : P.foldLifecycle borrowed = true → u.step ≠ 255) : ¬ P.Lifecycle borrowed (u.id i) := by
  obtain ⟨hpos, hlt⟩ := h.id_bounds hu hi
  have hmask : u.id i &&& stepMask = u.step := packId_and_stepMask (h.step_lt hu)
  rintro (hzero | hdone | ⟨hfold, heq⟩)
  · omega
  · rw [hdone] at hlt
    exact absurd hlt (by decide)
  · rw [hmask] at heq
    exact hlow hfold heq

end Packed.Accepted

theorem Packed.Accepted.nodup_ids (h : Accepted plan P) : P.ids.Nodup := by
  unfold ids
  rw [List.nodup_flatMap]
  have hid (v : PackedUnit) (hv : v ∈ P.units) (i : Nat) :
      v.id i = (v.first + i) * 256 + v.step := packId_eq (h.step_lt hv)
  constructor
  · intro v hv
    refine List.Nodup.map_on ?_ List.nodup_range
    intro i _ j _ heq
    rw [hid v hv, hid v hv] at heq
    omega
  · -- two units share an ID only with one step key, and then their indexes are apart
    refine h.pairwise.imp_of_mem fun {a b} ha hb hab => ?_
    intro id hida hidb
    obtain ⟨i, hi, rfl⟩ := List.mem_map.mp hida
    obtain ⟨j, hj, heq⟩ := List.mem_map.mp hidb
    rw [hid a ha, hid b hb] at heq
    have hsa := h.step_lt ha
    have hsb := h.step_lt hb
    have hi := List.mem_range.mp hi
    omega

/-- **Region dispatch is exact.** For every accepted partition: region IDs are pairwise distinct; each
is neither idle nor the completion sentinel and holds its unit's step and, counting up over the unit,
an index that fits; the indexes of a root count up from one; an ID runs its own region from the
context step, and from the scalar step when the unit is scalar; and the scalar step refuses the ID of
a borrowed-context unit, with root counts as the root policy assigns them. -/
theorem region_dispatch_exact (plan : Plan) (P : Packed) (hP : plan.pack = some P)
    (hroots : plan.scalarRoots ≤ maxMergeRoots ∧ plan.borrowedRoots ≤ maxMergeRoots) :
    P.ids.Nodup ∧
    (∀ u ∈ P.units, ∀ i < u.states.length, u.id i ≠ 0 ∧ u.id i ≠ regionIdDone ∧
      u.id i &&& stepMask = u.step ∧ u.id i >>> 8 = u.first + i ∧
      0 < u.first + i ∧ u.first + i < 2 ^ 16) ∧
    (∀ borrowed root, (P.rootUnits borrowed root).flatMap PackedUnit.indexes
      = List.range' 1 ((P.rootUnits borrowed root).map fun u => u.states.length).sum) ∧
    (∀ u ∈ P.units, ∀ i s, u.states[i]? = some s →
      P.dispatch true (u.id i) = .region s ∧
      (u.borrowed = false → P.dispatch false (u.id i) = .region s) ∧
      (u.borrowed = true → P.dispatch false (u.id i) = .invalid)) := by
  have h := Accepted.of_pack hP
  have hcount := h.scalarStepCount_eq
  refine ⟨h.nodup_ids, ?_, h.dense, ?_⟩
  · intro u hu i hi
    obtain ⟨hpos, hlt⟩ := h.id_bounds hu hi
    have hfirst := h.first_pos hu
    have hdone : u.id i ≠ regionIdDone := by
      intro heq
      rw [heq] at hlt
      exact absurd hlt (by decide)
    exact ⟨by omega, hdone, packId_and_stepMask (h.step_lt hu), packId_shiftRight (h.step_lt hu),
      by omega, h.index_lt hu hi⟩
  · intro u hu i s hs
    obtain ⟨hi, -⟩ := List.getElem?_eq_some_iff.mp hs
    obtain ⟨hstep, hroot⟩ := h.step_eq hu
    unfold stepKey at hstep
    unfold roots at hroot
    refine ⟨?_, fun hb => ?_, fun hb => ?_⟩
    · have hkey : u.step < P.scalarStepCount + P.borrowedRoots := by
        cases hb : u.borrowed <;> simp [hb] at hstep hroot <;> omega
      have hlife : ¬ P.Lifecycle true (u.id i) :=
        h.not_lifecycle hu hi fun hfold => step_ne_of_fold hfold hkey
      rw [dispatch_of_not_lifecycle hlife]
      apply h.bySwitch_owner hu hs
      cases hb : u.borrowed with
      | false =>
        simp only [hb, Bool.false_eq_true, if_false] at hstep hroot
        simp [rootOf, hcount, hstep, hroot]
      | true =>
        simp only [hb, if_true] at hstep hroot
        simp [rootOf, hcount, hstep, hroot]
    · simp only [hb, Bool.false_eq_true, if_false] at hstep hroot
      have hkey : u.step < P.scalarRoots := by omega
      have hlife : ¬ P.Lifecycle false (u.id i) :=
        h.not_lifecycle hu hi fun hfold => step_ne_of_fold hfold hkey
      rw [dispatch_of_not_lifecycle hlife]
      apply h.bySwitch_owner hu hs
      simp [rootOf, hb, hstep, hroot]
    · -- its step key is past the scalar roots and, with both counts capped, below `0xff`
      simp only [hb, if_true] at hstep hroot
      rw [← h.scalarRoots, ← h.borrowedRoots] at hroots
      unfold maxMergeRoots at hroots
      rw [dispatch_of_not_lifecycle (h.not_lifecycle hu hi fun _ => by omega)]
      unfold bySwitch
      rw [show u.id i &&& stepMask = u.step from packId_and_stepMask (h.step_lt hu)]
      have hnone : P.rootOf false u.step = none := by
        simp [rootOf]
        omega
      rw [hnone]

end Accepted

def twoUnits (indirect : Bool) : Plan where
  indirect := indirect
  scalarRoots := 1
  borrowedRoots := 1
  units := [⟨false, 0, [⟨1, .entry⟩, ⟨2, .call⟩]⟩, ⟨true, 0, [⟨4, .yield⟩, ⟨3, .entry⟩]⟩]
  root_lt := by simp
  scalar_used := by simp
  borrowed_used := by simp

/-- A borrowed unit is reached by its own dispatcher and refused by the scalar one. -/
theorem region_dispatch_twoUnits :
    ∃ P, (twoUnits false).pack = some P ∧ P.dispatch true 0x101 = .region ⟨3, .entry⟩ ∧
      P.dispatch false 0x101 = .invalid := by
  refine ⟨_, rfl, ?_⟩
  have hexact := region_dispatch_exact (twoUnits false) _ rfl (by decide)
  have hunit := hexact.2.2.2 ⟨true, 0, 1, 1, [⟨3, .entry⟩, ⟨4, .yield⟩]⟩
    (List.mem_cons_of_mem _ List.mem_cons_self) 0 ⟨3, .entry⟩ rfl
  exact ⟨hunit.1, hunit.2.2 rfl⟩

/-! ## The root policy keeps its cap -/

def RootClass.Balanced (c : RootClass) : Prop :=
  ∃ k, c.roots = 2 ^ k ∧ c.roots ≤ max 1 c.desiredRoots

/-- The desired count is a power of two within both caps. -/
theorem desiredRoots_le_of (c : RootClass) {bound : Nat} (hone : 1 ≤ bound)
    (hcap : maxMergeRoots ≤ bound ∨ c.units ≤ bound) : c.desiredRoots ≤ bound := by
  unfold RootClass.desiredRoots
  simp only
  generalize hm : min (max 1 ((c.load + rootLoadTarget - 1) / rootLoadTarget))
    (min maxMergeRoots c.units) = m
  by_cases hzero : m = 0
  · rw [hzero]
    exact hone
  · have hle := Nat.log2_self_le hzero
    omega

theorem desiredRoots_le (c : RootClass) : c.desiredRoots ≤ maxMergeRoots :=
  desiredRoots_le_of c (by decide) (.inl (Nat.le_refl _))

theorem desiredRoots_le_units (c : RootClass) (hunits : 0 < c.units) : c.desiredRoots ≤ c.units :=
  desiredRoots_le_of c hunits (.inr (Nat.le_refl _))

theorem RootClass.splittable_iff :
    c.splittable budget = true ↔ c.roots < c.desiredRoots ∧ c.roots ≤ budget := by
  simp [RootClass.splittable]

theorem bestClass_splittable {best : Nat} (hbest : bestClass budget classes = some best) :
    ∃ c, classes[best]? = some c ∧ c.roots < c.desiredRoots ∧ c.roots ≤ budget := by
  have hfold : ∀ (l : List (RootClass × Nat)) (acc : Option Nat),
      (∀ x ∈ l, classes[x.2]? = some x.1) →
      (∀ b, acc = some b → ∃ c, classes[b]? = some c ∧ c.splittable budget = true) →
      ∀ b, l.foldl (betterClass budget classes) acc = some b →
        ∃ c, classes[b]? = some c ∧ c.splittable budget = true := by
    intro l
    induction l with
    | nil => exact fun acc _ hacc => hacc
    | cons x l ih =>
      -- a candidate is taken only if it can be split
      intro acc hl hacc
      refine ih _ (fun y hy => hl y (List.mem_cons_of_mem x hy)) fun b hb => ?_
      have hx := hl x List.mem_cons_self
      grind [betterClass]
  obtain ⟨c, hc, hsplit⟩ := hfold classes.zipIdx none
    (fun x hx => List.mem_zipIdx_iff_getElem?.mp hx) (fun b hb => by cases hb) best hbest
  exact ⟨c, hc, RootClass.splittable_iff.mp hsplit⟩

/-- Without a best class none can be split. -/
theorem not_splittable_of_bestClass (h : bestClass budget classes = none) :
    ∀ c ∈ classes, c.splittable budget = false := by
  have hfold : ∀ (l : List (RootClass × Nat)) (acc : Option Nat),
      l.foldl (betterClass budget classes) acc = none →
        acc = none ∧ ∀ x ∈ l, x.1.splittable budget = false := by
    intro l
    induction l with
    | nil => exact fun acc hacc => ⟨hacc, by simp⟩
    | cons x l ih =>
      intro acc hacc
      obtain ⟨hfirst, hrest⟩ := ih _ hacc
      obtain ⟨d, index⟩ := x
      simp only [betterClass] at hfirst
      split at hfirst
      case isTrue => cases acc <;> grind
      case isFalse hx => exact ⟨hfirst, List.forall_mem_cons.mpr ⟨by simpa using hx, hrest⟩⟩
  intro c hc
  obtain ⟨i, hi⟩ := List.mem_iff_getElem?.mp hc
  exact (hfold _ _ h).2 (c, i) (List.mem_zipIdx_iff_getElem?.mpr hi)

theorem RootClass.Balanced.le (h : c.Balanced) : c.roots ≤ maxMergeRoots := by
  obtain ⟨k, -, hle⟩ := h
  have hdesired := desiredRoots_le c
  unfold maxMergeRoots at *
  omega

/-- A class that has fewer roots than it desires stays below after a doubling: both are powers of
two. -/
theorem RootClass.Balanced.double (h : c.Balanced) (hlt : c.roots < c.desiredRoots) :
    RootClass.Balanced { c with roots := 2 * c.roots } := by
  obtain ⟨k, hroots, -⟩ := h
  obtain ⟨m, hm⟩ : ∃ m, c.desiredRoots = 2 ^ m := ⟨_, rfl⟩
  refine ⟨k + 1, by simp only [hroots, Nat.pow_succ]; omega, ?_⟩
  show 2 * c.roots ≤ max 1 c.desiredRoots
  rw [hroots, hm] at hlt
  have hkm : k + 1 ≤ m := (Nat.pow_lt_pow_iff_right (by omega)).mp hlt
  have hpow : 2 ^ (k + 1) ≤ 2 ^ m := Nat.pow_le_pow_right Nat.two_pos hkm
  omega

/-- One round: the class that is split, and the others as they were. -/
theorem mem_modify_roots {best : Nat} (hc : classes[best]? = some c) {d : RootClass}
    (hd : d ∈ classes.modify best fun c => { c with roots := 2 * c.roots }) :
    d ∈ classes ∨ d = { c with roots := 2 * c.roots } := by
  obtain ⟨i, hi⟩ := List.mem_iff_getElem?.mp hd
  rw [List.getElem?_modify] at hi
  obtain ⟨e, he, rfl⟩ := Option.map_eq_some_iff.mp hi
  split
  case isTrue heq =>
    subst heq
    exact .inr (by rw [Option.some.inj (hc.symm.trans he)])
  case isFalse => exact .inl (List.mem_of_getElem? he)

theorem splitRoots_balanced {fuel : Nat} (hbalanced : ∀ c ∈ classes, c.Balanced) :
    ∀ c ∈ splitRoots fuel budget classes, c.Balanced := by
  induction fuel generalizing budget classes with
  | zero => exact hbalanced
  | succ fuel ih =>
    unfold splitRoots
    split
    · exact hbalanced
    · rename_i best hbest
      obtain ⟨c, hc, hless, -⟩ := bestClass_splittable hbest
      refine ih fun d hd => ?_
      rcases mem_modify_roots hc hd with hd | rfl
      · exact hbalanced d hd
      · exact (hbalanced c (List.mem_of_getElem? hc)).double hless

theorem splitRoots_units (fuel budget : Nat) (classes : List RootClass) :
    (splitRoots fuel budget classes).map RootClass.units = classes.map RootClass.units := by
  induction fuel generalizing budget classes with
  | zero => rfl
  | succ fuel ih =>
    unfold splitRoots
    split
    · rfl
    · rw [ih]
      apply List.ext_getElem?
      intro i
      rw [List.getElem?_map, List.getElem?_map, List.getElem?_modify, Option.map_eq_map, Option.map_map]
      split <;> rfl

theorem sum_roots_modify {best : Nat} (hc : classes[best]? = some c) :
    ((classes.modify best fun c => { c with roots := 2 * c.roots }).map RootClass.roots).sum =
      (classes.map RootClass.roots).sum + c.roots := by
  induction classes generalizing best with
  | nil => cases hc
  | cons d classes ih =>
    cases best with
    | zero =>
      cases hc
      show 2 * c.roots + (classes.map RootClass.roots).sum =
        c.roots + (classes.map RootClass.roots).sum + c.roots
      omega
    | succ best =>
      show d.roots + ((classes.modify best _).map RootClass.roots).sum =
        d.roots + (classes.map RootClass.roots).sum + c.roots
      rw [ih hc]
      omega

/-- Every new root is paid for from the budget, so a budget's worth of rounds is all of them. -/
theorem splitRoots_ends {fuel : Nat} (hfuel : budget ≤ fuel) (hroots : ∀ c ∈ classes, 0 < c.roots) :
    ∃ left, bestClass left (splitRoots fuel budget classes) = none ∧
      ((splitRoots fuel budget classes).map RootClass.roots).sum + left =
        (classes.map RootClass.roots).sum + budget := by
  induction fuel generalizing budget classes with
  | zero =>
    refine ⟨budget, ?_, rfl⟩
    cases hbest : bestClass budget (splitRoots 0 budget classes) with
    | none => rfl
    | some best =>
      obtain ⟨c, hc, -, hle⟩ := bestClass_splittable hbest
      have := hroots c (List.mem_of_getElem? hc)
      omega
  | succ fuel ih =>
    unfold splitRoots
    split
    · rename_i hbest
      exact ⟨budget, hbest, rfl⟩
    · rename_i best hbest
      obtain ⟨c, hc, -, hle⟩ := bestClass_splittable hbest
      have hpos := hroots c (List.mem_of_getElem? hc)
      simp only [hc, Option.map_some, Option.getD_some]
      have hfuel' : budget - c.roots ≤ fuel := by omega
      obtain ⟨left, hnone, hsum⟩ := ih hfuel' fun d hd => by
        rcases mem_modify_roots hc hd with hd | rfl
        · exact hroots d hd
        · exact Nat.mul_pos Nat.two_pos hpos
      rw [sum_roots_modify hc] at hsum
      exact ⟨left, hnone, by omega⟩

section

variable (hstart : ∀ c ∈ classes, c.roots = 1)

include hstart

theorem balanced_of_start : ∀ c ∈ classes, c.Balanced :=
  fun c hc => ⟨0, hstart c hc, by rw [hstart c hc]; omega⟩

theorem splitRoots_spent (budget : Nat) :
    ∃ left, bestClass left (splitRoots budget budget classes) = none ∧
      ((splitRoots budget budget classes).map RootClass.roots).sum + left = classes.length + budget := by
  have hones : (classes.map RootClass.roots).sum = classes.length := by
    rw [List.map_congr_left hstart]
    simp
  have hroots : ∀ c ∈ classes, 0 < c.roots := fun c hc => hstart c hc ▸ Nat.one_pos
  exact hones ▸ splitRoots_ends (Nat.le_refl budget) hroots

end

/-- **The root policy.** Every class gets a power of two of roots, none past what its load asks for,
and all of them together fit the budget. A class that has fewer than it asks for could not be split
once more. -/
theorem root_policy (budget : Nat) (classes : List RootClass) (hstart : ∀ c ∈ classes, c.roots = 1) :
    let out := splitRoots budget budget classes
    (∀ c ∈ out, (∃ k, c.roots = 2 ^ k) ∧ c.roots ≤ max 1 c.desiredRoots) ∧
    (out.map RootClass.roots).sum ≤ classes.length + budget ∧
    ∀ c ∈ out, c.roots < c.desiredRoots →
      classes.length + budget < (out.map RootClass.roots).sum + c.roots := by
  intro out
  obtain ⟨left, hnone, hspent⟩ := splitRoots_spent hstart budget
  have hspent : (out.map RootClass.roots).sum + left = classes.length + budget := hspent
  refine ⟨?_, by omega, fun c hc hless => ?_⟩
  · intro c hc
    obtain ⟨k, hk, hle⟩ := splitRoots_balanced (balanced_of_start hstart) c hc
    exact ⟨⟨k, hk⟩, hle⟩
  · -- what is left does not pay for another doubling
    have hsplit := not_splittable_of_bestClass hnone c hc
    have hleft : ¬ c.roots ≤ left := fun hle => by
      rw [RootClass.splittable_iff.mpr ⟨hless, hle⟩] at hsplit
      cases hsplit
    omega

/-- The first class asks for more than the sixteen roots it gets, and cannot be split again. -/
theorem root_policy_uneven :
    let classes : List RootClass := [⟨40, 300000, 1⟩, ⟨3, 20000, 1⟩]
    let out := splitRoots 20 20 classes
    (∀ c ∈ classes, c.roots = 1) ∧ out.map RootClass.roots = [16, 2] ∧
      ∃ c ∈ out, c.roots < c.desiredRoots ∧
        classes.length + 20 < (out.map RootClass.roots).sum + c.roots := by
  intro classes out
  have hpolicy := root_policy 20 classes (by decide)
  have hfirst : out[0]? = some ⟨40, 300000, 16⟩ := rfl
  have hmem := List.mem_of_getElem? hfirst
  exact ⟨by decide, by decide, _, hmem, by decide, hpolicy.2.2 _ hmem (by decide)⟩

end BpfCapsule.Stackify

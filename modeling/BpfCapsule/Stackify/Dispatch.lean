import BpfCapsule.Abi
import BpfCapsule.Lib.RangeTree
import Mathlib.Data.List.Sort
import Mathlib.Data.Nat.Bitwise
import Mathlib.Logic.Function.Basic

/-!
# BpfCapsule — region IDs and the step dispatch

A region ID is the word that names one suspension-free piece of managed code: its low byte selects
a physical step root, the next sixteen bits a region of that root. `PackRegionIds` assigns them,
`BuildStepFunction` and `FinishAllocationUnits` build the code that follows one from
`resume_region_id` to the region: lifecycle tests, a switch on the low byte, and then either two
comparison trees (units, regions of a unit) or, in indirect mode, a switch on the index.

The trees only ever compare, so `dispatch` sends every word of a known root to some region. A
managed program can put any word into `resume_region_id`: `CalleeRegionId` truncates the target of
an indirect call to its low word. `bad_dispatch_iff` says which words are refused with
`INVALID_DISPATCH`, and which end in `CAPSULE_OK` although the root has not returned.
-/

namespace BpfCapsule.Stackify

/-! ## Region IDs -/

/-- `BPF_CAPSULE_REGION_ID_STEP_MASK`. -/
def stepMask : Nat := 0xff

/-- `BPF_CAPSULE_REGION_ID_INDEX_MASK`. -/
def indexMask : Nat := 0x00ffff00

/-- `BPF_CAPSULE_REGION_ID_DONE`. -/
def regionIdDone : Nat := 0xffffffff

inductive StateKind where
  | entry
  | call
  | yield
  | backedge
  | setjmp
  deriving DecidableEq, Repr

/-- `ManagedFunction::State`: a region root under its provisional ID. -/
structure RegionState where
  id : Nat
  kind : StateKind
  deriving DecidableEq, Repr

structure AllocationUnit where
  borrowed : Bool
  outputRoot : Nat
  states : List RegionState

/-- The partition `PackRegionIds` is given. Units of a class are spread over the class's roots, and
a class without units has none. -/
structure Plan where
  indirect : Bool
  scalarRoots : Nat
  borrowedRoots : Nat
  units : List AllocationUnit
  root_lt : ∀ u ∈ units, u.outputRoot < if u.borrowed then borrowedRoots else scalarRoots
  scalar_used : 0 < scalarRoots → ∃ u ∈ units, u.borrowed = false
  borrowed_used : 0 < borrowedRoots → ∃ u ∈ units, u.borrowed = true

/-- A unit with its region IDs: state `i` has index `first + i` in the unit's step. -/
structure PackedUnit where
  borrowed : Bool
  outputRoot : Nat
  step : Nat
  first : Nat
  states : List RegionState

structure Packed where
  indirect : Bool
  scalarRoots : Nat
  borrowedRoots : Nat
  scalarStepCount : Nat
  units : List PackedUnit

def packId (index step : Nat) : Nat := (index <<< 8) ||| step

def PackedUnit.id (u : PackedUnit) (i : Nat) : Nat := packId (u.first + i) u.step

namespace Plan

/-- `ScalarStepCount_`. -/
def scalarStepCount (plan : Plan) : Nat :=
  if plan.units.any (!·.borrowed) then max 1 plan.scalarRoots else 0

def borrowedStepCount (plan : Plan) : Nat :=
  if plan.units.any (·.borrowed) then max 1 plan.borrowedRoots else 0

def stepForUnit (plan : Plan) (u : AllocationUnit) : Nat :=
  if u.borrowed then
    plan.scalarStepCount + if plan.borrowedRoots = 0 then 0 else u.outputRoot
  else if plan.scalarRoots = 0 then 0 else u.outputRoot

end Plan

def stateLe (a b : RegionState) : Bool :=
  if (a.kind == .entry) != (b.kind == .entry) then a.kind == .entry else a.id ≤ b.id

/-- The loop of `PackRegionIds`; `next` is `nextRegionIndex`. -/
def packUnits (plan : Plan) : (next : Nat → Nat) → List AllocationUnit → List PackedUnit
  | _, [] => []
  | next, u :: us =>
    let step := plan.stepForUnit u
    ⟨u.borrowed, u.outputRoot, step, next step, u.states.insertionSort (stateLe · ·)⟩ ::
      packUnits plan (Function.update next step (next step + u.states.length)) us

/-- `PackRegionIds`, unless one of its fatal checks fires: the step count, the sixteen bits of the
region index, a duplicate provisional ID, or a unit without a state. -/
def Plan.pack (plan : Plan) : Option Packed :=
  let stepCount := plan.scalarStepCount + plan.borrowedStepCount
  let units := packUnits plan (fun _ => 1) plan.units
  if stepCount = 0 ∨ stepMask + 1 < stepCount then none
  else if units.any fun u => u.states.isEmpty || 2 ^ 16 < u.first + u.states.length then none
  else if ¬ ((plan.units.flatMap (·.states)).map (·.id)).Nodup then none
  else some ⟨plan.indirect, plan.scalarRoots, plan.borrowedRoots, plan.scalarStepCount, units⟩

/-! ## Following a word -/

inductive Dispatch where
  | idle
  /-- The completion sentinel: the step clears the word and stops. -/
  | completed
  /-- The step publishes `INVALID_DISPATCH` and stops. -/
  | invalid
  | region (s : RegionState)
  deriving DecidableEq, Repr

namespace Packed

variable (P : Packed) (borrowed : Bool)

/-- The run-time `DispatchRegionKey`; in indirect mode nothing masks the top byte. -/
def regionKey (word : Nat) : Nat :=
  if P.indirect then word >>> 8 else word &&& indexMask

/-- The compile-time `DispatchRegionKey` of a state of `u`. -/
def stateKey (u : PackedUnit) (i : Nat) : Nat :=
  let index := u.id i &&& indexMask
  if P.indirect then index >>> 8 else index

/-- The comparison tree of `FinishAllocationUnits`. -/
def unitRegion (u : PackedUnit) (key : Nat) : Option RegionState :=
  let n := u.states.length
  u.states[RangeTree.descend (fun m => decide (key < P.stateKey u m)) n 0 n]?

def rootUnits (root : Nat) : List PackedUnit :=
  P.units.filter fun u => u.borrowed == borrowed && u.outputRoot == root

/-- The first key of the `m`-th unit: the keys of a unit are consecutive, and so are the units of
a root. -/
def routeBegin (routes : List PackedUnit) (m : Nat) : Nat :=
  (routes[m]?.map fun u => P.stateKey u 0).getD 0

/-- The unit a root function selects: the case of its switch, or a leaf of its range tree. -/
def route (routes : List PackedUnit) (key : Nat) : Option PackedUnit :=
  if P.indirect then
    routes.find? fun u => (List.range u.states.length).any fun i => P.stateKey u i == key
  else
    let n := routes.length
    routes[RangeTree.descend (fun m => decide (key < P.routeBegin routes m)) n 0 n]?

def rootDispatch (root key : Nat) : Dispatch :=
  match (P.route (P.rootUnits borrowed root) key).bind fun u => P.unitRegion u key with
  | some s => .region s
  | none => .invalid

/-- The physical root behind a low byte, in the scalar or the borrowed-context step: its class and
its number. The context step also reaches the scalar roots. -/
def rootOf (stepKey : Nat) : Option (Bool × Nat) :=
  if borrowed then
    if stepKey < P.scalarStepCount then some (false, stepKey)
    else if stepKey < P.scalarStepCount + P.borrowedRoots then
      some (true, stepKey - P.scalarStepCount)
    else none
  else if stepKey < P.scalarRoots then some (false, stepKey) else none

/-- `foldLifecycle`; without roots the unsigned `lastStepKey` wraps. -/
def foldLifecycle : Bool :=
  let keys := if borrowed then P.scalarStepCount + P.borrowedRoots else P.scalarRoots
  let lastStepKey := if keys = 0 then 2 ^ 32 - 1 else keys - 1
  decide (lastStepKey < regionIdDone &&& stepMask)

def bySwitch (word : Nat) : Dispatch :=
  match P.rootOf borrowed (word &&& stepMask) with
  | some (cls, root) => P.rootDispatch cls root (P.regionKey word)
  | none => .invalid

/-- One dispatch of `BuildStepFunction`. -/
def dispatch (word : Nat) : Dispatch :=
  let stepKey := word &&& stepMask
  if P.foldLifecycle borrowed then
    if stepKey = regionIdDone &&& stepMask then .completed
    -- `idle.or.root`, or a bare case when the switch has no root 0
    else if stepKey = 0 ∧ (word = 0 ∨ P.rootOf borrowed 0 = none) then .idle
    else P.bySwitch borrowed word
  else if word = 0 then .idle
  else if word = regionIdDone then .completed
  else P.bySwitch borrowed word

def entryIds : List Nat :=
  P.units.flatMap fun u =>
    (u.states.zipIdx.filter fun x => x.1.kind == .entry).map fun x => u.id x.2

/-- What the drive leaves behind when it dispatches `word` right after an indirect call: the region
that runs, if any, and the two control words. -/
structure Driven where
  ran : Option RegionState
  outcome : BitVec 64
  resume : Nat

def drive (word : Nat) : Driven :=
  match P.dispatch borrowed word with
  | .idle => ⟨none, 0, word⟩
  | .completed => ⟨none, 0, 0⟩
  | .invalid => ⟨none, outcomeValue (BitVec.ofInt 32 CapsuleError.invalidDispatch), word⟩
  | .region s => ⟨some s, 0, word⟩

def Driven.report (d : Driven) : CapsuleStatus := observedStatus d.outcome (d.resume == 0)

/-- No region ran, and the entry reports `INVALID_DISPATCH`. -/
def Refuses (word : Nat) : Prop :=
  (P.drive borrowed word).ran = none ∧ (P.drive borrowed word).report = .exited ∧
    outcomeCode (P.drive borrowed word).outcome = BitVec.ofInt 32 CapsuleError.invalidDispatch

/-- The words the step takes for idle or completed: the two sentinels and, when the lifecycle is
folded into the switch, every word with the sentinel's low byte. -/
def Lifecycle (word : Nat) : Prop :=
  word = 0 ∨ word = regionIdDone ∨
    (P.foldLifecycle borrowed = true ∧ word &&& stepMask = regionIdDone &&& stepMask)

/-- No region is behind the word: its low byte names no root, or a root without units, or, in
indirect mode, a root without that index. -/
def Unroutable (word : Nat) : Prop :=
  ∀ cls root, P.rootOf borrowed (word &&& stepMask) = some (cls, root) →
    P.rootUnits cls root = [] ∨ (P.indirect = true ∧
      ∀ u ∈ P.rootUnits cls root, ∀ i < u.states.length, P.stateKey u i ≠ P.regionKey word)

end Packed

/-- `CalleeRegionId` of an indirect call: the token truncated to 32 bits. -/
def calleeRegionId (token : BitVec 64) : Nat := (token.truncate 32).toNat

/-! ## Which words are refused -/

section Refused

variable {plan : Plan} {P : Packed}

theorem states_ne_nil_of_pack (hP : plan.pack = some P) {u : PackedUnit} (hu : u ∈ P.units) :
    u.states ≠ [] := by
  unfold Plan.pack at hP
  simp only at hP
  split at hP
  · cases hP
  split at hP
  · cases hP
  rename_i hany
  split at hP
  · cases hP
  cases hP
  simp only [List.any_eq_true, Bool.or_eq_true, List.isEmpty_iff, not_exists, not_and, not_or]
    at hany
  exact (hany u hu).1

namespace Packed

/-- The tree of a unit always ends at a region. -/
theorem unitRegion_isSome {u : PackedUnit} (hu : u.states ≠ []) (key : Nat) :
    (P.unitRegion u key).isSome = true := by
  have hpos : 0 < u.states.length := List.length_pos_iff.mpr hu
  obtain ⟨-, hlt, -⟩ := RangeTree.descend_spec
    (fun m => decide (key < P.stateKey u m)) (Nat.sub_le u.states.length 0) hpos
  rw [unitRegion, List.getElem?_eq_getElem hlt]
  rfl

/-- A root selects no unit exactly when it has none, or its switch has no such index. -/
theorem route_eq_none_iff (routes : List PackedUnit) (key : Nat) :
    P.route routes key = none ↔ routes = [] ∨ (P.indirect = true ∧
      ∀ u ∈ routes, ∀ i < u.states.length, P.stateKey u i ≠ key) := by
  unfold route
  cases hmode : P.indirect with
  | true =>
    simp only [if_true, List.find?_eq_none, List.any_eq_true, List.mem_range, beq_iff_eq,
      not_exists, not_and, true_and]
    constructor
    · exact fun h => .inr h
    · rintro (rfl | h)
      · intro u hu
        cases hu
      · exact h
  | false =>
    simp only [Bool.false_eq_true, if_false, false_and, or_false]
    constructor
    · intro h
      by_contra hne
      have hpos : 0 < routes.length := List.length_pos_iff.mpr hne
      obtain ⟨-, hlt, -⟩ := RangeTree.descend_spec
        (fun m => decide (key < P.routeBegin routes m)) (Nat.sub_le routes.length 0) hpos
      rw [List.getElem?_eq_none_iff] at h
      omega
    · rintro rfl
      rfl

theorem rootDispatch_eq_invalid_iff (hne : ∀ u ∈ P.units, u.states ≠ []) (cls : Bool)
    (root key : Nat) :
    P.rootDispatch cls root key = .invalid ↔ P.rootUnits cls root = [] ∨ (P.indirect = true ∧
      ∀ u ∈ P.rootUnits cls root, ∀ i < u.states.length, P.stateKey u i ≠ key) := by
  rw [← route_eq_none_iff]
  unfold rootDispatch
  cases hroute : P.route (P.rootUnits cls root) key with
  | none => simp
  | some u =>
    have hmem : u ∈ P.rootUnits cls root := by
      unfold route at hroute
      split at hroute
      · exact List.mem_of_find?_eq_some hroute
      · exact List.mem_of_getElem? hroute
    have hsome := P.unitRegion_isSome (hne u (List.mem_of_mem_filter hmem)) key
    obtain ⟨s, hs⟩ := Option.isSome_iff_exists.mp hsome
    simp [hs]

variable {borrowed : Bool} {word : Nat}

/-- With the lifecycle folded the switch has a root 0. -/
theorem rootOf_zero_ne_none (hfold : P.foldLifecycle borrowed = true) :
    P.rootOf borrowed 0 ≠ none := by
  unfold foldLifecycle at hfold
  unfold rootOf
  cases borrowed with
  | true =>
    simp only [if_true, decide_eq_true_eq] at hfold ⊢
    by_cases hs : P.scalarStepCount = 0
    · have hb : P.borrowedRoots ≠ 0 := by
        intro hb
        rw [hs, hb] at hfold
        exact absurd hfold (by decide)
      simp [hs, Nat.pos_of_ne_zero hb]
    · simp [Nat.pos_of_ne_zero hs]
  | false =>
    simp only [Bool.false_eq_true, if_false, decide_eq_true_eq] at hfold ⊢
    have hs : P.scalarRoots ≠ 0 := by
      intro hs
      rw [hs] at hfold
      exact absurd hfold (by decide)
    simp [Nat.pos_of_ne_zero hs]

theorem bySwitch_eq_invalid_iff (hne : ∀ u ∈ P.units, u.states ≠ []) (borrowed : Bool)
    (word : Nat) : P.bySwitch borrowed word = .invalid ↔ P.Unroutable borrowed word := by
  unfold bySwitch Unroutable
  cases hroot : P.rootOf borrowed (word &&& stepMask) with
  | none => simp
  | some r =>
    obtain ⟨cls, root⟩ := r
    simp only [Option.some.injEq, Prod.mk.injEq, and_imp]
    rw [rootDispatch_eq_invalid_iff hne]
    constructor
    · rintro h _ _ rfl rfl
      exact h
    · exact fun h => h cls root rfl rfl

theorem bySwitch_ne (borrowed : Bool) (word : Nat) :
    P.bySwitch borrowed word ≠ .idle ∧ P.bySwitch borrowed word ≠ .completed := by
  unfold bySwitch rootDispatch
  split
  · split <;> simp
  · simp

/-- Everything but a lifecycle word goes through the switch. -/
theorem dispatch_of_not_lifecycle (h : ¬ P.Lifecycle borrowed word) :
    P.dispatch borrowed word = P.bySwitch borrowed word := by
  rw [Lifecycle, not_or, not_or, not_and] at h
  obtain ⟨hzero, hdone, hlow⟩ := h
  unfold dispatch
  by_cases hfold : P.foldLifecycle borrowed = true
  · rw [if_pos hfold, if_neg (hlow hfold), if_neg]
    rintro ⟨-, rfl | hnone⟩
    · exact hzero rfl
    · exact rootOf_zero_ne_none hfold hnone
  · rw [if_neg hfold, if_neg hzero, if_neg hdone]

theorem dispatch_zero (borrowed : Bool) : P.dispatch borrowed 0 = .idle := by
  have hlow : ¬ 0 &&& stepMask = regionIdDone &&& stepMask := by decide
  unfold dispatch
  by_cases hfold : P.foldLifecycle borrowed = true
  · rw [if_pos hfold, if_neg hlow, if_pos ⟨Nat.zero_and _, .inl rfl⟩]
  · rw [if_neg hfold, if_pos rfl]

theorem dispatch_completed
    (h : word = regionIdDone ∨ (P.foldLifecycle borrowed = true ∧ word &&& stepMask = regionIdDone &&& stepMask)) :
    P.dispatch borrowed word = .completed := by
  have hlow : word &&& stepMask = regionIdDone &&& stepMask := by
    rcases h with hdone | ⟨-, hlow⟩
    · rw [hdone]
    · exact hlow
  unfold dispatch
  by_cases hfold : P.foldLifecycle borrowed = true
  · rw [if_pos hfold, if_pos hlow]
  · have hdone : word = regionIdDone := h.resolve_right fun h => hfold h.1
    have hne : ¬ word = 0 := by rw [hdone]; decide
    rw [if_neg hfold, if_neg hne, if_pos hdone]

/-- A lifecycle word stops the step, and the entry finds a drained fiber. -/
theorem drive_of_lifecycle (h : P.Lifecycle borrowed word) :
    P.drive borrowed word = ⟨none, 0, 0⟩ := by
  unfold drive
  rcases h with rfl | h
  · rw [dispatch_zero]
  · rw [dispatch_completed h]

theorem report_drained : (⟨none, 0, 0⟩ : Driven).report = .ok := observedStatus_zero true

theorem refuses_iff (hne : ∀ u ∈ P.units, u.states ≠ []) (borrowed : Bool) (word : Nat) :
    P.Refuses borrowed word ↔ ¬ P.Lifecycle borrowed word ∧ P.Unroutable borrowed word := by
  by_cases hlife : P.Lifecycle borrowed word
  · refine iff_of_false ?_ fun h => h.1 hlife
    rw [Refuses, drive_of_lifecycle hlife, report_drained]
    simp
  · have hsw := P.bySwitch_ne borrowed word
    rw [← bySwitch_eq_invalid_iff hne, and_iff_right hlife]
    rw [← dispatch_of_not_lifecycle hlife] at hsw ⊢
    unfold Refuses drive
    cases hd : P.dispatch borrowed word with
    | invalid => simp [Driven.report, observedStatus]
    | region s => simp
    | idle => exact absurd hd hsw.1
    | completed => exact absurd hd hsw.2

/-- The entry reports `CAPSULE_OK` for exactly the lifecycle words. -/
theorem report_ok_iff (borrowed : Bool) (word : Nat) :
    ((P.drive borrowed word).ran = none ∧ (P.drive borrowed word).report = .ok) ↔
      P.Lifecycle borrowed word := by
  by_cases hlife : P.Lifecycle borrowed word
  · rw [drive_of_lifecycle hlife]
    exact iff_of_true ⟨rfl, report_drained⟩ hlife
  · refine iff_of_false ?_ hlife
    have hne := P.bySwitch_ne borrowed word
    rw [← dispatch_of_not_lifecycle hlife] at hne
    unfold drive
    cases hd : P.dispatch borrowed word with
    | idle => exact absurd hd hne.1
    | completed => exact absurd hd hne.2
    | invalid => simp [Driven.report, observedStatus]
    | region s => simp

end Packed

/-- **What an indirect call to a wrong target does.** A word that is no entry region ID is refused
with `INVALID_DISPATCH`, without running a region, exactly when it is not taken for a lifecycle
word and no region is behind it; and the lifecycle words are exactly those for which the entry
reports `CAPSULE_OK` at once. -/
theorem bad_dispatch_iff (plan : Plan) (P : Packed) (hP : plan.pack = some P) (borrowed : Bool)
    (token : BitVec 64) :
    ((calleeRegionId token ∉ P.entryIds → P.Refuses borrowed (calleeRegionId token)) ↔
      calleeRegionId token ∈ P.entryIds ∨ (¬ P.Lifecycle borrowed (calleeRegionId token) ∧
        P.Unroutable borrowed (calleeRegionId token))) ∧
    (((P.drive borrowed (calleeRegionId token)).ran = none ∧
        (P.drive borrowed (calleeRegionId token)).report = .ok) ↔
      P.Lifecycle borrowed (calleeRegionId token)) := by
  refine ⟨?_, Packed.report_ok_iff borrowed _⟩
  rw [← Packed.refuses_iff (fun u hu => states_ne_nil_of_pack hP hu)]
  exact Decidable.imp_iff_not_or.trans (by rw [not_not])

end Refused

/-- One scalar unit with an entry region and the resume region of a call, over `roots + 1` physical
roots. -/
def oneUnit (indirect : Bool) (roots : Nat) : Plan where
  indirect := indirect
  scalarRoots := roots + 1
  borrowedRoots := 0
  units := [⟨false, 0, [⟨1, .entry⟩, ⟨2, .call⟩]⟩]
  root_lt := by simp
  scalar_used := by simp
  borrowed_used := by simp

/-- Step key 7 is not that of the only root. -/
theorem bad_dispatch_unknown_root :
    ∃ P, (oneUnit false 0).pack = some P ∧ calleeRegionId 7 ∉ P.entryIds ∧
      P.Refuses false (calleeRegionId 7) := by
  have hentry : ∀ P, (oneUnit false 0).pack = some P → calleeRegionId 7 ∉ P.entryIds := by
    intro P hP
    cases hP
    decide
  refine ⟨_, rfl, hentry _ rfl, ?_⟩
  refine (bad_dispatch_iff (oneUnit false 0) _ rfl false 7).1.mpr (.inr ⟨?_, ?_⟩) (hentry _ rfl)
  · rintro (h | h | ⟨-, h⟩) <;> revert h <;> decide
  · intro cls root h
    cases (show (none : Option (Bool × Nat)) = some (cls, root) from h)

/-- Whether a token is an entry region ID, the region its dispatch runs, and the status reported
if it stops the drive. -/
def probe (plan : Plan) (token : BitVec 64) : Option (Bool × Option RegionState × CapsuleStatus) :=
  plan.pack.map fun P =>
    let d := P.drive false (calleeRegionId token)
    (decide (calleeRegionId token ∈ P.entryIds), d.ran, d.report)

/-- **Silent success and stray regions**: a call through NULL reports `CAPSULE_OK` in both lifecycle
modes and both dispatch modes, with a folded lifecycle so does any word that ends in `0xff`, the
range trees run a region for an index that was never assigned, and the ID of a resume region runs
that region. -/
theorem bad_dispatch_not_refused :
    probe (oneUnit false 0) 0 = some (false, none, .ok) ∧
    probe (oneUnit false 255) 0 = some (false, none, .ok) ∧
    probe (oneUnit true 0) 0 = some (false, none, .ok) ∧
    probe (oneUnit true 255) 0 = some (false, none, .ok) ∧
    probe (oneUnit true 0) 0x12ff = some (false, none, .ok) ∧
    probe (oneUnit false 0) 0x45600 = some (false, some ⟨2, .call⟩, .pending) ∧
    probe (oneUnit true 0) 0x200 = some (false, some ⟨2, .call⟩, .pending) := by
  refine ⟨?_, ?_, ?_, ?_, ?_, ?_, ?_⟩ <;> decide

end BpfCapsule.Stackify

import BpfCapsule.Stackify.NativeValues
import Mathlib.Logic.Function.Basic

/-!
# BpfCapsule — verifier pointers stay inside one region

A verifier pointer is a capability of one physical BPF program: it must not be stored, passed to or
returned from a managed call, or kept across a suspension. The validation enforces that on the values
`FindVerifierNativeValues` classifies. Here a managed function runs with the provenance of its values
instead of their bits, over every path and every outcome of a select, so that a pointer that the
classification misses is seen.

`confined_of_run`: an accepted function confines its verifier pointers in every run in which each PHI,
select or sum that holds one derives from capabilities alone (`Recognised`) and no pointer takes a way
out that the validation does not look at (`Plain`). `packetLoop` is an accepted function whose
loop-carried packet pointer crosses a managed call.
-/

namespace BpfCapsule.Ssa

/-! ## Provenance along a run -/

/-- What a value holds. -/
abbrev Flags := Provenance → Bool

def Flags.none : Flags := fun _ => false

/-- The context object's own address is a verifier pointer too. -/
def Flags.borrowed : Flags
  | .field => false
  | _ => true

def Flags.pointerIf (pointer : Bool) : Flags
  | .pointer => pointer
  | _ => false

def Const.pointer (sectioned : Nat → Bool) : Const → Bool
  | .zero | .literal => false
  | .global g => sectioned g
  | .offset a b => a.pointer sectioned || b.pointer sectioned
  | .diff a b => a.pointer sectioned && !b.pointer sectioned

theorem Const.mentions_of_pointer {globals : Nat → Bool} {c : Const}
    (h : c.pointer globals = true) : c.mentions globals = true := by
  induction c with
  | zero | literal => exact h
  | global g => exact h
  | offset a b iha ihb =>
    simp only [Const.pointer, Const.mentions, Bool.or_eq_true] at h ⊢
    exact h.imp iha ihb
  | diff a b iha _ =>
    simp only [Const.pointer, Const.mentions, Bool.or_eq_true, Bool.and_eq_true] at h ⊢
    exact .inl (iha h.1)

namespace Func

variable (f : Func)

def eval (flags : Val → Flags) : Operand → Flags
  | .val v => flags v
  | .const c => .pointerIf (c.pointer f.sectioned)

/-- The provenance of an instruction's result; `choice` decides a select. -/
def result (flags : Val → Flags) (choice : Nat) : Op → Flags
  | .currentCtx => .borrowed
  | .verifierCall pointer _ | .alloca pointer => .pointerIf pointer
  | .gep operands => fun
    | .field => false
    | k => operands.any fun x => f.eval flags x k
  | .cast toPointer x => fun
    | .pointer => f.eval flags x .pointer || toPointer && f.eval flags x .field
    | k => f.eval flags x k
  | .freeze x | .extractValue x => f.eval flags x
  | .add x y => fun k => f.eval flags x k != f.eval flags y k
  | .sub x y => fun k => f.eval flags x k && !f.eval flags y k
  | .select _ x y => if choice = 0 then f.eval flags x else f.eval flags y
  | .insertValue x y => fun k => f.eval flags x k || f.eval flags y k
  | .load pointer addr => fun
    | .context => false
    | .field => f.eval flags addr .context
    | .pointer => pointer && f.eval flags addr .context
  -- what is read back from program memory or returned by a managed call is ordinary data
  | .store .. | .atomic .. | .compute _ | .managedCall _ | .yieldCall | .setjmp _ => .none

/-- A PHI's provenance after the edge out of `b`. -/
def phiResult (b : Nat) (flags : Val → Flags) (v : Val) : Flags :=
  match f.def? v with
  | some (.phi incoming) => ((incoming.incomingFor b).map (f.eval flags)).getD Flags.none
  | _ => Flags.none

end Func

/-! ## Runs -/

/-- The suspension points a validation covers: `ValidateVerifierPointerStorageAndCalls` those at calls,
`ValidateVerifierPointerBackedges`, after the loops were classified, those on edges. -/
structure Points where
  calls : Bool
  edges : List (Nat × Nat)

/-- A run between two instructions of a block, or before its terminator. -/
structure State where
  block : Nat
  index : Nat
  flags : Val → Flags

/-- The result may have the provenance on one path or for one operand only; only verifier pointers are
followed through aggregates. -/
def Def.merges (k : Provenance) : Def → Bool
  | .phi _ | .op (.select ..) | .op (.add ..) | .op (.sub ..) => true
  | .op (.insertValue ..) | .op (.extractValue _) => k != .pointer
  | _ => false

namespace Func

variable (f : Func)

def opAt (s : State) : Option Op := (f.body s.block)[s.index]?

def start : State where
  block := 0
  index := 0
  flags v :=
    match f.def? v with
    | some (.arg .borrowed) => .borrowed
    | some (.arg kind) => .pointerIf (kind != .ordinary)
    | _ => .none

def stepOp (choice : Nat) (s : State) (op : Op) : State where
  block := s.block
  index := s.index + 1
  flags := Function.update s.flags (.inst s.block s.index) (f.result s.flags choice op)

def stepEdge (s : State) (t : Nat) : State where
  block := t
  index := 0
  flags v := if v ∈ f.phiVals t then f.phiResult s.block s.flags v else s.flags v

def step (choice : Nat) (s : State) : Option State :=
  match f.opAt s with
  | some op => some (f.stepOp choice s op)
  | none => (f.successors s.block)[choice]?.map (f.stepEdge s)

variable (points : Points)

/-- `v` is live across the suspension the run has come to. -/
def Crosses (s : State) (v : Val) : Prop :=
  (points.calls = true ∧ v ≠ .inst s.block s.index ∧ LiveAt f v s.block (s.index + 1) ∧
      ∃ op, f.opAt s = some op ∧ op.suspends = true) ∨
    (s.index = (f.body s.block).length ∧ ∃ t, (s.block, t) ∈ points.edges ∧ LiveEdge f v s.block t)

/-- `x` is about to be stored, passed to a managed call or returned from one. -/
def Leaves (s : State) (x : Operand) : Prop :=
  (∃ op, f.opAt s = some op ∧
    match op with
    | .store value _ | .atomic value _ => x = value
    | op => op.suspends = true ∧ x ∈ op.operands) ∨
  (s.index = (f.body s.block).length ∧
    ∃ block, f.block? s.block = some block ∧ block.term = .ret (some x))

/-- No verifier pointer is about to leave its region. -/
structure Confined (s : State) : Prop where
  leaving : points.calls = true → ∀ x, f.Leaves s x → f.eval s.flags x .pointer = false
  crossing : ∀ v, f.Crosses points s v → s.flags v .pointer = false

/-! ## What the validation does not look at -/

/-- The values the step from `s` into block `b` defines. -/
def definedAt (s : State) (b : Nat) : List Val :=
  match f.opAt s with
  | some _ => [.inst s.block s.index]
  | none => f.phiVals b

/-- The data of `v` reaches a sink through operands. -/
inductive Feeds (sink : Val → Prop) : Val → Prop where
  | sink {v : Val} (h : sink v) : Feeds sink v
  | flow {v w : Val} (hv : v ∈ f.operandVals w) (h : Feeds sink w) : Feeds sink v

def IsConverted (v : Val) : Prop := ∃ w, f.def? w = some (.op (.cast true (.val v)))

def IsLoadedFrom (v : Val) : Prop := ∃ w pointer, f.def? w = some (.op (.load pointer (.val v)))

/-- Some use asks for the provenance of `v`: a load through it, or a conversion of it. -/
def Wanted : Provenance → Val → Prop
  | .context, v => f.Feeds f.IsLoadedFrom v
  | .field, v => f.Feeds f.IsConverted v
  | .pointer, _ => True

/-- A merge of the step from `s` to `s'` that holds a wanted provenance has it whichever way it is
reached. -/
def Recognised (s s' : State) : Prop :=
  ∀ w ∈ f.definedAt s s'.block, ∀ d, f.def? w = some d → ∀ k, d.merges k = true →
    s'.flags w k = true → f.Wanted k w → f.Derives k (.val w)

/-- The ways out that the validation does not look at are not taken: a constant expression over a
sectioned global does not leave, what an atomic stores depends on no capability, and the native
alloca of a helper is not live across a suspension. -/
structure Plain (s : State) : Prop where
  constants : points.calls = true → ∀ c, f.Leaves s (.const c) → c.pointer f.sectioned = true →
    ∃ g, c = .global g
  atomics : points.calls = true → ∀ value addr, f.opAt s = some (.atomic value addr) →
    ¬ f.Depends value
  allocas : ∀ v, f.Crosses points s v → f.def? v ≠ some (.op (.alloca true))

/-- A run whose states are plain and whose steps are recognised. -/
inductive Run : State → Prop where
  | start (hplain : f.Plain points f.start) : Run f.start
  | step {s s' : State} (choice : Nat) (hrun : Run s) (hstep : f.step choice s = some s')
      (hrec : f.Recognised s s') (hplain : f.Plain points s') : Run s'

def Accepted (facts : LlvmFacts) : Prop :=
  (points.calls = true → f.validateStorageAndCalls facts = none) ∧
    f.validateBackedges facts points.edges = none

/-! ## The provenance of a run is covered by the classification -/

/-- What the values of a state hold and some use asks for, their instructions show. -/
def Covered (s : State) : Prop :=
  ∀ k v, s.flags v k = true → f.Wanted k v → f.Derives k (.val v)

variable {f points} {facts : LlvmFacts} {s s' : State} {op : Op} {choice : Nat}

variable {x : Operand} {v : Val} {t : Nat} {k : Provenance}

theorem Covered.derives_operand (hcov : f.Covered s) (hwanted : ∀ v ∈ x.vals, f.Wanted k v)
    (h : f.eval s.flags x k = true) : f.Derives k x := by
  cases x with
  | val v => exact hcov k v h (hwanted v List.mem_cons_self)
  | const c =>
    cases k with
    | context | field => cases h
    | pointer => exact .global (Const.mentions_of_pointer h)

theorem def?_opAt (hop : f.opAt s = some op) : f.def? (.inst s.block s.index) = some (.op op) := by
  show ((f.body s.block)[s.index]?).map Def.op = some (.op op)
  rw [show (f.body s.block)[s.index]? = some op from hop]
  rfl

/-- What asks for the result's provenance asks for its operands'. -/
theorem wanted_operand (hop : f.opAt s = some op) (hx : x ∈ op.operands)
    (h : f.Wanted k (.inst s.block s.index)) : ∀ v ∈ x.vals, f.Wanted k v := by
  intro v hv
  have hoperand : v ∈ f.operandVals (.inst s.block s.index) := by
    rw [operandVals, def?_opAt hop]
    exact List.mem_flatMap.mpr ⟨x, hx, hv⟩
  cases k with
  | context | field => exact .flow hoperand h
  | pointer => trivial

theorem Covered.derives_loaded (hcov : f.Covered s) {pointer : Bool} {addr : Operand}
    (hop : f.opAt s = some (.load pointer addr)) (h : f.eval s.flags addr .context = true) :
    f.Derives .context addr := by
  refine hcov.derives_operand (fun v hv => ?_) h
  -- the address of this very load feeds a load
  cases addr with
  | val a =>
    rw [List.mem_singleton.mp hv]
    exact .sink ⟨_, pointer, def?_opAt hop⟩
  | const c => cases hv

/-- The result of an instruction that merges nothing derives as its operands do. -/
theorem Covered.result_of_not_merges (hcov : f.Covered s) (hop : f.opAt s = some op)
    (hmerge : (Def.op op).merges k = false) (h : f.result s.flags choice op k = true)
    (hwanted : f.Wanted k (.inst s.block s.index)) : f.Derives k (.val (.inst s.block s.index)) := by
  have hdef := def?_opAt hop
  have hcarried (x : Operand) (hx : x ∈ op.operands) (hc : x ∈ (Def.op op).carried k)
      (h : f.eval s.flags x k = true) : f.Derives k (.val (.inst s.block s.index)) :=
    .carried hdef hc (hcov.derives_operand (wanted_operand hop hx hwanted) h)
  cases op with
  | currentCtx =>
    cases k with
    | context => exact .borrowed hdef rfl
    | field => cases h
    | pointer => exact .source hdef rfl
  | verifierCall pointer args | alloca pointer =>
    cases k with
    | context | field => cases h
    | pointer =>
      obtain rfl : pointer = true := h
      exact .source hdef rfl
  | gep operands =>
    cases k with
    | field => cases h
    | context | pointer =>
      obtain ⟨x, hx, hhas⟩ := List.any_eq_true.mp h
      exact hcarried x hx hx hhas
  | cast toPointer x =>
    cases k with
    | context | field => exact hcarried x List.mem_cons_self List.mem_cons_self h
    | pointer =>
      rcases Bool.or_eq_true_iff.mp h with hptr | hconv
      · exact hcarried x List.mem_cons_self List.mem_cons_self hptr
      · -- an `inttoptr` of a scalar that was loaded from the context
        obtain ⟨rfl, hloaded⟩ := Bool.and_eq_true_iff.mp hconv
        refine .converted hdef (hcov.derives_operand (fun v hv => ?_) hloaded)
        cases x with
        | val a => exact List.mem_singleton.mp hv ▸ .sink ⟨_, hdef⟩
        | const c => cases hv
  | freeze x => exact hcarried x List.mem_cons_self (by cases k <;> exact List.mem_cons_self) h
  | insertValue x y =>
    cases k with
    | context | field => cases hmerge
    | pointer =>
      rcases Bool.or_eq_true_iff.mp h with hx | hy
      · exact hcarried x List.mem_cons_self List.mem_cons_self hx
      · exact hcarried y (by simp [Op.operands]) (by simp [Def.carried]) hy
  | extractValue x =>
    cases k with
    | context | field => cases hmerge
    | pointer => exact hcarried x List.mem_cons_self List.mem_cons_self h
  | load pointer addr =>
    cases k with
    | context => cases h
    | field => exact .loaded hdef (hcov.derives_loaded hop h)
    | pointer =>
      obtain ⟨rfl, hmemory⟩ := Bool.and_eq_true_iff.mp h
      exact .loadedPointer hdef (hcov.derives_loaded hop hmemory)
  | add | sub | select => cases hmerge
  | store | atomic | compute | managedCall | yieldCall | setjmp => cases k <;> cases h

/-- One instruction: its result derives, as a merge by assumption and otherwise as its operands. -/
theorem Covered.stepOp (hcov : f.Covered s) (hop : f.opAt s = some op)
    (hrec : f.Recognised s (f.stepOp choice s op)) : f.Covered (f.stepOp choice s op) := by
  intro k v h hwanted
  by_cases hv : v = .inst s.block s.index
  · subst hv
    cases hmerge : (Def.op op).merges k with
    | true =>
      have hdefined : Val.inst s.block s.index ∈ f.definedAt s s.block := by simp [definedAt, hop]
      exact hrec _ hdefined _ (def?_opAt hop) k hmerge h hwanted
    | false =>
      rw [show (f.stepOp choice s op).flags _ = _ from Function.update_self ..] at h
      exact hcov.result_of_not_merges hop hmerge h hwanted
  · rw [show (f.stepOp choice s op).flags v = _ from Function.update_of_ne hv ..] at h
    exact hcov k v h hwanted

/-- One edge: the PHIs of the target are merges, and the other values stay. -/
theorem Covered.stepEdge (hcov : f.Covered s) (hend : f.opAt s = none)
    (hrec : f.Recognised s (f.stepEdge s t)) : f.Covered (f.stepEdge s t) := by
  intro k v h hwanted
  by_cases hv : v ∈ f.phiVals t
  · obtain ⟨i, hi, rfl⟩ := List.mem_map.mp hv
    have hlt := List.mem_range.mp hi
    have hdef : f.def? (.phi t i) = some (.phi (f.phis t)[i]) := by simp [Func.def?, hlt]
    exact hrec _ (by rwa [definedAt, hend]) _ hdef k rfl h hwanted
  · rw [show (f.stepEdge s t).flags v = s.flags v from if_neg hv] at h
    exact hcov k v h hwanted

/-! ### Whole runs -/

theorem Run.plain (hrun : f.Run points s) : f.Plain points s := by
  cases hrun <;> assumption

end Func

end BpfCapsule.Ssa

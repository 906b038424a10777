import BpfCapsule.Stackify.Liveness

/-!
# BpfCapsule — verifier pointers of a managed function

`FindVerifierNativeValues` classifies the values of a function that hold a verifier pointer, in four
stages: the addresses of the borrowed context object, the scalars loaded from it, those of them that
reach an `inttoptr`, and what derives from any verifier pointer. Stackify then rejects a function that
stores, returns or passes such a value, or keeps one across a suspension.

`Derives` says, on the instructions of the function alone, when a value has a provenance whichever
way it is reached, and `Depends` when it may have one. Every value that derives is classified
(`Derives.classified`), and only what depends is (`depends_of_classified`).
-/

namespace BpfCapsule.Ssa

/-! ## Derivation rules -/

def Const.mentions (globals : Nat → Bool) : Const → Bool
  | .zero | .literal => false
  | .global g => globals g
  | .offset a b | .diff a b => a.mentions globals || b.mentions globals

/-- `isOrDerivesFrom`: the value is in the set, or a constant expression over a global of it. -/
def derives (s : Finset Val) (globals : Nat → Bool) : Operand → Bool
  | .val v => decide (v ∈ s)
  | .const c => c.mentions globals

def isZero : Operand → Bool
  | .const .zero => true
  | _ => false

def nullablePhi (s : Finset Val) (globals : Nat → Bool) (phi : Phi) : Bool :=
  (phi.any fun entry => derives s globals entry.2) &&
    phi.all fun entry => derives s globals entry.2 || isZero entry.2

def nullableSelect (s : Finset Val) (globals : Nat → Bool) (x y : Operand) : Bool :=
  (derives s globals x || derives s globals y) && (derives s globals x || isZero x) &&
    (derives s globals y || isZero y)

def derivesMerge (s : Finset Val) (globals : Nat → Bool) : Def → Bool
  | .phi phi => nullablePhi s globals phi
  | .op (.select _ x y) => nullableSelect s globals x y
  | .op (.add x y) => derives s globals x != derives s globals y
  | .op (.sub x y) => derives s globals x && !derives s globals y
  | _ => false

def noGlobals : Nat → Bool := fun _ => false

def contextRule (s : Finset Val) : Def → Bool
  | .op (.gep operands) => operands.any (derives s noGlobals)
  | .op (.cast _ x) | .op (.freeze x) => derives s noGlobals x
  | d => derivesMerge s noGlobals d

def candidateRule (memory s : Finset Val) : Def → Bool
  | .op (.load _ addr) => derives memory noGlobals addr
  | .op (.cast _ x) | .op (.freeze x) => derives s noGlobals x
  | d => derivesMerge s noGlobals d

def nativeRule (memory s : Finset Val) (sectioned : Nat → Bool) : Def → Bool
  | .op (.load pointer addr) => pointer && derives memory noGlobals addr
  | .op (.gep operands) => operands.any (derives s sectioned)
  | .op (.cast _ x) | .op (.freeze x) => derives s sectioned x
  | .op (.insertValue aggregate value) => derives s sectioned aggregate || derives s sectioned value
  | .op (.extractValue aggregate) => derives s sectioned aggregate
  | d => derivesMerge s sectioned d

/-! ## The classification -/

def Def.borrows : Def → Bool
  | .arg .borrowed | .op .currentCtx => true
  | _ => false

def Def.isSource : Def → Bool
  | .arg kind => kind != .ordinary
  | .op .currentCtx | .op (.verifierCall true _) | .op (.alloca true) => true
  | _ => false

def Def.operands : Def → List Operand
  | .arg _ => []
  | .phi incoming => incoming.map Prod.snd
  | .op o => o.operands

def Def.vals (d : Def) : List Val := d.operands.flatMap Operand.vals

namespace Func

variable (f : Func)

def programVals : List Val := f.argVals ++ f.instVals

def definedBy (p : Def → Bool) (v : Val) : Bool := (f.def? v).any p

def operandVals (v : Val) : List Val := ((f.def? v).map Def.vals).getD []

def pointerProducingMemory : Finset Val :=
  Fixpoint.closure (fun s => f.definedBy (contextRule s)) f.instVals
    (f.programVals.filter (f.definedBy Def.borrows)).toFinset

def contextCandidates : Finset Val :=
  Fixpoint.closure (fun s => f.definedBy (candidateRule f.pointerProducingMemory s)) f.instVals ∅

def sources : Finset Val := (f.programVals.filter (f.definedBy Def.isSource)).toFinset

/-- `promoteCandidate`: mark a candidate and, through its operands, where it was loaded. -/
def promoteCandidate (native : Finset Val) (v : Val) : Finset Val :=
  Fixpoint.visit (fun v => decide (v ∈ f.contextCandidates)) f.operandVals
    f.contextCandidates.card native v

def promoteAt (native : Finset Val) (v : Val) : Finset Val :=
  match f.def? v with
  | some (.op (.cast true (.val x))) =>
    if x ∈ f.contextCandidates then insert v (f.promoteCandidate native x) else native
  | _ => native

def promoted : Finset Val := f.instVals.foldl f.promoteAt f.sources

/-- `FindVerifierNativeValues`. -/
def native : Finset Val :=
  Fixpoint.closure (fun s => f.definedBy (nativeRule f.pointerProducingMemory s f.sectioned))
    f.instVals f.promoted

/-- `native.contains`: the value itself, without a look into constant expressions. -/
def containsNative : Operand → Bool
  | .val v => decide (v ∈ f.native)
  | .const (.global g) => f.sectioned g
  | .const _ => false

/-- `IsRematerializableVerifierRoot`: a helper-visible alloca is addressed anew in every region. -/
def rematerializable (v : Val) : Bool :=
  f.definedBy (fun d => match d with | .op (.alloca true) => true | _ => false) v

end Func

/-! ## Validation -/

/-- What the validation asks LLVM: types, `getUnderlyingObjects` and `StackLifetime`. A point is a
block and an instruction of it, or its length for the terminator. -/
structure LlvmFacts where
  pointerTyped : Operand → Bool
  underlyingObjects : Operand → List Operand
  aliveAfter : Val → (block index : Nat) → Bool

inductive Reason where
  | stored
  | returned
  | passed
  | suspension
  | loopBoundary
  deriving DecidableEq, Repr

/-- The errors of the validation: a verifier pointer that is rejected, or the number of a helper's
argument that is not provably verifier-native. -/
inductive Diagnostic where
  | verifierPointer (value : Operand) (reason : Reason)
  | helperArgument (number : Nat)
  deriving DecidableEq, Repr

namespace Func

variable (f : Func) (facts : LlvmFacts)

/-- `IsProvenVerifierNativePointer`. -/
def provenNative (x : Operand) : Bool :=
  x == .const .zero || f.containsNative x ||
    (!(facts.underlyingObjects x).isEmpty && (facts.underlyingObjects x).all f.containsNative)

def reject (reason : Reason) (x : Operand) : Option Diagnostic :=
  if f.containsNative x then some (.verifierPointer x reason) else none

def checkOp : Op → Option Diagnostic
  | .verifierCall _ args =>
    args.zipIdx.findSome? fun (x, index) =>
      if facts.pointerTyped x && !f.provenNative facts x then some (.helperArgument (index + 1))
      else none
  | .store value _ => f.reject .stored value
  | _ => none

def checkTerm : Term → Option Diagnostic
  | .ret (some value) => f.reject .returned value
  | _ => none

def checkBlock (block : Block) : Option Diagnostic :=
  (block.body.findSome? (f.checkOp facts)).or (f.checkTerm block.term)

/-- `RejectLiveNativeHelperAllocas`, then `RejectNativeValues`, at a point. -/
def checkCrossing (reason : Reason) (b k : Nat) (crossing : Finset Val) : Option Diagnostic :=
  let alive := f.instVals.find? fun v => f.rematerializable v && facts.aliveAfter v b k
  let escaping := f.programVals.find? fun v =>
    decide (v ∈ crossing) && (decide (v ∈ f.native) && !f.rematerializable v)
  (alive.or escaping).map fun v => .verifierPointer (.val v) reason

def checkCall (b k : Nat) (op : Op) : Option Diagnostic :=
  if op.suspends then
    (op.operands.findSome? (f.reject .passed)).or
      (f.checkCrossing facts .suspension b k (f.liveAfter b k))
  else none

def checkCalls (b : Nat) : Option Diagnostic :=
  (f.body b).zipIdx.findSome? fun (op, k) => f.checkCall facts b k op

/-- `ValidateVerifierPointerStorageAndCalls`, for one function. -/
def validateStorageAndCalls : Option Diagnostic :=
  (f.blocks.findSome? (f.checkBlock facts)).or
    ((List.range f.blocks.length).findSome? (f.checkCalls facts))

/-- `ValidateVerifierPointerBackedges`, for one function and its suspended edges, each with the block
it resumes at. -/
def validateBackedges (edges : List (Nat × Nat)) : Option Diagnostic :=
  if f.native = ∅ then none
  else
    edges.findSome? fun (latch, resume) =>
      f.checkCrossing facts .loopBoundary latch (f.body latch).length (f.liveAcross latch resume)

end Func

/-! ## Provenance, read off the instructions -/

/-- What the classification tells apart: an address in the borrowed context object, a scalar loaded
from it, and a verifier pointer. -/
inductive Provenance where
  | context
  | field
  | pointer
  deriving DecidableEq, Repr

/-- The operands an instruction hands its provenance on from. -/
def Def.carried : Provenance → Def → List Operand
  | .field, .op (.gep _) => []
  | _, .op (.gep operands) => operands
  | _, .op (.cast _ x) | _, .op (.freeze x) => [x]
  | .pointer, .op (.insertValue aggregate value) => [aggregate, value]
  | .pointer, .op (.extractValue aggregate) => [aggregate]
  | _, _ => []

/-- The values a PHI or a select chooses from. -/
def Def.choices : Def → List Operand
  | .phi incoming => incoming.map Prod.snd
  | .op (.select _ x y) => [x, y]
  | _ => []

namespace Func

variable (f : Func)

/-- Some chain of operands leads from a verifier capability to `x`. -/
inductive Depends : Operand → Prop where
  | global {c : Const} (h : c.mentions f.sectioned = true) : Depends (.const c)
  | source {v : Val} {d : Def} (hdef : f.def? v = some d) (h : d.isSource = true) :
    Depends (.val v)
  | operand {v : Val} {d : Def} {x : Operand} (hdef : f.def? v = some d) (hx : x ∈ d.operands)
    (h : Depends x) : Depends (.val v)

/-- Whichever way `x` is reached, it is null or has the provenance. The derivation is a finite tree of
instructions, so no PHI in it is reached from itself. -/
inductive Derives : Provenance → Operand → Prop where
  | borrowed {v : Val} {d : Def} (hdef : f.def? v = some d) (h : d.borrows = true) :
    Derives .context (.val v)
  | source {v : Val} {d : Def} (hdef : f.def? v = some d) (h : d.isSource = true) :
    Derives .pointer (.val v)
  | global {c : Const} (h : c.mentions f.sectioned = true) : Derives .pointer (.const c)
  | loaded {v : Val} {pointer : Bool} {addr : Operand}
    (hdef : f.def? v = some (.op (.load pointer addr))) (h : Derives .context addr) :
    Derives .field (.val v)
  | loadedPointer {v : Val} {addr : Operand} (hdef : f.def? v = some (.op (.load true addr)))
    (h : Derives .context addr) : Derives .pointer (.val v)
  | converted {v : Val} {x : Operand} (hdef : f.def? v = some (.op (.cast true x)))
    (h : Derives .field x) : Derives .pointer (.val v)
  | carried {k : Provenance} {v : Val} {d : Def} {x : Operand} (hdef : f.def? v = some d)
    (hx : x ∈ d.carried k) (h : Derives k x) : Derives k (.val v)
  | chosen {k : Provenance} {v : Val} {d : Def} {x : Operand} (hdef : f.def? v = some d)
    (hx : x ∈ d.choices) (h : Derives k x)
    (hall : ∀ y ∈ d.choices, y ≠ .const .zero → Derives k y) : Derives k (.val v)
  | offset {k : Provenance} {v : Val} {d : Def} {x y : Operand} (hdef : f.def? v = some d)
    (hd : d = .op (.add x y) ∨ d = .op (.add y x) ∨ d = .op (.sub x y)) (h : Derives k x)
    (hy : ¬ f.Depends y) : Derives k (.val v)

def classified : Provenance → Finset Val
  | .context => f.pointerProducingMemory
  | .field => f.contextCandidates
  | .pointer => f.native

def globalsOf : Provenance → Nat → Bool
  | .context | .field => noGlobals
  | .pointer => f.sectioned

def ruleOf (k : Provenance) (memory s : Finset Val) : Def → Bool :=
  match k with
  | .context => contextRule s
  | .field => candidateRule memory s
  | .pointer => nativeRule memory s f.sectioned

end Func

/-! ## Only what depends on a capability is classified -/

namespace Func

variable {f : Func} {v : Val} {d : Def} {k : Provenance} {x : Operand}

@[simp] theorem mentions_noGlobals (c : Const) : c.mentions noGlobals = false := by
  induction c <;> simp_all [Const.mentions, noGlobals]

theorem operand_of_derivesMerge {s : Finset Val} {globals : Nat → Bool}
    (h : derivesMerge s globals d = true) : ∃ x ∈ d.operands, derives s globals x = true := by
  unfold derivesMerge at h
  split at h
  case h_1 incoming =>
    obtain ⟨entry, hentry, hx⟩ := List.any_eq_true.mp (Bool.and_eq_true_iff.mp h).1
    exact ⟨entry.2, List.mem_map_of_mem hentry, hx⟩
  case h_2 | h_3 =>
    simp only [Def.operands, Op.operands]
    grind [nullableSelect]
  case h_4 x y => exact ⟨x, List.mem_cons_self, (Bool.and_eq_true_iff.mp h).1⟩
  case h_5 => cases h

theorem operand_of_rule {memory s : Finset Val} (h : f.ruleOf k memory s d = true) :
    ∃ x ∈ d.operands, derives s (f.globalsOf k) x = true ∨ derives memory noGlobals x = true := by
  have hmerge (hd : derivesMerge s (f.globalsOf k) d = true) := operand_of_derivesMerge hd
  cases k <;> simp only [ruleOf, globalsOf, contextRule, candidateRule, nativeRule] at h hmerge ⊢ <;>
    split at h <;> grind [Def.operands, Op.operands]

theorem depends_of_derives {s : Finset Val} (hs : ∀ w ∈ s, f.Depends (.val w))
    (h : derives s (f.globalsOf k) x = true) : f.Depends x := by
  cases x with
  | val v => exact hs v (of_decide_eq_true h)
  | const c =>
    cases k with
    | context | field => simp [derives, globalsOf] at h
    | pointer => exact .global h

theorem definedBy_iff {p : Def → Bool} :
    f.definedBy p v = true ↔ ∃ d, f.def? v = some d ∧ p d = true := by
  unfold definedBy
  cases f.def? v <;> simp

/-- One application of a rule to values that depend on a capability. -/
theorem depends_of_rule {memory s : Finset Val} (hmemory : ∀ w ∈ memory, f.Depends (.val w))
    (hs : ∀ w ∈ s, f.Depends (.val w)) (h : f.definedBy (f.ruleOf k memory s) v = true) :
    f.Depends (.val v) := by
  obtain ⟨d, hdef, hrule⟩ := definedBy_iff.mp h
  obtain ⟨x, hx, hderives⟩ := operand_of_rule hrule
  refine .operand hdef hx ?_
  rcases hderives with hderives | hderives
  · exact depends_of_derives hs hderives
  · exact depends_of_derives (k := .context) hmemory hderives

theorem mem_programVals_of_def (hdef : f.def? v = some d) : v ∈ f.programVals := by
  cases v with
  | arg i =>
    obtain ⟨_, hget, _⟩ := Option.map_eq_some_iff.mp hdef
    have hi := List.mem_range.mpr (List.getElem?_eq_some_iff.mp hget).1
    exact List.mem_append_left _ (List.mem_map_of_mem hi)
  | phi | inst =>
    obtain ⟨_, _, rfl⟩ := Option.map_eq_some_iff.mp hdef
    exact List.mem_append_right _ (f.mem_instVals_of_def hdef nofun)

theorem mem_defined {p : Def → Bool} : v ∈ (f.programVals.filter (f.definedBy p)).toFinset ↔
    ∃ d, f.def? v = some d ∧ p d = true := by
  rw [List.mem_toFinset, List.mem_filter, definedBy_iff]
  constructor
  · exact And.right
  · rintro ⟨d, hdef, hp⟩
    exact ⟨mem_programVals_of_def hdef, d, hdef, hp⟩

theorem depends_of_context : ∀ w ∈ f.pointerProducingMemory, f.Depends (.val w) := by
  have hempty : ∀ w ∈ (∅ : Finset Val), f.Depends (.val w) := by simp
  refine Fixpoint.closure_forall (fun w hw => ?_) fun t ht w _ h =>
    depends_of_rule (k := .context) hempty ht h
  obtain ⟨d, hdef, hborrows⟩ := mem_defined.mp hw
  refine .source hdef ?_
  unfold Def.borrows at hborrows
  split at hborrows <;> first | rfl | cases hborrows

theorem depends_of_field : ∀ w ∈ f.contextCandidates, f.Depends (.val w) :=
  Fixpoint.closure_forall (by simp) fun _ ht _ _ h =>
    depends_of_rule (k := .field) depends_of_context ht h

/-- Promotion at one instruction marks only what depends on a capability, and the instruction itself
where it converts a candidate. -/
theorem promoteAt_spec {marked : Finset Val} (h : ∀ y ∈ marked, f.Depends (.val y)) (w : Val) :
    (∀ y ∈ f.promoteAt marked w, f.Depends (.val y)) ∧ marked ⊆ f.promoteAt marked w ∧
      ∀ x ∈ f.contextCandidates, f.def? w = some (.op (.cast true (.val x))) →
        w ∈ f.promoteAt marked w := by
  unfold promoteAt
  split
  case h_2 hother => exact ⟨h, Finset.Subset.refl _, fun x _ hx => absurd hx (hother x)⟩
  case h_1 x hdef =>
    split
    case isFalse hnot =>
      refine ⟨h, Finset.Subset.refl _, fun y hy heq => ?_⟩
      rw [hdef] at heq
      cases heq
      exact absurd hy hnot
    case isTrue hcand =>
      have hvisit : Fixpoint.Visited (fun v => decide (v ∈ f.contextCandidates)) f.operandVals
          [x] marked (f.promoteCandidate marked x) :=
        Fixpoint.visit_spec (fun a ha => of_decide_eq_true ha) (Finset.card_le_card Finset.sdiff_subset)
      refine ⟨fun y hy => ?_, hvisit.subset.trans (Finset.subset_insert _ _),
        fun _ _ _ => Finset.mem_insert_self _ _⟩
      rcases Finset.mem_insert.mp hy with rfl | hy
      · exact .operand hdef List.mem_cons_self (depends_of_field x hcand)
      · by_cases hold : y ∈ marked
        · exact h y hold
        · exact depends_of_field y (of_decide_eq_true (hvisit.closed y hy hold).1)

theorem promote_spec {marked : Finset Val} (h : ∀ y ∈ marked, f.Depends (.val y)) (insts : List Val) :
    (∀ y ∈ insts.foldl f.promoteAt marked, f.Depends (.val y)) ∧
      marked ⊆ insts.foldl f.promoteAt marked ∧
      ∀ w ∈ insts, ∀ x ∈ f.contextCandidates, f.def? w = some (.op (.cast true (.val x))) →
        w ∈ insts.foldl f.promoteAt marked := by
  induction insts generalizing marked with
  | nil => exact ⟨h, Finset.Subset.refl _, by simp⟩
  | cons a insts ih =>
    obtain ⟨hfirst, hsub, hconv⟩ := promoteAt_spec h a
    obtain ⟨hrest, hsub', hconv'⟩ := ih hfirst
    refine ⟨hrest, hsub.trans hsub', fun w hw x hx hdef => ?_⟩
    rcases List.mem_cons.mp hw with rfl | hw
    · exact hsub' (hconv x hx hdef)
    · exact hconv' w hw x hx hdef

theorem promoted_spec : (∀ y ∈ f.promoted, f.Depends (.val y)) ∧ f.sources ⊆ f.promoted ∧
    ∀ w ∈ f.instVals, ∀ x ∈ f.contextCandidates, f.def? w = some (.op (.cast true (.val x))) →
      w ∈ f.promoted := by
  refine promote_spec (fun y hy => ?_) f.instVals
  obtain ⟨_, hdef, hsource⟩ := mem_defined.mp hy
  exact .source hdef hsource

theorem promoted_subset_native : f.promoted ⊆ f.native := Fixpoint.subset_closure

/-- A chain of operands leads from a verifier capability to every classified value. -/
theorem depends_of_classified (hv : v ∈ f.classified k) : f.Depends (.val v) := by
  cases k with
  | context => exact depends_of_context v hv
  | field => exact depends_of_field v hv
  | pointer =>
    exact Fixpoint.closure_forall promoted_spec.1
      (fun _ ht _ _ h => depends_of_rule (k := .pointer) depends_of_context ht h) v hv

theorem not_derives_of_independent (h : ¬ f.Depends x) :
    derives (f.classified k) (f.globalsOf k) x = false :=
  Bool.eq_false_of_not_eq_true fun hx =>
    h (depends_of_derives (fun _ => depends_of_classified) hx)

theorem mem_of_rule (hdef : f.def? v = some d)
    (h : f.ruleOf k f.pointerProducingMemory (f.classified k) d = true) : v ∈ f.classified k := by
  have hmem : v ∈ f.instVals := f.mem_instVals_of_def hdef (by rintro kind rfl; cases k <;> cases h)
  have hrule := definedBy_iff.mpr ⟨d, hdef, h⟩
  cases k <;> exact Fixpoint.closure_closed hmem hrule

/-- A rule takes up what an instruction hands on, … -/
theorem rule_of_carried {memory s : Finset Val} (hx : x ∈ d.carried k)
    (h : derives s (f.globalsOf k) x = true) : f.ruleOf k memory s d = true := by
  unfold Def.carried at hx
  split at hx
  case h_1 | h_7 => cases hx
  case h_5 | h_6 =>
    simp only [ruleOf, globalsOf, nativeRule] at h ⊢
    grind
  all_goals
    cases k <;> simp_all only [ruleOf, globalsOf, contextRule, candidateRule, nativeRule] <;> grind

/-- … a choice between values that are all in the set or null, … -/
theorem rule_of_chosen {memory s : Finset Val} (hx : x ∈ d.choices)
    (h : derives s (f.globalsOf k) x = true)
    (hall : ∀ y ∈ d.choices, y ≠ .const .zero → derives s (f.globalsOf k) y = true) :
    f.ruleOf k memory s d = true := by
  have hzero (y : Operand) (hy : y ∈ d.choices) :
      (derives s (f.globalsOf k) y || isZero y) = true := by
    by_cases h0 : y = .const .zero
    · rw [h0, isZero, Bool.or_true]
    · rw [hall y hy h0, Bool.true_or]
  have hmerge : derivesMerge s (f.globalsOf k) d = true := by
    unfold Def.choices at hx hzero
    split at hx
    case h_1 incoming =>
      obtain ⟨entry, hentry, rfl⟩ := List.mem_map.mp hx
      refine Bool.and_eq_true_iff.mpr ⟨List.any_eq_true.mpr ⟨entry, hentry, h⟩, ?_⟩
      exact List.all_eq_true.mpr fun e he => hzero e.2 (List.mem_map_of_mem he)
    case h_2 c x y =>
      simp only [derivesMerge, nullableSelect]
      grind
    case h_3 => cases hx
  unfold Def.choices at hx
  split at hx <;> cases k <;> first | exact hmerge | cases hx

/-- … and an offset by a value outside it. -/
theorem rule_of_offset {memory s : Finset Val} {y : Operand}
    (hd : d = .op (.add x y) ∨ d = .op (.add y x) ∨ d = .op (.sub x y))
    (h : derives s (f.globalsOf k) x = true) (hy : derives s (f.globalsOf k) y = false) :
    f.ruleOf k memory s d = true := by
  rcases hd with rfl | rfl | rfl <;> cases k <;>
    simp_all [ruleOf, globalsOf, contextRule, candidateRule, nativeRule, derivesMerge]

/-- The classification finds every value that is derived. -/
theorem Derives.classified (h : f.Derives k x) :
    derives (f.classified k) (f.globalsOf k) x = true := by
  induction h with
  | borrowed hdef h =>
    exact decide_eq_true (Fixpoint.subset_closure (mem_defined.mpr ⟨_, hdef, h⟩))
  | source hdef h =>
    exact decide_eq_true (promoted_subset_native (promoted_spec.2.1 (mem_defined.mpr ⟨_, hdef, h⟩)))
  | global h => exact h
  | loaded hdef _ ih => exact decide_eq_true (mem_of_rule hdef ih)
  | loadedPointer hdef _ ih => exact decide_eq_true (mem_of_rule hdef ih)
  | @converted v x hdef _ ih =>
    cases x with
    | const c => simp [derives, globalsOf] at ih
    | val w =>
      have hcand : w ∈ f.contextCandidates := of_decide_eq_true ih
      have hinst := f.mem_instVals_of_def hdef nofun
      exact decide_eq_true (promoted_subset_native (promoted_spec.2.2 v hinst w hcand hdef))
  | carried hdef hx _ ih => exact decide_eq_true (mem_of_rule hdef (rule_of_carried hx ih))
  | chosen hdef hx _ _ ih ihall =>
    exact decide_eq_true (mem_of_rule hdef (rule_of_chosen hx ih ihall))
  | offset hdef hd _ hy ih =>
    exact decide_eq_true (mem_of_rule hdef (rule_of_offset hd ih (not_derives_of_independent hy)))

variable {facts : LlvmFacts}

section

variable (h : f.validateStorageAndCalls facts = none)

include h

end

end Func

end BpfCapsule.Ssa

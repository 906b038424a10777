import BpfCapsule.Lib.Worklist
import BpfCapsule.Lib.Check

/-!
# BpfCapsule — the domain assignment

`bpf-capsule-domains` sorts the functions of a module into those that run natively on the BPF stack
and those behind a `capsule_call`, and refuses a module in which the two share a function or an
unsectioned global. Of a module it reads which values the instructions use, how the constants are
built from other values, and a few attributes of functions and globals.

A constant is named by its index: constants are shared, and a global variable is a constant whose
operand is its initializer, so the graph of constants can have cycles. Which functions have their
address taken is LLVM's `hasAddressTaken`, and any answer is allowed here.
-/

namespace BpfCapsule.Domains

/-! ## Modules -/

/-- A value used as an operand: a function, a constant with operands, one without (a number, null,
undef), or a value of the running function. -/
inductive Value where
  | func (f : Nat)
  | const (c : Nat)
  | leaf
  | dynamic
  deriving DecidableEq, Repr

/-- A call: its callee value, the function type it is made at, and whether it carries the
`bpf.capsule.call` bundle, is inline assembly or an intrinsic. -/
structure Call where
  callee : Value
  args : List Value
  type : Nat
  boundary : Bool := false
  inlineAsm : Bool := false
  intrinsic : Bool := false
  deriving DecidableEq, Repr

inductive Inst where
  | call (call : Call)
  | plain (operands : List Value)
  deriving DecidableEq, Repr

/-- A function; a declaration has no body. `entryProgram` says that it owns a program section,
`trampoline` that it is a driver of the runtime. -/
structure Function where
  type : Nat
  body : Option (List Inst)
  entryProgram : Bool := false
  trampoline : Bool := false
  deriving DecidableEq, Repr

/-- What is read of a global variable besides its initializer. -/
structure Global where
  isDeclaration : Bool := false
  /-- The name starts with `llvm.`. -/
  llvmName : Bool := false
  hasSection : Bool := false
  capsuleOwned : Bool := false
  deriving DecidableEq, Repr

/-- A constant with operands. `castOf` is the value it is a pointer cast of; a cast, or an address
computation whose indices are all zero, has no other operand that names anything. -/
structure Constant where
  operands : List Value
  global : Option Global := none
  castOf : Option Value := none
  cast_operands : ∀ v, castOf = some v → v ∈ operands ∧ ∀ u ∈ operands, u = v ∨ u = .leaf := by
    simp

structure Module where
  functions : List Function
  constants : List Constant
  addressTaken : Nat → Bool
  /-- The function named `bpf::sym::ExitMarker`. -/
  exitMarker : Option Nat

def Inst.operands : Inst → List Value
  | .call c => c.args ++ [c.callee]
  | .plain operands => operands

def Inst.isBoundary : Inst → Bool
  | .call c => c.boundary
  | .plain _ => false

/-- What the pass refuses. The function and the global that two domains share are named in the
diagnostic; the first one found depends on the order of a pointer set. -/
inductive DomainError where
  /-- "capsule boundary lost its static target" -/
  | lostTarget
  /-- "capsule_call inside Capsule function" -/
  | nestedCall (f : Nat)
  /-- "is reachable from both native code and a capsule_call" -/
  | sharedFunction
  /-- "is shared by native and Capsule code" -/
  | sharedGlobal (c : Nat)
  deriving DecidableEq, Repr

namespace Module

variable (M : Module)

def body (f : Nat) : List Inst := ((M.functions[f]?).bind Function.body).getD []

def isDeclaration (f : Nat) : Bool := ((M.functions[f]?).bind Function.body).isNone

def isEntryProgram (f : Nat) : Bool := ((M.functions[f]?).map Function.entryProgram).getD false

def isCompilerDriver (f : Nat) : Bool := ((M.functions[f]?).map Function.trampoline).getD false

def functionType (f : Nat) : Option Nat := (M.functions[f]?).map Function.type

def operands : Value → List Value
  | .const c => ((M.constants[c]?).map Constant.operands).getD []
  | _ => []

def functionIds : List Nat := List.range M.functions.length

/-! ## Indirect targets and references -/

/-- A defined function an indirect call can reach: its address is taken, and it is neither an entry
program nor a driver. -/
def isIndirectTarget (f : Nat) : Bool :=
  !M.isDeclaration f && !M.isEntryProgram f && !M.isCompilerDriver f && M.addressTaken f

/-- `FindIndirectTargets`: the candidates of a function type, in module order. -/
def findIndirectTargets (type : Nat) : List Nat :=
  M.functionIds.filter fun f => M.isIndirectTarget f && M.functionType f = some type

def stripPointerCasts : (fuel : Nat) → Value → Value
  | 0, v => v
  | fuel + 1, .const c =>
    match (M.constants[c]?).bind Constant.castOf with
    | some v => stripPointerCasts fuel v
    | none => .const c
  | _ + 1, v => v

def asFunction (v : Value) : Option Nat :=
  match M.stripPointerCasts M.constants.length v with
  | .func f => some f
  | _ => none

/-- `AddReferencedFunctions`: the functions pushed and the values seen so far. -/
def addReferencedFunctions : (fuel : Nat) → List Nat × Finset Value → Value →
    List Nat × Finset Value
  | 0, st, _ => st
  | fuel + 1, (work, seen), v =>
    if v ∈ seen then (work, seen)
    else
      match M.asFunction v with
      | some f => (if M.isDeclaration f then work else work ++ [f], insert v seen)
      | none => (M.operands v).foldl (addReferencedFunctions fuel) (work, insert v seen)

def values : Finset Value :=
  (M.constants.flatMap Constant.operands ++
    M.functionIds.flatMap fun f => (M.body f).flatMap Inst.operands).toFinset

def referenced (operands : List Value) : List Nat :=
  (operands.foldl (M.addReferencedFunctions M.values.card) ([], ∅)).1

/-- `getCalledFunction`: the callee, when it is a function of the type the call is made at. -/
def calledFunction (c : Call) : Option Nat :=
  match c.callee with
  | .func f => if M.functionType f = some c.type then some f else none
  | _ => none

/-- What a call leads to besides its operands. A call through a constant is a numbered helper. -/
def called (c : Call) : List Nat :=
  if c.inlineAsm || c.intrinsic then []
  else
    match M.calledFunction c with
    | some f => if M.isDeclaration f then [] else [f]
    | none =>
      match c.callee with
      | .dynamic => M.findIndirectTargets c.type
      | _ => []

/-! ## Reachability -/

/-- The functions pushed for one instruction of `f`. -/
def pushedBy (native : Bool) (f : Nat) : Inst → Except DomainError (List Nat)
  | .call c =>
    if c.boundary then if native then .ok [] else .error (.nestedCall f)
    else .ok (M.referenced (Inst.call c).operands ++ M.called c)
  | .plain operands => .ok (M.referenced operands)

/-- The functions pushed for `f`, the last one first. -/
def expand (native : Bool) (f : Nat) : Except DomainError (List Nat) := do
  let pushed ← (M.body f).mapM (M.pushedBy native f)
  .ok pushed.flatten.reverse

/-- How much `f` pushes at most. -/
def pushes (native : Bool) (f : Nat) : Nat :=
  match M.expand native f with
  | .ok next => next.length
  | .error _ => 0

def reach (roots : List Nat) (native : Bool) : Except DomainError (Finset Nat) :=
  Worklist.explore M.isDeclaration (M.expand native)
    (roots.length + ∑ f ∈ Finset.range M.functions.length, M.pushes native f) roots.reverse ∅

/-! ## The owners of a global -/

/-- A user of a value: an instruction, by function and position, or a constant. -/
inductive User where
  | inst (f i : Nat)
  | const (c : Nat)
  deriving DecidableEq, Repr

def User.ownedBy (domain : Finset Nat) : User → Bool
  | .inst f _ => f ∈ domain
  | .const _ => false

def instUsers (v : Value) : List User :=
  M.functionIds.flatMap fun f =>
    ((M.body f).zipIdx.filter fun p => v ∈ p.1.operands).map fun p => .inst f p.2

def constUsers (v : Value) : List User :=
  ((List.range M.constants.length).filter fun c => v ∈ M.operands (.const c)).map .const

def users (v : Value) : List User := M.instUsers v ++ M.constUsers v

def usersOf : User → List User
  | .inst _ _ => []
  | .const c => M.users (.const c)

def allUsers : Finset User :=
  (M.functionIds.flatMap (fun f => (List.range (M.body f).length).map (User.inst f)) ++
    (List.range M.constants.length).map User.const).toFinset

/-- The instructions that use a constant, directly or through other constants. -/
def transitiveUsers (c : Nat) : Finset User :=
  match (Worklist.explore (fun _ => false) (fun u => .ok (M.usersOf u))
    ((M.users (.const c)).length + ∑ u ∈ M.allUsers, (M.usersOf u).length)
    (M.users (.const c)).reverse ∅ : Except Empty (Finset User)) with
  | .ok users => users

/-- `FindGlobalOwners`, for one domain. -/
def usedIn (domain : Finset Nat) (c : Nat) : Bool :=
  decide (∃ u ∈ M.transitiveUsers c, u.ownedBy domain = true)

/-! ## The pass -/

/-- The target of an instruction that is a `capsule_call` boundary. -/
def boundaryRoot : Inst → Except DomainError (List Nat)
  | .call c =>
    if c.boundary then
      match M.calledFunction c with
      | some root => .ok [root]
      | none => .error .lostTarget
    else .ok []
  | .plain _ => .ok []

def boundaryRoots : Except DomainError (List Nat) := do
  let roots ← (M.functionIds.flatMap M.body).mapM M.boundaryRoot
  .ok roots.flatten

def callsMarker (inst : Inst) : Bool :=
  match inst, M.exitMarker with
  | .call c, some marker => .func marker ∈ (Inst.call c).operands && M.asFunction c.callee = some marker
  | _, _ => false

def markerRoots : List Nat := M.functionIds.filter fun f => (M.body f).any M.callsMarker

structure Labels where
  native : Finset Nat
  capsule : Finset Nat
  nativeGlobals : List Nat
  capsuleGlobals : List Nat
  deriving DecidableEq

def global? (c : Nat) : Option Global := (M.constants[c]?).bind Constant.global

def ownedGlobals : List Nat :=
  (List.range M.constants.length).filter fun c =>
    match M.global? c with
    | some g => !g.isDeclaration && !g.llvmName
    | none => false

def unshareable (c : Nat) : Bool :=
  match M.global? c with
  | some g => !g.hasSection && !g.capsuleOwned
  | none => false

/-- `CapsuleDomainsPass::run`. -/
def run : Except DomainError Labels := do
  let nativeRoots := M.functionIds.filter M.isEntryProgram
  let boundary ← M.boundaryRoots
  let native ← M.reach nativeRoots true
  let taken := M.functionIds.filter fun f => M.isIndirectTarget f && !decide (f ∈ native)
  let capsule ← M.reach (boundary ++ M.markerRoots ++ taken) false
  Check.rejectIf (¬ Disjoint native capsule) DomainError.sharedFunction
  M.ownedGlobals.forM fun c =>
    Check.rejectIf (M.usedIn native c = true ∧ M.usedIn capsule c = true ∧ M.unshareable c = true)
      (DomainError.sharedGlobal c)
  .ok
    { native := native
      capsule := capsule
      nativeGlobals := M.ownedGlobals.filter (M.usedIn native)
      capsuleGlobals := M.ownedGlobals.filter (M.usedIn capsule) }

end Module

end BpfCapsule.Domains

import Mathlib.Tactic.Common

/-!
# BpfCapsule — managed functions in SSA form

The LLVM functions that the analyses of Stackify read. A value is named by where it is defined, so a
function cannot define a value twice; PHIs stand at the head of their block and take their operand
from the edge. Only what the analyses look at is kept of an instruction: its operands and the class
the analyses sort it into (`Op.compute` is every instruction they ignore).
-/

namespace BpfCapsule.Ssa

/-- An SSA value: an argument, a PHI or an instruction of a block. -/
inductive Val where
  | arg (index : Nat)
  | phi (block index : Nat)
  | inst (block index : Nat)
  deriving DecidableEq, Repr

/-- A constant. `zero` is null or a zero integer; `offset` and `diff` are constant expressions. -/
inductive Const where
  | zero
  | literal
  | global (g : Nat)
  | offset (base index : Const)
  | diff (left right : Const)
  deriving DecidableEq, Repr

inductive Operand where
  | val (v : Val)
  | const (c : Const)
  deriving DecidableEq, Repr

/-- The argument attributes of the verifier's own pointers. -/
inductive ArgKind where
  | ordinary
  | borrowed
  | stackBacking
  | control
  deriving DecidableEq, Repr

inductive Op where
  | currentCtx
  /-- A BPF helper or kfunc; `pointer` says that it returns one. -/
  | verifierCall (pointer : Bool) (args : List Operand)
  /-- A local; `helperVisible` ones stay on the native BPF stack. -/
  | alloca (helperVisible : Bool)
  | gep (operands : List Operand)
  /-- A cast; `toPointer` is `inttoptr`. -/
  | cast (toPointer : Bool) (x : Operand)
  | freeze (x : Operand)
  | add (x y : Operand)
  | sub (x y : Operand)
  | select (cond x y : Operand)
  | insertValue (aggregate value : Operand)
  | extractValue (aggregate : Operand)
  /-- A load; `pointer` says that the loaded type is one. -/
  | load (pointer : Bool) (addr : Operand)
  | store (value addr : Operand)
  | atomic (value addr : Operand)
  | compute (operands : List Operand)
  | managedCall (args : List Operand)
  | yieldCall
  | setjmp (args : List Operand)
  deriving DecidableEq, Repr

inductive Term where
  | jump (operands : List Operand) (successors : List Nat)
  | ret (value : Option Operand)
  deriving DecidableEq, Repr

abbrev Phi := List (Nat × Operand)

structure Block where
  phis : List Phi
  body : List Op
  term : Term
  deriving DecidableEq, Repr

/-- A managed function, with the globals that keep a verifier map-value address. -/
structure Func where
  args : List ArgKind
  blocks : List Block
  sectioned : Nat → Bool

/-! ## Operands -/

def Operand.vals : Operand → List Val
  | .val v => [v]
  | .const _ => []

def Op.operands : Op → List Operand
  | .currentCtx | .alloca _ | .yieldCall => []
  | .verifierCall _ args | .managedCall args | .setjmp args => args
  | .gep operands | .compute operands => operands
  | .cast _ x | .freeze x | .extractValue x | .load _ x => [x]
  | .add x y | .sub x y | .insertValue x y | .store x y | .atomic x y => [x, y]
  | .select c x y => [c, x, y]

def Term.operands : Term → List Operand
  | .jump operands _ => operands
  | .ret value => value.toList

def Term.successors : Term → List Nat
  | .jump _ successors => successors
  | .ret _ => []

def Op.vals (op : Op) : List Val := op.operands.flatMap Operand.vals
def Term.vals (term : Term) : List Val := term.operands.flatMap Operand.vals

/-- The operand a PHI takes from the edge out of `pred`. -/
def Phi.incomingFor (phi : Phi) (pred : Nat) : Option Operand :=
  (phi.find? fun entry => entry.1 = pred).map Prod.snd

/-! ## Functions -/

def Func.block? (f : Func) (b : Nat) : Option Block := f.blocks[b]?

def Func.body (f : Func) (b : Nat) : List Op := ((f.block? b).map Block.body).getD []

def Func.phis (f : Func) (b : Nat) : List Phi := ((f.block? b).map Block.phis).getD []

inductive Def where
  | arg (kind : ArgKind)
  | phi (incoming : Phi)
  | op (op : Op)

def Func.def? (f : Func) : Val → Option Def
  | .arg i => f.args[i]?.map .arg
  | .phi b i => (f.phis b)[i]?.map .phi
  | .inst b i => (f.body b)[i]?.map .op

def Func.blockVals (f : Func) (b : Nat) : List Val :=
  (List.range (f.phis b).length).map (.phi b) ++ (List.range (f.body b).length).map (.inst b)

def Func.argVals (f : Func) : List Val := (List.range f.args.length).map .arg

def Func.instVals (f : Func) : List Val := (List.range f.blocks.length).flatMap f.blockVals

def Op.suspends : Op → Bool
  | .managedCall _ | .yieldCall | .setjmp _ => true
  | _ => false

theorem Func.mem_instVals_of_def {f : Func} {v : Val} {d : Def} (hdef : f.def? v = some d)
    (hd : ∀ kind, d ≠ .arg kind) : v ∈ f.instVals := by
  have hmem {b : Nat} (hv : v ∈ f.blockVals b) : v ∈ f.instVals := by
    by_cases hb : b < f.blocks.length
    · exact List.mem_flatMap.mpr ⟨b, List.mem_range.mpr hb, hv⟩
    · have hnone : f.block? b = none := List.getElem?_eq_none (by omega)
      simp [Func.blockVals, Func.phis, Func.body, hnone] at hv
  cases v with
  | arg i =>
    obtain ⟨kind, _, rfl⟩ := Option.map_eq_some_iff.mp hdef
    exact absurd rfl (hd kind)
  | phi b i | inst b i =>
    obtain ⟨_, hget, _⟩ := Option.map_eq_some_iff.mp hdef
    obtain ⟨hi, _⟩ := List.getElem?_eq_some_iff.mp hget
    exact hmem (b := b) (by simp [Func.blockVals, hi])

end BpfCapsule.Ssa

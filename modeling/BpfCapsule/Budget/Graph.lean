import BpfCapsule.Abi
import BpfCapsule.Lib.Check

/-!
# The physical call graph of a selected program

`bpf-machine-stack-budget` measures call paths of emitted frames. Functions of one flatten class are
emitted as one root, so the pass first contracts every class into one node; every other selected
function is a node of its own (`contract`).

Functions are named by their position in the module. The pass walks them in the order of a pointer
map, which is arbitrary: nothing here depends on the order of the module's list.

Sizes are natural numbers. `MachineFunction.small` keeps frames below `2 ^ 60` bytes, and the pass
sums them along paths of at most eight nodes only, so its 64-bit sums are exact.
-/

namespace BpfCapsule.StackBudget

open Check

def kernelStackBytes : Nat := 512
def portableStackGranule : Nat := 32
def kernelCallFrames : Nat := 8

/-! ## Selected code -/

inductive Register where
  | r10
  | other
deriving DecidableEq, Repr

/-- `storeImmediate` stands for the opcodes `ST…_imm…`, `other` for what touches no memory. -/
inductive Opcode where
  | ldd | ldw | ldw32 | ldh | ldh32 | ldb | ldb32
  | std | stw | stw32 | sth | sth32 | stb | stb32
  | storeImmediate
  | other
deriving DecidableEq, Repr

def isStackMemoryOpcode : Opcode → Bool
  | .other => false
  | _ => true

inductive Operand where
  | reg (r : Register)
  | imm (value : Int)
  | global (symbol : Nat)
deriving DecidableEq, Repr

structure MachineInstr where
  opcode : Opcode
  operands : List Operand
deriving DecidableEq, Repr

/-- How far below `r10` an instruction's access begins; zero for all that the pass skips. -/
def MachineInstr.depth (i : MachineInstr) : Nat :=
  match isStackMemoryOpcode i.opcode, i.operands with
  | true, _ :: .reg .r10 :: .imm offset :: _ => (-offset).toNat
  | _, _ => 0

/-- The frame `MachineFrameInfo` knows of, or the deepest access when that is deeper. -/
def rawFrameBytes (stackSize : Nat) (code : List MachineInstr) : Nat :=
  (code.map MachineInstr.depth).foldl max stackSize

structure MachineFunction where
  stackSize : Nat
  code : List MachineInstr
  small : rawFrameBytes stackSize code < 2 ^ 60

/-- What the kernel charges for a frame of `raw` bytes. -/
def portableBytes (raw : Nat) : Nat := alignTo (max raw 1) portableStackGranule

def portableFrameBytes (machine : MachineFunction) : Nat :=
  portableBytes (rawFrameBytes machine.stackSize machine.code)

theorem portableBytes_dvd (raw : Nat) : portableStackGranule ∣ portableBytes raw := dvd_alignTo _ _

/-- A frame within a whole number of granules stays within it when it is rounded up. -/
theorem portableBytes_le {raw bound : Nat} (hraw : raw ≤ bound)
    (hpos : portableStackGranule ≤ bound) (hdvd : portableStackGranule ∣ bound) :
    portableBytes raw ≤ bound := by
  have hlt : portableBytes raw < max raw 1 + portableStackGranule := alignTo_lt _ (by decide)
  obtain ⟨a, ha⟩ := portableBytes_dvd raw
  simp only [portableStackGranule] at *
  omega

theorem le_portableBytes (raw : Nat) : portableStackGranule ≤ portableBytes raw := by
  have hle : max raw 1 ≤ portableBytes raw := le_alignTo _ (by decide)
  obtain ⟨a, ha⟩ := portableBytes_dvd raw
  simp only [portableStackGranule] at *
  omega

/-! ## The module -/

/-- A metadata node with one integer operand; `none` inside is one of any other shape. -/
abbrev Metadata := Option Nat

structure Function where
  declaration : Bool := false
  machine : Option MachineFunction := none
  flattenRoot : Option Metadata := none
  flattenUnit : Option Metadata := none
  allocationUnit : Bool := false
  entryProgram : Bool := false

abbrev Module := List Function

inductive Rejection where
  /-- `malformed … on …` -/
  | malformedMetadata
  /-- `conflicting flatten classes on …` -/
  | conflictingClasses (first second : Nat)
  /-- `duplicate output roots … and …` -/
  | duplicateRoots (root function : Nat)
  /-- `flatten class … has no output root` -/
  | noRoot (flattenClass : Nat)
  /-- `selected function … references unselected …` -/
  | unselected (caller callee : Nat)
  /-- `recursive BPF call path: …` -/
  | recursive (cycle : List Nat)
  /-- `nested physical Capsule frames are unsupported: … reaches …` -/
  | nested (previous node : Nat)
  /-- `BPF call path has … frames; kernel limit is 8: …` -/
  | callFrames (frames node : Nat)
  /-- `native BPF call path uses … stack bytes; kernel limit is 512: …` -/
  | nativeBytes (bytes node : Nat)
  /-- `no physical Capsule frame fits call path …; fixed frames use … bytes and the merged root
  itself requires … bytes` -/
  | noFrameFits (node fixed floor : Nat)
deriving DecidableEq, Repr

def metadataClass : Option Metadata → Except Rejection (Option Nat)
  | none => .ok none
  | some none => .error .malformedMetadata
  | some (some value) => if value < 2 ^ 32 then .ok (some value) else .error .malformedMetadata

def classOf (f : Function) : Except Rejection (Option Nat) := do
  let root ← metadataClass f.flattenRoot
  let unit ← metadataClass f.flattenUnit
  match root, unit with
  | some r, some u => if r = u then pure (some r) else throw (.conflictingClasses r u)
  | some r, none => pure (some r)
  | none, unit => pure unit

namespace Module

variable (m : Module)

def function (f : Nat) : Function := m.getD f {}

def selected (f : Nat) : Bool := !(m.function f).declaration && (m.function f).machine.isSome

def machines : List Nat := (List.range m.length).filter m.selected

def flattenClass (f : Nat) : Option Nat := (classOf (m.function f)).toOption.join

def classes : List Nat :=
  (m.machines.filterMap m.flattenClass).foldl (fun seen c => if c ∈ seen then seen else seen ++ [c]) []

def classless : List Nat := m.machines.filter fun f => m.flattenClass f = none

/-- `nodeOf`: classes first, then the functions without one. -/
def nodeOf (f : Nat) : Nat :=
  match m.flattenClass f with
  | some c => m.classes.idxOf c
  | none => m.classes.length + m.classless.idxOf f

def nodeCount : Nat := m.classes.length + m.classless.length

def references (f : Nat) : List Nat :=
  match (m.function f).machine with
  | none => []
  | some machine => (machine.code.flatMap MachineInstr.operands).filterMap fun
    | .global symbol => if symbol < m.length then some symbol else none
    | _ => none

/-- A reference that survives flattening: machine-flatten removes those to units of the caller's
own class. Declarations are helpers and take no frame. -/
def calls (caller callee : Nat) : Bool :=
  callee ∈ m.references caller && !(m.function callee).declaration &&
    !(m.nodeOf caller = m.nodeOf callee && (m.function callee).flattenUnit.isSome)

end Module

/-! ## The contracted graph -/

structure Member where
  function : Nat
  allocationUnit : Bool
  frame : Nat
  granular : portableStackGranule ∣ frame

structure Node where
  flattenClass : Option Nat := none
  members : List Member := []
  root : Option Nat := none
  successors : List Nat := []

/-- `VariableFrame`: the node has a member whose frame is still to be decided. -/
def Node.variableFrame (n : Node) : Bool := n.members.any (·.allocationUnit)

/-- `FixedFloor`: the largest frame among the other members. -/
def Node.fixedFloor (n : Node) : Nat :=
  ((n.members.filter fun f => !f.allocationUnit).map Member.frame).foldl max 0

structure Graph where
  nodes : List Node
  entries : List Nat
  successors_lt : ∀ n ∈ nodes, ∀ s ∈ n.successors, s < nodes.length
  entries_lt : ∀ e ∈ entries, e < nodes.length

namespace Module

variable (m : Module)

def member (f : Nat) : Member where
  function := f
  allocationUnit := (m.function f).allocationUnit
  frame := ((m.function f).machine.map portableFrameBytes).getD 0
  granular := by
    cases (m.function f).machine with
    | none => exact Nat.dvd_zero _
    | some machine => exact portableBytes_dvd _

def inNode (n : Nat) : List Nat := m.machines.filter fun f => m.nodeOf f = n

def root (n : Nat) : Option Nat := (m.inNode n).find? fun f => (m.function f).flattenRoot.isSome

def node (n : Nat) : Node where
  flattenClass := m.classes[n]?
  members := (m.inNode n).map m.member
  root := m.root n
  successors := (List.range m.nodeCount).filter fun t =>
    (m.inNode n).any fun caller => m.machines.any fun callee =>
      m.calls caller callee && m.nodeOf callee = t

def graph : Graph where
  nodes := (List.range m.nodeCount).map m.node
  entries := (List.range m.nodeCount).filter fun n =>
    (m.inNode n).any fun f => (m.function f).entryProgram
  successors_lt := by
    intro n hn s hs
    obtain ⟨k, _, rfl⟩ := List.mem_map.mp hn
    rw [List.length_map, List.length_range]
    exact List.mem_range.mp (List.mem_filter.mp hs).1
  entries_lt := by
    intro e he
    rw [List.length_map, List.length_range]
    exact List.mem_range.mp (List.mem_filter.mp he).1

end Module

def contract (m : Module) : Except Rejection Graph := do
  m.machines.forM fun f => discard (classOf (m.function f))
  m.machines.forM fun f =>
    rejectIf ((m.function f).flattenRoot.isSome ∧ m.root (m.nodeOf f) ≠ some f)
      (Rejection.duplicateRoots ((m.root (m.nodeOf f)).getD 0) f)
  (List.range m.nodeCount).forM fun n =>
    rejectIf ((m.node n).flattenClass.isSome ∧ m.root n = none)
      (Rejection.noRoot ((m.node n).flattenClass.getD 0))
  m.machines.forM fun caller => (m.references caller).forM fun callee =>
    rejectIf (!(m.function callee).declaration ∧ !m.selected callee) (Rejection.unselected caller callee)
  pure m.graph

end BpfCapsule.StackBudget

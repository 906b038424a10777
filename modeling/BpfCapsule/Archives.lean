import BpfCapsule.Lib.Check
import Mathlib.Data.Finset.Card
import Mathlib.Algebra.GroupWithZero.Nat

/-!
# Members of archives

The linker (`tools/bpf-capsule-ld/main.cpp`) links the members of archives that the module needs:
when the archive is loaded, and again whenever the preparation of the linked module leaves symbols
unresolved. Both loops are total functions here: a round that goes on has linked a member that was
not linked before.
-/

namespace BpfCapsule.Archives

open Check

inductive MemoryRoutine where
  | memcpy
  | memmove
  | memset
deriving DecidableEq, Repr

def MemoryRoutine.name : MemoryRoutine → String
  | .memcpy => "memcpy"
  | .memmove => "memmove"
  | .memset => "memset"

structure GlobalValue where
  name : String
  /-- `isDeclarationForLinker`. -/
  declaration : Bool
  used : Bool
  /-- `hasExternalWeakLinkage`. -/
  externalWeak : Bool
  function : Bool
  intrinsic : Option MemoryRoutine
deriving DecidableEq, Repr

inductive WideOp where
  | mul
  | udiv
  | urem
  | sdiv
  | srem
deriving DecidableEq, Repr

def WideOp.libcall : WideOp → String
  | .mul => "__multi3"
  | .udiv => "__udivti3"
  | .urem => "__umodti3"
  | .sdiv => "__divti3"
  | .srem => "__modti3"

inductive Inst where
  | binary (op : WideOp) (bits : Nat)
  /-- `umul.with.overflow` or `smul.with.overflow`. -/
  | mulWithOverflow (signed : Bool) (bits : Nat)
  /-- A floating-point operation, with the routines `softfloat.cpp` requires for it. -/
  | float (libcalls : List String)
  | other
deriving DecidableEq, Repr

/-- `arithmeticLibcall` of `expand_i128.cpp`. -/
def Inst.arithmeticLibcall : Inst → List String
  | .binary op 128 => [op.libcall]
  | .mulWithOverflow false 64 => [WideOp.mul.libcall]
  | .mulWithOverflow true 64 => ["__mulodi4"]
  | _ => []

def Inst.softFloatLibcalls : Inst → List String
  | .float libcalls => libcalls
  | _ => []

structure Module where
  globalValues : List GlobalValue
  instructions : List Inst
deriving DecidableEq, Repr

namespace Module

variable (m : Module)

def getNamedValue (name : String) : Option GlobalValue := m.globalValues.find? (·.name = name)

def defines (name : String) : Bool := (m.getNamedValue name).any (!·.declaration)

def memoryRoutine (v : GlobalValue) : Option String :=
  match v.intrinsic with
  | none => none
  | some routine =>
    if v.used && !(m.getNamedValue routine.name).any (fun f => f.function && !f.declaration) then
      some routine.name
    else none

def Needs (name : String) : Prop :=
  (∃ v ∈ m.globalValues, v.declaration ∧ v.used ∧ ¬ v.externalWeak ∧ v.name ≠ "" ∧ v.name = name) ∨
    (∃ i ∈ m.instructions, (name ∈ i.arithmeticLibcall ∨ name ∈ i.softFloatLibcalls) ∧
      ¬ m.defines name) ∨ ∃ v ∈ m.globalValues, m.memoryRoutine v = some name

end Module

structure Archive where
  path : String
  symbols : List (String × Nat)
  /-- The module at an offset, or why it cannot be read. -/
  member : Nat → Except String Module

def Archive.members (a : Archive) : Finset Nat := (a.symbols.map (·.2)).toFinset

/-- The offsets in `extracted`, the last one first. Each is inserted when its member is given to
`linkModule`, and only if it is not yet there. -/
structure ArchiveInput where
  archive : Archive
  extracted : List Nat := []
  once : extracted.Nodup := by simp

namespace ArchiveInput

def remaining (a : ArchiveInput) : Nat := (a.archive.members \ a.extracted.toFinset).card

def Takes (a a' : ArchiveInput) : Prop := a'.archive = a.archive ∧ a'.remaining < a.remaining

end ArchiveInput

structure Linked where
  archives : List ArchiveInput
  module : Module
  prepared : Module
  round : Nat

namespace Toolchain

variable (T : Toolchain)

end Toolchain

namespace ArchiveInput

theorem Takes.trans {a b c : ArchiveInput} (hab : a.Takes b) (hbc : b.Takes c) : a.Takes c :=
  ⟨hbc.1.trans hab.1, hbc.2.trans hab.2⟩

end ArchiveInput

open ArchiveInput

namespace Toolchain

section

variable {T : Toolchain} {names : List String} {s s' : Linking} {taken : Bool}

end

variable (T : Toolchain)

variable {T} {s s' : Linking} {taken : Bool} {archives archives' : List ArchiveInput}
  {m m' : Module}

def remaining (archives : List ArchiveInput) : Nat := (archives.map ArchiveInput.remaining).sum

variable (T)

variable {T}

end Toolchain

end BpfCapsule.Archives

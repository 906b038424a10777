import BpfCapsule.Ir.Types
import BpfCapsule.Lib.Bytes
import BpfCapsule.Lib.Folds
import BpfCapsule.Lib.Placement
import Mathlib.Data.List.Sort
import Mathlib.Data.Nat.Prime.Basic

/-!
# BpfCapsule — fiber-local storage

`bpf-fiber-local` collects the thread-local variables into one block per fiber. The block is an LLVM
struct of the variables' types, so their offsets and the distance of two blocks follow from the types
alone, while a variable may ask for more alignment than its type needs. The table of blocks is aligned
for the strictest variable; whether a slot is aligned is another matter (`Module.Fits`).

`Function.rewrite` puts the slot of the running fiber in the place of every use. `resetBlock` is the
body the pass gives to the runtime's reset hook, with the alignment each of its loads and stores
claims.
-/

namespace BpfCapsule.FiberLocal

open Ir

/-! ## The block -/

/-- A thread-local variable; `alignLog` is its declared alignment, as a power of two. -/
structure Variable where
  name : String
  type : Ty
  alignLog : Option Nat

/-- `alignmentOf`. -/
def Variable.alignment (v : Variable) : Nat :=
  match v.alignLog with
  | some k => 2 ^ k
  | none => v.type.abiAlign

def Variable.before (a b : Variable) : Prop :=
  if a.alignment ≠ b.alignment then b.alignment < a.alignment else a.name ≤ b.name

instance : DecidableRel Variable.before := fun a b => by
  unfold Variable.before
  infer_instance

/-- The offsets of the fields of a struct that start at `offset`. -/
def fieldOffsets (offset : Nat) : List Ty → List Nat
  | [] => []
  | t :: ts => alignTo offset t.abiAlign :: fieldOffsets (alignTo offset t.abiAlign + t.allocSize) ts

/-- An operand of an instruction: a thread-local variable, the slot that has taken its place, or
anything else. -/
inductive Operand where
  | variable (name : String)
  | slot (field : Nat)
  | other
  deriving DecidableEq

/-- The variables of a module, the size of the runtime's fiber table, the operands of the instructions
of each function, constant expressions made instructions, and the variables that something else than
an instruction uses. -/
structure Module where
  threadLocals : List Variable
  fibers : Nat
  functions : List (List (List Operand))
  outside : List String
  fibers_pos : 0 < fibers
  names : (threadLocals.map Variable.name).Nodup

namespace Module

variable (m : Module)

def locals : List Variable := m.threadLocals.insertionSort Variable.before

def fields : List Ty := m.locals.map Variable.type

/-- `capsule.fiber_local`. -/
def block : Ty := .struct false m.fields

def blockAlignment : Nat := m.locals.foldl (fun best v => max best v.alignment) 1

def stride : Nat := m.block.allocSize

def offsets : List Nat := fieldOffsets 0 m.fields

end Module

/-- Where the linker puts the table of blocks and the initial image. -/
structure Globals (m : Module) where
  storage : Nat
  image : Nat
  storage_aligned : m.blockAlignment ∣ storage
  image_aligned : m.blockAlignment ∣ image
  apart : image + m.stride ≤ storage ∨ storage + m.fibers * m.stride ≤ image

namespace Globals

variable {m : Module} (g : Globals m)

/-- `fiber.locals`: the block of a fiber. -/
def blockPointer (fiber : Nat) : Nat := g.storage + fiber * m.stride

/-- The slot of a fiber for the variable at `offset`. -/
def slot (fiber offset : Nat) : Nat := g.blockPointer fiber + offset

end Globals

/-! ## Uses -/

def operandAt (code : List (List Operand)) (i j : Nat) : Option Operand := code[i]?.bind (·[j]?)

/-- A function on the way: its instructions, whether its entry block computes the block of the running
fiber, and the fields whose slots it computes behind that, the last one first. -/
structure Function where
  code : List (List Operand)
  hasBlock : Bool := false
  slots : List Nat := []

/-- The loop over the uses of one variable, in one function: the first use makes the block pointer if
there is none and the slot of the field, and all uses share it. -/
def Function.rewriteUses (F : Function) (field : Nat) (name : String) : Function :=
  if F.code.any (·.contains (.variable name)) then
    { code := F.code.map (·.map fun o => if o = .variable name then .slot field else o)
      hasBlock := true
      slots := field :: F.slots }
  else F

def Function.rewrite (F : Function) : (field : Nat) → List Variable → Function
  | _, [] => F
  | field, v :: locals => (F.rewriteUses field v.name).rewrite (field + 1) locals

def Module.rewrite (m : Module) : Except String (List Function) :=
  match m.locals.find? fun v => m.outside.contains v.name with
  | some v => .error ("bpf-fiber-local: the address of thread-local variable " ++ v.name ++
      " is used outside a function")
  | none => .ok (m.functions.map fun code => Function.rewrite ⟨code, false, []⟩ 0 m.locals)

/-- The instructions the pass adds to an entry block: the call of `CurrentFiberIndex`, `fiber.locals`,
and the slot of a field. -/
inductive Added where
  | fiber
  | block
  | slot (field : Nat)

def Function.added (F : Function) : List Added :=
  if F.hasBlock then .fiber :: .block :: F.slots.map .slot else []

/-- The values of the added instructions. -/
structure Values where
  fiber : Option Nat := none
  block : Option Nat := none
  slots : Nat → Option Nat := fun _ => none

/-- One added instruction, run by fiber `running`. -/
def Added.run {m : Module} (g : Globals m) (running : Nat) (values : Values) : Added → Values
  | .fiber => { values with fiber := some running }
  | .block => { values with block := values.fiber.map g.blockPointer }
  | .slot field => { values with
      slots := Function.update values.slots field
        (values.block.bind fun block => m.offsets[field]?.map (block + ·)) }

/-- The address operand `j` of instruction `i` has in an activation that fiber `running` runs, where
the pass has put one. -/
def Function.address {m : Module} (F : Function) (g : Globals m) (running i j : Nat) : Option Nat :=
  match operandAt F.code i j with
  | some (.slot field) => (F.added.foldl (Added.run g running) {}).slots field
  | _ => none

/-! ## Reset -/

structure Access where
  address : Nat
  alignment : Nat
  deriving DecidableEq

/-- One `copyRange` loop from `index` on: the body runs before its test. -/
def copyLoop (source target step stop alignment : Nat) :
    (fuel index : Nat) → (Nat → UInt8) → (Nat → UInt8) × List Access
  | 0, _, memory => (memory, [])
  | fuel + 1, index, memory =>
    let memory := Bytes.write memory (target + index) (Bytes.read memory (source + index) step)
    let accesses := [⟨source + index, alignment⟩, ⟨target + index, alignment⟩]
    if index + step < stop then
      let rest := copyLoop source target step stop alignment fuel (index + step) memory
      (rest.1, accesses ++ rest.2)
    else (memory, accesses)

def copyRange (source target step start stop alignment : Nat) (memory : Nat → UInt8) :
    (Nat → UInt8) × List Access :=
  if stop ≤ start then (memory, []) else copyLoop source target step stop alignment stop start memory

def Module.wordsEnd (m : Module) : Nat := if 8 ≤ m.blockAlignment then m.stride - m.stride % 8 else 0

/-- The generated body of `__bpf_capsule_fiber_local_reset`: words, then single bytes. -/
def resetBlock {m : Module} (g : Globals m) (fiber : Nat) (memory : Nat → UInt8) :
    (Nat → UInt8) × List Access :=
  let slot := g.blockPointer fiber
  let words := copyRange g.image slot 8 0 m.wordsEnd (min m.blockAlignment 8) memory
  let bytes := copyRange g.image slot 1 m.wordsEnd m.stride (min m.blockAlignment 1) words.1
  (bytes.1, words.2 ++ bytes.2)

/-! ## What the pass is for -/

structure Module.At (m : Module) (i : Nat) (v : Variable) (offset : Nat) : Prop where
  local_eq : m.locals[i]? = some v
  offset_eq : m.offsets[i]? = some offset

/-- Storage of its own for every variable of every fiber, aligned as declared, which is what every use
of the variable addresses on that fiber, and a reset that restores one block and claims no alignment
that is not there. -/
structure Correct {m : Module} (g : Globals m) : Prop where
  disjoint : ∀ i v offset j w offset', m.At i v offset → m.At j w offset' → ∀ f < m.fibers,
    ∀ f' < m.fibers, (i, f) ≠ (j, f') →
      g.slot f offset + v.type.allocSize ≤ g.slot f' offset' ∨
        g.slot f' offset' + w.type.allocSize ≤ g.slot f offset
  inside : ∀ i v offset, m.At i v offset → ∀ f < m.fibers,
    g.blockPointer f ≤ g.slot f offset ∧
      g.slot f offset + v.type.allocSize ≤ g.blockPointer f + m.stride
  own : ∀ functions, m.rewrite = .ok functions → ∀ (k : Nat) (code : List (List Operand)) (F : Function),
    m.functions[k]? = some code → functions[k]? = some F → ∀ i v offset, m.At i v offset → ∀ a b,
      operandAt code a b = some (.variable v.name) → ∀ f < m.fibers,
        F.address g f a b = some (g.slot f offset)
  aligned : ∀ i v offset, m.At i v offset → ∀ f < m.fibers, v.alignment ∣ g.slot f offset
  restores : ∀ f < m.fibers, ∀ memory, ∀ i < m.stride,
    (resetBlock g f memory).1 (g.blockPointer f + i) = memory (g.image + i)
  keeps : ∀ f < m.fibers, ∀ memory,
    Bytes.Outside (g.blockPointer f) (g.blockPointer f + m.stride) memory (resetBlock g f memory).1
  claims : ∀ f < m.fibers, ∀ memory, ∀ access ∈ (resetBlock g f memory).2,
    access.alignment ∣ access.address

/-- Where a variable asks for more alignment than its type has, the sizes of all other variables are
multiples of it and, with a second fiber, its own size. -/
structure Module.Fits (m : Module) : Prop where
  others : ∀ v ∈ m.threadLocals, v.type.abiAlign < v.alignment →
    ∀ w ∈ m.threadLocals, w.name ≠ v.name → v.alignment ∣ w.type.allocSize
  itself : 2 ≤ m.fibers → ∀ v ∈ m.threadLocals, v.type.abiAlign < v.alignment →
    v.alignment ∣ v.type.allocSize

/-! ## Alignments -/

theorem eq_two_pow_of_dvd {a : Nat} (h : a ∣ 16) : ∃ k, a = 2 ^ k := by
  have hdvd : a ∣ 2 ^ 4 := h
  obtain ⟨k, -, hk⟩ := (Nat.dvd_prime_pow Nat.prime_two).mp hdvd
  exact ⟨k, hk⟩

/-- Alignments are powers of two. -/
theorem Variable.alignment_eq (v : Variable) : ∃ k, v.alignment = 2 ^ k := by
  unfold Variable.alignment
  split
  · exact ⟨_, rfl⟩
  · exact eq_two_pow_of_dvd v.type.abiAlign_dvd

theorem dvd_of_le_two_pow {a b : Nat} (ha : ∃ k, a = 2 ^ k) (hb : ∃ k, b = 2 ^ k) (h : a ≤ b) : a ∣ b := by
  obtain ⟨k, rfl⟩ := ha
  obtain ⟨l, rfl⟩ := hb
  exact Nat.pow_dvd_pow 2 ((Nat.pow_le_pow_iff_right (by decide)).mp h)

theorem dvd_alignTo_of_dvd {a b n : Nat} (ha : ∃ k, a = 2 ^ k) (hb : ∃ k, b = 2 ^ k) (h : a ∣ n) :
    a ∣ alignTo n b := by
  rcases Nat.le_total a b with hle | hle
  · exact (dvd_of_le_two_pow ha hb hle).trans (dvd_alignTo n b)
  · have hpos : 0 < b := by
      obtain ⟨k, rfl⟩ := hb
      exact Nat.two_pow_pos k
    have hdvd := (dvd_of_le_two_pow hb ha hle).trans h
    rwa [Nat.le_antisymm (alignTo_le hpos hdvd (Nat.le_refl n)) (le_alignTo n hpos)]

namespace Module

variable (m : Module)

theorem placed_fields (offset : Nat) (ts : List Ty) :
    Placement.Placed offset (ts.map fun t => ⟨t.allocSize, t.abiAlign⟩) (fieldOffsets offset ts)
      (fieldsEnd false offset ts) := by
  induction ts generalizing offset with
  | nil =>
    exact .nil offset
  | cons t ts ih =>
    exact .cons ⟨le_alignTo _ t.abiAlign_pos, dvd_alignTo _ _, alignTo_lt _ t.abiAlign_pos⟩ (ih _)

theorem fieldsEnd_le_stride : fieldsEnd false 0 m.fields ≤ m.stride := by
  have hpos : 0 < fieldsAlign m.fields := Nat.pos_of_dvd_of_pos (fieldsAlign_dvd m.fields) (by decide)
  exact le_alignTo _ hpos

/-- Fields behind fields whose sizes are multiples of `a` start at multiples of it. -/
theorem fieldOffsets_dvd {a : Nat} (ha : ∃ k, a = 2 ^ k) {ts : List Ty} {offset i x : Nat}
    (h : a ∣ offset) (hx : (fieldOffsets offset ts)[i]? = some x)
    (hsizes : ∀ j t, j < i → ts[j]? = some t → a ∣ t.allocSize) : a ∣ x := by
  induction ts generalizing offset i with
  | nil => exact absurd hx (by simp [fieldOffsets])
  | cons t ts ih =>
    have hstart := dvd_alignTo_of_dvd ha (eq_two_pow_of_dvd t.abiAlign_dvd) h
    cases i with
    | zero =>
      cases hx
      exact hstart
    | succ i =>
      exact ih (Nat.dvd_add hstart (hsizes 0 t (Nat.succ_pos i) rfl)) hx fun j u hj hu =>
        hsizes (j + 1) u (Nat.succ_lt_succ hj) hu

variable {m} {i j offset offset' : Nat} {v w : Variable}

theorem At.item (h : m.At i v offset) :
    (m.fields.map fun t => (⟨t.allocSize, t.abiAlign⟩ : Placement.Item))[i]? =
      some ⟨v.type.allocSize, v.type.abiAlign⟩ := by
  rw [List.getElem?_map, fields, List.getElem?_map, h.local_eq]
  rfl

theorem At.slot (h : m.At i v offset) :
    v.type.abiAlign ∣ offset ∧ offset + v.type.allocSize ≤ m.stride := by
  obtain ⟨-, hdvd, hend⟩ := (placed_fields 0 m.fields).slot h.item h.offset_eq
  exact ⟨hdvd, Nat.le_trans hend m.fieldsEnd_le_stride⟩

theorem At.ordered (h : m.At i v offset) (h' : m.At j w offset') (hij : i < j) :
    offset + v.type.allocSize ≤ offset' :=
  (placed_fields 0 m.fields).ordered hij h.item h.offset_eq h'.offset_eq

end Module

section

variable {source target step stop fuel index start : Nat}

end

section

variable {m : Module} (g : Globals m) {f : Nat} (hf : f < m.fibers)

include hf

end

/-! ## When it is right -/

section

variable {m : Module} (g : Globals m)

variable {i offset : Nat} {v : Variable}

theorem Module.At.mem (h : m.At i v offset) : v ∈ m.locals :=
  List.mem_of_getElem? h.local_eq

theorem Module.nodup_names (m : Module) : (m.locals.map Variable.name).Nodup :=
  ((List.perm_insertionSort _ _).map _).nodup_iff.mpr m.names

theorem Module.mem_locals : v ∈ m.locals ↔ v ∈ m.threadLocals := List.mem_insertionSort _

theorem Variable.natural (h : ¬ v.type.abiAlign < v.alignment) : v.alignment ∣ v.type.abiAlign :=
  dvd_of_le_two_pow v.alignment_eq (eq_two_pow_of_dvd v.type.abiAlign_dvd) (Nat.le_of_not_lt h)

theorem Module.Fits.offset_dvd (hfits : m.Fits) (h : m.At i v offset) : v.alignment ∣ offset := by
  by_cases hover : v.type.abiAlign < v.alignment
  · refine fieldOffsets_dvd v.alignment_eq (Nat.dvd_zero _) h.offset_eq fun j t hj ht => ?_
    obtain ⟨w, hw, rfl⟩ := Option.map_eq_some_iff.mp ((List.getElem?_map ..).symm.trans ht)
    refine hfits.others v (mem_locals.mp h.mem) hover w (mem_locals.mp (List.mem_of_getElem? hw)) ?_
    -- a variable in front is another one
    intro hname
    obtain ⟨hi, hv⟩ := List.getElem?_eq_some_iff.mp h.local_eq
    obtain ⟨hj', hw⟩ := List.getElem?_eq_some_iff.mp hw
    have hne := List.pairwise_iff_getElem.mp m.nodup_names j i (by simpa using hj') (by simpa using hi) hj
    exact hne (by simp [hv, hw, hname])
  · exact (Variable.natural hover).trans h.slot.1

/-- The operand is the slot of the field, and the entry block computes it. -/
structure Function.Reads (F : Function) (a b field : Nat) : Prop where
  operand : operandAt F.code a b = some (.slot field)
  hasBlock : F.hasBlock = true
  mem : field ∈ F.slots

section

variable {F : Function} {a b k : Nat}

theorem any_uses_of_operandAt {code : List (List Operand)} {o : Operand}
    (h : operandAt code a b = some o) : code.any (·.contains o) = true := by
  obtain ⟨operands, hrow, ho⟩ := Option.bind_eq_some_iff.mp h
  exact List.any_eq_true.mpr
    ⟨operands, List.mem_of_getElem? hrow, List.contains_iff_mem.mpr (List.mem_of_getElem? ho)⟩

theorem Function.operandAt_rewriteUses (F : Function) (field : Nat) (name : String) (a b : Nat) :
    operandAt (F.rewriteUses field name).code a b =
      (operandAt F.code a b).map fun o => if o = .variable name then .slot field else o := by
  unfold rewriteUses
  split_ifs with huses
  · simp only [operandAt, List.getElem?_map, Option.bind_map, Option.map_bind]
    congr 1
    funext operands
    exact List.getElem?_map ..
  · cases hget : operandAt F.code a b with
    | none => rfl
    | some o =>
      have hne : o ≠ .variable name := fun heq => huses (any_uses_of_operandAt (heq ▸ hget))
      simp [hne]

theorem Function.Reads.rewrite (h : F.Reads a b k) (field : Nat) (locals : List Variable) :
    (F.rewrite field locals).Reads a b k := by
  induction locals generalizing F field with
  | nil => exact h
  | cons v locals ih =>
    refine ih ⟨?_, ?_, ?_⟩ (field + 1)
    · rw [operandAt_rewriteUses, h.operand]
      rfl
    · unfold rewriteUses
      split_ifs
      exacts [rfl, h.hasBlock]
    · unfold rewriteUses
      split_ifs
      exacts [List.mem_cons_of_mem _ h.mem, h.mem]

/-- Computing a slot again gives the same address. -/
theorem slots_run {p : Nat} {slots : List Nat} (values : Values) (hblock : values.block = some p)
    (f : Nat) (h : k ∈ slots ∨ values.slots k = m.offsets[k]?.map (p + ·)) :
    ((slots.map Added.slot).foldl (Added.run g f) values).slots k = m.offsets[k]?.map (p + ·) := by
  induction slots generalizing values with
  | nil => exact h.resolve_left List.not_mem_nil
  | cons j slots ih =>
    refine ih (Added.run g f values (.slot j)) hblock ?_
    by_cases hkj : k = j
    · subst hkj
      exact .inr (by simp [Added.run, hblock])
    · refine h.imp (fun hmem => (List.mem_cons.mp hmem).resolve_left hkj) fun heq => ?_
      rw [← heq]
      exact Function.update_of_ne hkj _ _

theorem Function.Reads.address (h : F.Reads a b k) (hoffset : m.offsets[k]? = some offset) (f : Nat) :
    F.address g f a b = some (g.slot f offset) := by
  have hrun := slots_run g ⟨some f, some (g.blockPointer f), fun _ => none⟩ rfl f (.inl h.mem)
  unfold Function.address Function.added
  rw [h.operand, if_pos h.hasBlock]
  rw [hoffset] at hrun
  exact hrun

end

end

end BpfCapsule.FiberLocal

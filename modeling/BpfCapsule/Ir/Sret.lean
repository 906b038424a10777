import BpfCapsule.Ir.Types
import Mathlib.Logic.Function.Basic

/-!
# BpfCapsule — hidden results turned into aggregate returns

`bpf-expand-sret` and `AdaptSretRoot` take the hidden result pointer away from a function: its
writes land in a local slot, the slot is loaded as a first-class aggregate at each return, and the
other side stores that value into the result object. The hidden pointer still has two properties
that this rewriting can change: it designates the caller's object, and it reaches every byte of it.

A callee is the tree of the memory operations its executions make. Pointers are symbolic: an
address of the result object is `Ref.result` whatever object that is, and only a comparison looks
at which one. `sret_transparent_iff` says for which executions the rewriting cannot be observed.
-/

namespace BpfCapsule.Sret

open Ir (Ty)

/-! ## Callees -/

/-- An address: in the result object, through the hidden pointer, or in another object. -/
inductive Ref where
  | result (off : Nat)
  | other (obj off : Nat)
  deriving DecidableEq, Repr

/-- A byte of memory: indeterminate, a plain byte, or the `k`-th byte of a stored address. -/
inductive Cell where
  | unset
  | byte (b : UInt8)
  | addr (r : Ref) (k : Nat)
  deriving DecidableEq, Repr

inductive Callee where
  | ret
  | store (dst : Ref) (cells : List Cell) (next : Callee)
  | load (src : Ref) (count : Nat) (next : List Cell → Callee)
  | compare (a b : Ref) (next : Bool → Callee)

/-- The bytes of the result object the callee has written, and the other objects. -/
structure State where
  result : Nat → Option Cell
  mem : Nat → Nat → Cell

structure Compared where
  a : Ref
  b : Ref
  outcome : Bool
  deriving DecidableEq, Repr

/-- A store, inside the result object and not to it behind the hidden pointer's back: `sret` and
`noalias` promise both. -/
def State.store (s : State) (size out : Nat) (dst : Ref) (cells : List Cell) : Option State :=
  match dst with
  | .result off =>
    if off + cells.length ≤ size then
      some ⟨fun i => if off ≤ i ∧ i < off + cells.length then cells[i - off]? else s.result i,
        s.mem⟩
    else none
  | .other obj off =>
    if obj = out then none
    else
      some ⟨s.result, Function.update s.mem obj fun i =>
        if off ≤ i ∧ i < off + cells.length then cells[i - off]?.getD .unset else s.mem obj i⟩

def State.load (s : State) (size out : Nat) (src : Ref) (count : Nat) : Option (List Cell) :=
  match src with
  | .result off =>
    if off + count ≤ size then
      some ((List.range count).map fun i => (s.result (off + i)).getD .unset)
    else none
  | .other obj off =>
    if obj = out then none else some ((List.range count).map fun i => s.mem obj (off + i))

/-- An execution of the callee, with the outcomes of its comparisons decided by `eq`. -/
def exec (size out : Nat) (eq : Ref → Ref → Bool) : Callee → State → Option (State × List Compared)
  | .ret, s => some (s, [])
  | .store dst cells next, s => (s.store size out dst cells).bind (exec size out eq next)
  | .load src count next, s =>
    (s.load size out src count).bind fun cells => exec size out eq (next cells) s
  | .compare a b next, s =>
    (exec size out eq (next (eq a b)) s).map fun x => (x.1, ⟨a, b, eq a b⟩ :: x.2)

/-! ## Placing the result object -/

/-- An object of the running program: one the program can name, or the local slot. -/
inductive Obj where
  | named (n : Nat)
  | slot
  deriving DecidableEq, Repr

inductive Value where
  | unset
  | byte (b : UInt8)
  | addr (obj : Obj) (off k : Nat)
  deriving DecidableEq, Repr

def Ref.placed (home : Obj) : Ref → Obj × Nat
  | .result off => (home, off)
  | .other n off => (.named n, off)

def Cell.placed (home : Obj) : Cell → Value
  | .unset => .unset
  | .byte b => .byte b
  | .addr r k => .addr (r.placed home).1 (r.placed home).2 k

/-- Whether two addresses are equal when the result object is `home`. -/
def sameAddr (home : Obj) (a b : Ref) : Bool := decide (a.placed home = b.placed home)

def Cell.isResultAddr : Cell → Bool
  | .addr (.result _) _ => true
  | _ => false

structure Outcome where
  /-- The bytes of the caller's result object. -/
  object : Nat → Value
  memory : Nat → Nat → Value
  compared : List Compared

/-! ## The two sides -/

def entryState (mem : Nat → Nat → Cell) : State := ⟨fun _ => none, mem⟩

/-- The call as the frontend emitted it: the callee writes into the caller's object `out`. -/
def hiddenPointer (ty : Ty) (out : Nat) (callee : Callee) (mem : Nat → Nat → Cell) :
    Option (State × List Compared) :=
  exec ty.allocSize out (sameAddr (.named out)) callee (entryState mem)

def outcomeOf (out : Nat) (x : State × List Compared) : Outcome where
  object i := ((x.1.result i).getD .unset).placed (.named out)
  memory n i := (x.1.mem n i).placed (.named out)
  compared := x.2

def loadAggregate (ty : Ty) (bytes : Nat → Option Cell) (i : Nat) : Cell :=
  if ty.covers i then (bytes i).getD .unset else .unset

/-- The body moved into the rewritten function: the slot takes the hidden pointer's place, and each
return loads it. -/
def execSpliced (ty : Ty) (out : Nat) :
    Callee → State → Option ((Nat → Cell) × State × List Compared)
  | .ret, s => some (loadAggregate ty s.result, s, [])
  | .store dst cells next, s =>
    (s.store ty.allocSize out dst cells).bind (execSpliced ty out next)
  | .load src count next, s =>
    (s.load ty.allocSize out src count).bind fun cells => execSpliced ty out (next cells) s
  | .compare a b next, s =>
    (execSpliced ty out (next (sameAddr .slot a b)) s).map fun x =>
      (x.1, x.2.1, ⟨a, b, sameAddr .slot a b⟩ :: x.2.2)

/-- `RewriteFunction` of `bpf-expand-sret`. -/
def rewriteFunction (ty : Ty) (out : Nat) (callee : Callee) (mem : Nat → Nat → Cell) :
    Option ((Nat → Cell) × State × List Compared) :=
  execSpliced ty out callee (entryState mem)

/-- `AdaptSretRoot`: the adapter calls the root with a slot of its own and then loads that. -/
def adaptSretRoot (ty : Ty) (out : Nat) (callee : Callee) (mem : Nat → Nat → Cell) :
    Option ((Nat → Cell) × State × List Compared) :=
  (exec ty.allocSize out (sameAddr .slot) callee (entryState mem)).map fun x =>
    (loadAggregate ty x.1.result, x)

/-- The store of the returned value into the result object: `RewriteCallSite`, and the native
boundary of a root that completed. -/
def storeResult (x : (Nat → Cell) × State × List Compared) : Outcome where
  object i := (x.1 i).placed .slot
  memory n i := (x.2.1.mem n i).placed .slot
  compared := x.2.2

/-- The rewritten call cannot be told from the original execution `x`: every comparison has its old
outcome, every byte the callee wrote to the result is in the caller's object, and every other
object holds the same values, addresses of the result object included. -/
def Transparent (out : Nat) (x : State × List Compared)
    (rewritten : Option ((Nat → Cell) × State × List Compared)) : Prop :=
  ∃ y, rewritten = some y ∧ (storeResult y).compared = (outcomeOf out x).compared ∧
    (∀ i, (x.1.result i).isSome = true → (storeResult y).object i = (outcomeOf out x).object i) ∧
    ∀ n i, n ≠ out → (storeResult y).memory n i = (outcomeOf out x).memory n i

/-- The execution does not depend on where the result object is, and leaves nothing in its padding:
no comparison tells the slot from the caller's object, no byte of the result or of memory is part
of an address of the result, and no byte of the result that has a value is padding. -/
def AddressFree (ty : Ty) (out : Nat) (x : State × List Compared) : Prop :=
  (∀ q ∈ x.2, sameAddr .slot q.a q.b = q.outcome) ∧
  (∀ i c, x.1.result i = some c → c = .unset ∨ (ty.covers i = true ∧ c.isResultAddr = false)) ∧
  ∀ n i, n ≠ out → (x.1.mem n i).isResultAddr = false

/-! ## When the rewriting is transparent -/

section Transparent

variable {size out : Nat} {eq eq' : Ref → Ref → Bool} {callee : Callee} {s : State}
  {x : State × List Compared}

/-- The comparisons an execution lists have the outcomes it was given. -/
theorem outcome_of_mem_exec (h : exec size out eq callee s = some x) :
    ∀ q ∈ x.2, eq q.a q.b = q.outcome := by
  induction callee generalizing s x with
  | ret =>
    cases h
    simp
  | store dst cells next ih =>
    obtain ⟨s', -, hnext⟩ := Option.bind_eq_some_iff.mp h
    exact ih hnext
  | load src count next ih =>
    obtain ⟨cells, -, hnext⟩ := Option.bind_eq_some_iff.mp h
    exact ih cells hnext
  | compare a b next ih =>
    obtain ⟨y, hnext, rfl⟩ := Option.map_eq_some_iff.mp h
    intro q hq
    rcases List.mem_cons.mp hq with rfl | hq
    · rfl
    · exact ih _ hnext q hq

theorem exec_congr (h : exec size out eq callee s = some x)
    (hsame : ∀ q ∈ x.2, eq' q.a q.b = q.outcome) : exec size out eq' callee s = some x := by
  induction callee generalizing s x with
  | ret => exact h
  | store dst cells next ih =>
    obtain ⟨s', hs', hnext⟩ := Option.bind_eq_some_iff.mp h
    exact Option.bind_eq_some_iff.mpr ⟨s', hs', ih hnext hsame⟩
  | load src count next ih =>
    obtain ⟨cells, hcells, hnext⟩ := Option.bind_eq_some_iff.mp h
    exact Option.bind_eq_some_iff.mpr ⟨cells, hcells, ih cells hnext hsame⟩
  | compare a b next ih =>
    obtain ⟨y, hnext, rfl⟩ := Option.map_eq_some_iff.mp h
    -- the first comparison agrees, so both executions take the same branch
    have hab : eq' a b = eq a b := hsame ⟨a, b, eq a b⟩ List.mem_cons_self
    refine Option.map_eq_some_iff.mpr ⟨y, ?_, by rw [hab]⟩
    rw [hab]
    exact ih _ hnext fun q hq => hsame q (List.mem_cons_of_mem _ hq)

/-- A load at every return gives what one load after the call gives. -/
theorem execSpliced_eq (ty : Ty) (out : Nat) (callee : Callee) (s : State) :
    execSpliced ty out callee s
      = (exec ty.allocSize out (sameAddr .slot) callee s).map fun x =>
        (loadAggregate ty x.1.result, x) := by
  induction callee generalizing s with
  | ret => rfl
  | store dst cells next ih =>
    rw [execSpliced, exec, Option.map_bind]
    exact congrArg _ (funext ih)
  | load src count next ih =>
    rw [execSpliced, exec, Option.map_bind]
    exact congrArg _ (funext fun cells => ih cells s)
  | compare a b next ih =>
    rw [execSpliced, exec, ih, Option.map_map, Option.map_map]
    rfl

/-- A stored byte tells the two placements apart exactly when it is part of an address of the
result object. -/
theorem placed_slot_eq_iff (c : Cell) :
    c.placed .slot = c.placed (.named out) ↔ c.isResultAddr = false := by
  cases c with
  | unset | byte => simp [Cell.placed, Cell.isResultAddr]
  | addr r k => cases r <;> simp [Cell.placed, Ref.placed, Cell.isResultAddr]

theorem placed_eq_unset_iff (home : Obj) (c : Cell) : c.placed home = .unset ↔ c = .unset := by
  cases c <;> simp [Cell.placed]

/-- Byte `i` of the result survives the aggregate exactly when it has no value, or is a leaf byte
that is no part of an address of the result. -/
theorem loadAggregate_placed_iff {ty : Ty} {bytes : Nat → Option Cell} {i : Nat} {c : Cell}
    (hc : bytes i = some c) :
    (loadAggregate ty bytes i).placed .slot = c.placed (.named out) ↔
      c = .unset ∨ (ty.covers i = true ∧ c.isResultAddr = false) := by
  unfold loadAggregate
  rw [hc]
  cases hcov : ty.covers i with
  | true =>
    rw [if_pos rfl, Option.getD_some, placed_slot_eq_iff]
    refine ⟨fun h => .inr ⟨rfl, h⟩, ?_⟩
    rintro (rfl | ⟨-, h⟩)
    · rfl
    · exact h
  | false =>
    simp only [Bool.false_eq_true, false_and, or_false]
    rw [← placed_eq_unset_iff (.named out)]
    exact eq_comm

/-- **Hidden-result elimination is transparent exactly for address-free executions**, for every
result type and callee, and for both rewritings. -/
theorem sret_transparent_iff (ty : Ty) (out : Nat) (callee : Callee) (mem : Nat → Nat → Cell)
    (x : State × List Compared) (hx : hiddenPointer ty out callee mem = some x) :
    (Transparent out x (rewriteFunction ty out callee mem) ↔ AddressFree ty out x) ∧
    (Transparent out x (adaptSretRoot ty out callee mem) ↔ AddressFree ty out x) := by
  have hsame : rewriteFunction ty out callee mem = adaptSretRoot ty out callee mem :=
    execSpliced_eq ty out callee _
  rw [hsame]
  refine and_self_iff.mpr ?_
  constructor
  · rintro ⟨y, hy, hcompared, hobject, hmemory⟩
    obtain ⟨z, hz, rfl⟩ := Option.map_eq_some_iff.mp hy
    -- equal comparison lists make the two executions one
    have hslot : ∀ q ∈ x.2, sameAddr .slot q.a q.b = q.outcome := by
      rw [show x.2 = z.2 from hcompared.symm]
      exact outcome_of_mem_exec hz
    have hxz : z = x := Option.some.inj (hz.symm.trans (exec_congr hx hslot))
    subst hxz
    refine ⟨hslot, fun i c hc => ?_, fun n i hn => ?_⟩
    · have hbyte := hobject i (by rw [hc]; rfl)
      simp only [storeResult, outcomeOf, hc, Option.getD_some] at hbyte
      exact (loadAggregate_placed_iff hc).mp hbyte
    · exact (placed_slot_eq_iff _).mp (hmemory n i hn)
  · rintro ⟨hslot, hobject, hmemory⟩
    have hz := exec_congr hx hslot
    refine ⟨_, Option.map_eq_some_iff.mpr ⟨x, hz, rfl⟩, rfl, fun i hi => ?_, fun n i hn => ?_⟩
    · obtain ⟨c, hc⟩ := Option.isSome_iff_exists.mp hi
      simp only [storeResult, outcomeOf, hc, Option.getD_some]
      exact (loadAggregate_placed_iff hc).mpr (hobject i c hc)
    · exact (placed_slot_eq_iff _).mpr (hmemory n i hn)

end Transparent

def noMemory : Nat → Nat → Cell := fun _ _ => .unset

def pairCallee : Callee := .store (.result 0) (List.replicate 8 (.byte 1)) .ret

/-- A callee that writes both halves of a pair and nothing else. -/
theorem sret_transparent_pair :
    ∃ x, hiddenPointer (.struct false [.int 32, .int 32]) 0 pairCallee noMemory = some x ∧
      Transparent 0 x
        (rewriteFunction (.struct false [.int 32, .int 32]) 0 pairCallee noMemory) := by
  refine ⟨_, rfl, (sret_transparent_iff _ 0 pairCallee noMemory _ rfl).1.mpr ⟨?_, ?_, ?_⟩⟩
  · simp
  · intro i c hc
    change (if 0 ≤ i ∧ i < 8 then (List.replicate 8 (Cell.byte 1))[i]? else none) = some c at hc
    split at hc
    · rename_i hi
      rw [List.getElem?_replicate, if_pos hi.2] at hc
      cases hc
      refine .inr ⟨?_, rfl⟩
      have hall : ∀ i < 8, (Ty.struct false [.int 32, .int 32]).covers i = true := by decide
      exact hall i hi.2
    · cases hc
  · intro n i _
    rfl

/-- A union held as its member `{i8, i32}`, written through another member that has a byte where
the first one has padding. -/
def unionCallee : Callee := .store (.result 1) [.byte 7] .ret

def selfReferentialCallee : Callee :=
  .store (.result 0) ((List.range 8).map fun k => .addr (.result 8) k) .ret

def registeredCallee : Callee :=
  .compare (.result 0) (.other 0 0) fun same =>
    .store (.other 1 0) [.byte (if same then 1 else 0)] .ret

/-- **Lost bytes and dangling addresses**: the byte in the union's padding is gone, the
self-referential object points into the dead slot, and the comparison with the caller's object has
changed its outcome. -/
theorem sret_not_transparent :
    (∃ x y, hiddenPointer (.struct false [.int 8, .int 32]) 0 unionCallee noMemory = some x ∧
      rewriteFunction (.struct false [.int 8, .int 32]) 0 unionCallee noMemory = some y ∧
      (outcomeOf 0 x).object 1 = .byte 7 ∧ (storeResult y).object 1 = .unset) ∧
    (∃ x y, hiddenPointer (.struct false [.ptr, .int 64]) 0 selfReferentialCallee noMemory
        = some x ∧
      rewriteFunction (.struct false [.ptr, .int 64]) 0 selfReferentialCallee noMemory = some y ∧
      (outcomeOf 0 x).object 0 = .addr (.named 0) 8 0 ∧
      (storeResult y).object 0 = .addr .slot 8 0) ∧
    (∃ x y, hiddenPointer (.int 64) 0 registeredCallee noMemory = some x ∧
      adaptSretRoot (.int 64) 0 registeredCallee noMemory = some y ∧
      (outcomeOf 0 x).memory 1 0 = .byte 1 ∧ (storeResult y).memory 1 0 = .byte 0) :=
  ⟨⟨_, _, rfl, rfl, rfl, rfl⟩, ⟨_, _, rfl, rfl, rfl, rfl⟩, ⟨_, _, rfl, rfl, rfl, rfl⟩⟩

end BpfCapsule.Sret

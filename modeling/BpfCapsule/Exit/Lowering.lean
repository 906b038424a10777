import BpfCapsule.Abi

/-!
# BpfCapsule — how an exit is lowered

Managed code cannot leave a kernel program, so an exit is compiled to "publish the outcome word and
return". Three passes decide what is left of it:

* `lowerCapsuleExit` is `bpf-lower-capsule-exit`: a block is cut at its first exit marker or trap,
  ends in the marked outcome store and a return, and the source-`noreturn` wrappers above it have
  their `unreachable` reopened into returns.
* `inlineCalls` splices callee bodies into call sites, as the O2 inliner and
  `InlineSingleUseFunctions` do: a return of the callee becomes a branch to the code after the call.
* `stackify` lowers the returns that are left (`TransformFunction`): a return that follows an
  outcome store stops the drive, any other one pops the frame.

Data is abstract: `σ` is everything the program's instructions read and write, locals included, so
the control flow of every program is covered and nothing is said about its arithmetic.
-/

namespace BpfCapsule.Exit

variable {σ : Type}

/-! ## Managed functions -/

inductive Instr (σ : Type) where
  | effect (run : σ → σ)
  | call (callee : Nat)
  | callIndirect (callee : σ → Nat)
  | yield
  | setjmp (buf : σ → Nat) (bind : Nat → σ → σ)
  | longjmp (buf : σ → Nat) (value : σ → Nat)
  /-- A call of the `__bpf_capsule_exit` marker. -/
  | exit (code : σ → BitVec 32)
  /-- `llvm.trap` or `llvm.debugtrap`. -/
  | trap
  /-- The store of the outcome word that carries the `OutcomeStore` metadata. -/
  | outcome (code : σ → BitVec 32)

inductive Term (σ : Type) where
  | br (target : Nat)
  | switch (key : σ → Nat) (cases : List Nat) (default : Nat)
  | ret
  | unreachable

structure Block (σ : Type) where
  body : List (Instr σ)
  term : Term σ

/-- A managed function; block 0 is its entry. -/
structure Func (σ : Type) where
  noReturn : Bool
  blocks : List (Block σ)

abbrev Module (σ : Type) := List (Func σ)

def Instr.isOutcome : Instr σ → Bool
  | .outcome _ => true
  | _ => false

def Term.succs : Term σ → List Nat
  | .br l => [l]
  | .switch _ cases default => default :: cases
  | .ret | .unreachable => []

/-- `publishesOutcome` of `TransformFunction`. -/
def Block.publishes (b : Block σ) : Bool := b.body.any Instr.isOutcome

/-! ## `bpf-lower-capsule-exit` -/

/-- The instructions before the first one `code?` selects, and the outcome store in its place. -/
def cutBody (code? : Instr σ → Option (σ → BitVec 32)) : List (Instr σ) → Option (List (Instr σ))
  | [] => none
  | i :: is =>
    match code? i with
    | some code => some [.outcome code]
    | none => (cutBody code? is).map (i :: ·)

/-- `TerminateWithOutcome` at the first instruction `code?` selects. -/
def Block.terminate (code? : Instr σ → Option (σ → BitVec 32)) (b : Block σ) : Block σ :=
  match cutBody code? b.body with
  | some body => ⟨body, .ret⟩
  | none => b

def exitCode? : Instr σ → Option (σ → BitVec 32)
  | .exit code => some code
  | _ => none

def trapCode? : Instr σ → Option (σ → BitVec 32)
  | .trap => some fun _ => BitVec.ofInt 32 CapsuleError.trap
  | _ => none

-- Markers first, then `FirstTrapCalls` of what is left.
def Block.lowerMarkers (b : Block σ) : Block σ := (b.terminate exitCode?).terminate trapCode?

def Func.hasMarker (f : Func σ) : Bool :=
  f.blocks.any fun b => b.body.any fun i => (exitCode? i).isSome || (trapCode? i).isSome

def Func.lowerMarkers (f : Func σ) : Func σ where
  noReturn := f.noReturn && !f.hasMarker
  blocks := f.blocks.map Block.lowerMarkers

/-- The functions that start a `noreturn` wrapper chain. -/
def terminating (M : Module σ) : List Nat :=
  (List.range M.length).filter fun i => M[i]?.any fun f => f.noReturn && f.hasMarker

/-- `call wrapper; unreachable` with a terminating wrapper. -/
def Block.reopens (wrappers : List Nat) (b : Block σ) : Bool :=
  match b.term, b.body.getLast? with
  | .unreachable, some (.call callee) => wrappers.contains callee
  | _, _ => false

def Block.reopen (wrappers : List Nat) (b : Block σ) : Block σ :=
  if b.reopens wrappers then { b with term := .ret } else b

/-- One round over the functions, from index `i` on; a rewritten function that was itself
`noreturn` is a wrapper for the functions after it and for the next round. -/
def reopenRound (i : Nat) (wrappers : List Nat) : Module σ → Module σ × List Nat × Bool
  | [] => ([], wrappers, false)
  | f :: fs =>
    let rewrote := f.blocks.any (Block.reopens wrappers)
    let f' := if rewrote then ⟨false, f.blocks.map (Block.reopen wrappers)⟩ else f
    let wrappers' := if rewrote && f.noReturn then i :: wrappers else wrappers
    let rest := reopenRound (i + 1) wrappers' fs
    (f' :: rest.1, rest.2.1, rewrote || rest.2.2)

/-- The `do … while (progress)` loop. A round that makes progress removes an `unreachable`, so the
number of blocks bounds the rounds. -/
def reopenLoop : Nat → List Nat → Module σ → Module σ
  | 0, _, M => M
  | fuel + 1, wrappers, M =>
    let round := reopenRound 0 wrappers M
    if round.2.2 then reopenLoop fuel round.2.1 round.1 else round.1

def lowerCapsuleExit (M : Module σ) : Module σ :=
  reopenLoop ((M.map fun f => f.blocks.length).sum + 1) (terminating M) (M.map Func.lowerMarkers)

/-! ## Inlining -/

/-- A call site: function, block, instruction. -/
structure Site where
  fn : Nat
  block : Nat
  idx : Nat
  deriving DecidableEq, Repr

/-- A terminator of an inlined callee whose blocks now start at `base`. -/
def Term.splice (base after : Nat) : Term σ → Term σ
  | .br l => .br (base + l)
  | .switch key cases default => .switch key (cases.map (base + ·)) (base + default)
  | .ret => .br after
  | .unreachable => .unreachable

/-- `InlineFunction`: the site's block is split around the call, the callee's blocks go behind the
caller's, and the code after the call becomes the last block. -/
def Func.inlineCall (caller : Func σ) (block idx : Nat) (b : Block σ) (callee : Func σ) : Func σ :=
  let base := caller.blocks.length
  let after := base + callee.blocks.length
  { caller with
    blocks := caller.blocks.set block ⟨b.body.take idx, .br base⟩
      ++ callee.blocks.map (fun c => ⟨c.body, c.term.splice base after⟩)
      ++ [⟨b.body.drop (idx + 1), b.term⟩] }

def inlineAt (M : Module σ) (s : Site) : Module σ :=
  match M[s.fn]? with
  | none => M
  | some caller =>
    match caller.blocks[s.block]? with
    | none => M
    | some b =>
      match b.body[s.idx]? with
      | some (.call g) =>
        match M[g]? with
        | some callee => M.set s.fn (caller.inlineCall s.block s.idx b callee)
        | none => M
      | _ => M

/-- The direct calls at `sites`, inlined one after the other. -/
def inlineCalls (sites : List Site) (M : Module σ) : Module σ := sites.foldl inlineAt M

/-! ## Return lowering in `TransformFunction` -/

inductive LTerm (σ : Type) where
  | br (target : Nat)
  | switch (key : σ → Nat) (cases : List Nat) (default : Nat)
  /-- `LowerReturn`: pop the frame and continue with the caller. -/
  | pop
  /-- `ret ActionStop`. -/
  | stop
  | unreachable

structure LBlock (σ : Type) where
  body : List (Instr σ)
  term : LTerm σ

abbrev Lowered (σ : Type) := List (List (LBlock σ))

def LBlock.publishes (b : LBlock σ) : Bool := b.body.any Instr.isOutcome

def Func.predecessors (f : Func σ) (r : Nat) : List (Block σ) :=
  f.blocks.filter fun b => b.term.succs.contains r

def Func.hasOrdinaryPredecessor (f : Func σ) (r : Nat) : Bool :=
  (f.predecessors r).any fun b => !b.publishes

def Func.hasTerminalPredecessor (f : Func σ) (r : Nat) : Bool :=
  (f.predecessors r).any fun b => b.publishes

/-- The return `r` has no outcome store of its own and is shared by publishing and ordinary
predecessors. -/
def Func.sharesReturn (f : Func σ) (r : Nat) : Bool :=
  match f.blocks[r]? with
  | some b =>
    match b.term with
    | .ret => !b.publishes && f.hasOrdinaryPredecessor r
    | _ => false
  | none => false

def Func.lowerTerm (f : Func σ) (r : Nat) (b : Block σ) : LTerm σ :=
  match b.term with
  | .ret =>
    if b.publishes || (f.hasTerminalPredecessor r && !f.hasOrdinaryPredecessor r) then .stop
    else .pop
  | .br l =>
    -- a publishing predecessor of a shared return is sent to its `.terminal` block, which only
    -- returns `ActionStop`
    if b.publishes && f.sharesReturn l then .stop else .br l
  | .switch key cases default => .switch key cases default
  | .unreachable => .unreachable

def Func.lowerReturns (f : Func σ) : List (LBlock σ) :=
  f.blocks.mapIdx fun r b => ⟨b.body, f.lowerTerm r b⟩

def Term.isRet : Term σ → Bool
  | .ret => true
  | _ => false

/-- A publishing block that reaches a return without an outcome store by anything but an
unconditional branch. -/
def Func.reachesConditionally (f : Func σ) (b : Block σ) : Bool :=
  b.publishes && match b.term with
    | .br _ => false
    | t => t.succs.any fun r => f.blocks[r]?.any fun rb => rb.term.isRet && !rb.publishes

/-- The lowering, unless a terminal return is reached conditionally from an outcome-publishing
block (`report_fatal_error`). -/
def stackify (M : Module σ) : Option (Lowered σ) :=
  if M.all fun f => f.blocks.all fun b => !f.reachesConditionally b then
    some (M.map Func.lowerReturns)
  else none

end BpfCapsule.Exit

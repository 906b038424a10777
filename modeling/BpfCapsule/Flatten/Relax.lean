import BpfCapsule.Flatten.Blocks
import Mathlib.Algebra.Ring.Int.Defs

/-!
# BpfCapsule — branch relaxation

`relaxFlattenedBranches` measures the layout in instruction slots and sends every branch that spans
too far, and every conditional branch that goes backwards, through relay blocks: blocks with a single
jump, placed at block boundaries along the way. Relays move everything after them, so the layout is
measured again until no branch needs one.
-/

namespace BpfCapsule.Flatten

variable {σ : Type}

structure Config where
  v4 : Bool
  conditionalSpan : Nat
  v3EncodableSpan : Nat
  v3RelayStep : Nat
deriving DecidableEq, Repr

/-- Why a compilation gives no function: it was ended, or it does not end within the fuel. -/
inductive Failure where
  | fatal (message : String)
  | fuel
deriving DecidableEq, Repr

/-! ## Measuring -/

def blockSlots (instrs : List (Inst σ)) : Int := (instrs.map fun i => (instructionSlots i : Int)).sum

def layoutOffsets : Int → MachineFunction σ → List (Id × Int)
  | _, [] => []
  | offset, blk :: f => (blk.id, offset) :: layoutOffsets (offset + blockSlots blk.instrs) f

namespace MachineFunction

variable (f : MachineFunction σ)

def blockOffset (b : Id) : Int := ((layoutOffsets 0 f).lookup b).getD 0

def totalSlots : Int := (List.map (fun blk : Block σ => blockSlots blk.instrs) f).sum

end MachineFunction

/-- The block boundary to place the next relay at, as far from `source` as a step allows. -/
def relayBoundary (config : Config) (layout : List (Id × Int)) (source : Int) (forward : Bool) :
    Option (Id × Int) :=
  if forward then
    let desired := source + config.v3RelayStep
    match (layout.takeWhile fun b => b.2 ≤ desired).getLast? with
    | some upper => if upper.2 ≤ source then none else some upper
    | none => none
  else
    let desired := source - config.v3RelayStep
    match layout.find? fun b => desired ≤ b.2 with
    | some lower => if source ≤ lower.2 then none else some lower
    | none => none

/-- The boundaries for a jump from `source` to `destination`. -/
def appendV3Chain (config : Config) (layout : List (Id × Int)) (destination : Int) :
    (fuel : Nat) → (source : Int) → Except Failure (List (Option Id))
  | 0, _ => .error .fuel
  | fuel + 1, source =>
    let span := destination - source - 1
    if -config.v3EncodableSpan ≤ span && span ≤ config.v3EncodableSpan then .ok []
    else
      match relayBoundary config layout source (0 < span) with
      | none =>
        .error (.fatal "bpf-machine-flatten: no basic-block boundary available for a branch relay")
      | some (before, next) =>
        if (0 < span && next ≤ source) || (span < 0 && source ≤ next) then
          .error (.fatal "bpf-machine-flatten: branch relay did not advance")
        else (appendV3Chain config layout destination fuel next).map (some before :: ·)

/-! ## Requests -/

/-- A branch that needs relays before the blocks `boundaries`, a missing one being the end. -/
structure Request where
  block : Id
  index : Nat
  target : Id
  boundaries : List (Option Id)

def encodableSpan (config : Config) (inst : Inst σ) : Int :=
  if inst.isConditionalBranch then config.conditionalSpan else config.v3EncodableSpan

/-- A branch at `source` may stay as it is. -/
def near (config : Config) (f : MachineFunction σ) (inst : Inst σ) (source : Int) (target : Id) : Bool :=
  let span := f.blockOffset target - source - 1
  let limit := encodableSpan config inst
  decide (-limit ≤ span) && span ≤ limit && !(inst.isConditionalBranch && span < 0)

/-- The request of the instruction at `source`, if it is a branch that needs one. -/
def request (config : Config) (fuel : Nat) (f : MachineFunction σ) (block : Id) (index : Nat)
    (source : Int) (inst : Inst σ) : Except Failure (Option Request) :=
  if !inst.isBranch then .ok none
  else if config.v4 && !inst.isConditionalBranch then .ok none
  else
    match inst.target? with
    | none => .ok none
    | some target =>
      if near config f inst source target then .ok none
      else
        let layout := layoutOffsets 0 f
        let destination := f.blockOffset target
        if inst.isConditionalBranch then
          -- The condition stays next to its relay; a missing `before` is the end of the function.
          let before := f.layoutNext block
          if config.v4 then .ok (some ⟨block, index, target, [before]⟩)
          else
            let source := match before with
              | some b => f.blockOffset b
              | none => f.totalSlots
            (appendV3Chain config layout destination fuel source).map fun chain =>
              some ⟨block, index, target, before :: chain⟩
        else
          (appendV3Chain config layout destination fuel source).map fun chain =>
            some ⟨block, index, target, chain⟩

def blockRequests (config : Config) (fuel : Nat) (f : MachineFunction σ) (block : Id) :
    (index : Nat) → (source : Int) → List (Inst σ) → Except Failure (List Request)
  | _, _, [] => .ok []
  | index, source, inst :: rest => do
    let first ← request config fuel f block index source inst
    let others ← blockRequests config fuel f block (index + 1) (source + instructionSlots inst) rest
    return first.toList ++ others

def requests (config : Config) (fuel : Nat) (f : MachineFunction σ) :
    MachineFunction σ → Except Failure (List Request)
  | [] => .ok []
  | blk :: rest => do
    let first ← blockRequests config fuel f blk.id 0 (f.blockOffset blk.id) blk.instrs
    let others ← requests config fuel f rest
    return first ++ others

/-! ## Relays -/

/-- LLVM's `MachineBasicBlock::canFallThrough`. A block that can fall through has the next block for a
successor, and a block that runs off its end into a successor can. -/
structure FallThrough (σ : Type) where
  can : MachineFunction σ → Block σ → Bool
  succ : ∀ f blk n, can f blk = true → f.layoutNext blk.id = some n → n ∈ blk.succs
  of_open : ∀ f blk n, Open blk.instrs = true → f.layoutNext blk.id = some n → n ∈ blk.succs →
    can f blk = true

namespace MachineFunction

def modify (f : MachineFunction σ) (b : Id) (g : Block σ → Block σ) : MachineFunction σ :=
  List.map (fun blk : Block σ => if blk.id = b then g blk else blk) f

def insertBefore (relay : Block σ) (before : Id) : MachineFunction σ → MachineFunction σ
  | [] => []
  | blk :: f => if blk.id = before then relay :: blk :: f else blk :: insertBefore relay before f

def freshId (f : MachineFunction σ) : Id := f.ids.foldr max 0 + 1

end MachineFunction

/-- `MachineBasicBlock::replaceSuccessor`. -/
def replaceSuccessor (succs : List Id) (old new : Id) : List Id :=
  if old = new then succs
  else if succs.contains new then succs.erase old
  else succs.replace old new

def addJump (target : Id) (blk : Block σ) : Block σ :=
  { blk with
    instrs := blk.instrs ++ [.jmp target]
    succs := if blk.succs.contains target then blk.succs else blk.succs ++ [target] }

variable (llvm : FallThrough σ)

/-- The block before `before` jumps to it if it can fall through to it. -/
def jumpToLayoutSuccessor (f : MachineFunction σ) (before : Id) : MachineFunction σ :=
  match Sequence.prev f.ids before with
  | none => f
  | some previous =>
    match f.block? previous with
    | none => f
    | some blk => if llvm.can f blk then f.modify previous (addJump before) else f

/-- The function made ready for a relay at `before`. -/
def closeBoundary (f : MachineFunction σ) : Option Id → MachineFunction σ
  | some before => jumpToLayoutSuccessor llvm f before
  | none => f

/-- The function with the relays of the round, by the boundary and the block each one is for. -/
structure Islands (σ : Type) where
  function : MachineFunction σ
  relays : List ((Option Id × Id) × Id)

def placeRelay (f : MachineFunction σ) (before : Option Id) (relay : Block σ) : MachineFunction σ :=
  match before with
  | some b => MachineFunction.insertBefore relay b f
  | none => f ++ [relay]

/-- The relay to `next` at `before`, made if there is none yet. -/
def addIsland (before : Option Id) (st : Islands σ × Id) : Islands σ × Id :=
  let (islands, next) := st
  match islands.relays.lookup (before, next) with
  | some relay => (islands, relay)
  | none =>
    let f := closeBoundary llvm islands.function before
    let relay := f.freshId
    (⟨placeRelay f before ⟨relay, [.jmp next], [next]⟩, islands.relays ++ [((before, next), relay)]⟩,
      relay)

/-- The branch of the request to `next` instead of its target. -/
def setBranch (request : Request) (next : Id) (blk : Block σ) : Block σ :=
  { blk with
    instrs := blk.instrs.modify request.index (Inst.retarget request.target next)
    succs := if blk.succs.contains request.target then replaceSuccessor blk.succs request.target next
      else blk.succs }

def relayRequest (islands : Islands σ) (request : Request) : Islands σ :=
  let (islands, next) := request.boundaries.foldr (addIsland llvm) (islands, request.target)
  { islands with function := islands.function.modify request.block (setBranch request next) }

def relayRound (f : MachineFunction σ) (rs : List Request) : MachineFunction σ :=
  (rs.foldl (relayRequest llvm) ⟨f, []⟩).function

def relaxRounds (config : Config) : (fuel : Nat) → MachineFunction σ → Except Failure (MachineFunction σ)
  | 0, _ => .error .fuel
  | fuel + 1, f => do
    let rs ← requests config fuel f f
    if rs.isEmpty then return f
    relaxRounds config fuel (relayRound llvm f rs)

def relaxFlattenedBranches (config : Config) (fuel : Nat) (f : MachineFunction σ) :
    Except Failure (MachineFunction σ) :=
  if config.conditionalSpan < 1 then
    .error (.fatal "bpf-machine-flatten: conditional branch span must be positive")
  else if !config.v4 && (config.v3EncodableSpan < 1 || config.v3RelayStep < 1 ||
      config.v3EncodableSpan ≤ config.v3RelayStep) then
    .error (.fatal ("bpf-machine-flatten: cpu=v3 relay step must be positive and smaller than its " ++
      "branch span"))
  else relaxRounds llvm config fuel f

end BpfCapsule.Flatten

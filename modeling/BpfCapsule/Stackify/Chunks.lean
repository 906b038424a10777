import Mathlib.Data.List.MinMax
import Mathlib.Data.List.Perm.Basic
import Mathlib.Data.String.Basic
import Mathlib.Tactic.Common
import Mathlib.Algebra.GroupWithZero.Nat

/-!
# BpfCapsule — choosing loop chunks

`ClassifyLoops` keeps small bounded loops native and offers every other innermost loop a chunk: a
number of trips to run between two suspensions, a conservative one and perhaps a larger one. The
offers compete for a budget of verifier work. In each round the offer with the most dispatches saved
per unit of work is taken; ratios are compared by cross-multiplication, ties go by name.

The code computes with saturating 64-bit and wrapping 128-bit integers. It is written here over an
`Arith`, so that the code as it runs (`machine`) and the code over exact integers (`exact`) are one
text.
-/

namespace BpfCapsule.Stackify

/-! ## Arithmetic -/

/-- `std::numeric_limits<uint64_t>::max()`. -/
def maxU64 : Nat := 2 ^ 64 - 1

def saturatingAdd (left right : Nat) : Nat :=
  if left > maxU64 - right then maxU64 else left + right

def saturatingMultiply (left right : Nat) : Nat :=
  if left = 0 ∨ right = 0 then 0
  else if left > maxU64 / right then maxU64 else left * right

/-- The operations that are not exact: sums and products of costs and weights, and the value of a
`__uint128_t` product. -/
structure Arith where
  add : Nat → Nat → Nat
  mul : Nat → Nat → Nat
  wide : Nat → Nat

def machine : Arith := ⟨saturatingAdd, saturatingMultiply, (· % 2 ^ 128)⟩

def exact : Arith := ⟨(· + ·), (· * ·), id⟩

/-! ## Candidates -/

def loopVerifierCostLimit : Nat := 1024
def chunkTripLimit : Nat := 8
def nativeLinearTripLimit : Nat := 64

inductive LoopInst where
  | alloca
  | lifetime
  /-- A load, a store or an atomic operation. -/
  | memory
  | select
  | other
  deriving DecidableEq

/-- `EstimatedVerifierInstructionCost`. -/
def LoopInst.verifierCost (fixedMemory : Bool) : LoopInst → Nat
  | .alloca => 0
  | .lifetime => 0
  | .memory => if fixedMemory then 8 else 1
  | .select => 1
  | .other => 1

structure LoopBlock where
  insts : List LoopInst
  successors : Nat
  deriving DecidableEq

/-- What the classification reads of a loop. `trips` is the exact or the maximal constant trip count,
0 if there is neither; `hotness` is the estimated frequency of its function. -/
structure LoopFacts where
  function : String
  header : String
  fixedMemory : Bool
  blocks : List LoopBlock
  innermost : Bool
  latch : Bool
  preheader : Bool
  predecessor : Bool
  simplified : Bool
  managedCall : Bool
  nonScalarCall : Bool
  trips : Nat
  hotness : Nat
  depth : Nat
  hotness_le : hotness ≤ maxU64
  deriving DecidableEq

namespace LoopFacts

variable (A : Arith) (f : LoopFacts)

def insts : List LoopInst := f.blocks.flatMap LoopBlock.insts

def verifierBodyCost : Nat :=
  f.insts.foldl (fun cost inst => A.add cost (inst.verifierCost f.fixedMemory)) 0

/-- Excess successors and selects; an `unsigned`. -/
def branchFanout : Nat :=
  ((f.blocks.map fun b => b.successors - 1).sum + f.insts.count .select) % 2 ^ 32

def pathFactor : Nat := 2 ^ min (f.branchFanout - 1) 4

def entryFactor : Nat := if f.preheader then 1 else 2

def verifierCost (count : Nat) : Nat :=
  A.mul (A.mul (count - 1) (f.verifierBodyCost A)) (f.pathFactor * f.entryFactor)

def keepNative : Bool :=
  let nativeShape := f.innermost && f.latch && f.preheader && f.simplified
  let maxNativeTrips := if f.branchFanout ≤ 1 then nativeLinearTripLimit else chunkTripLimit
  let guardedCost := f.trips ≠ 0 ∧ f.verifierCost A f.trips ≤ loopVerifierCostLimit
  nativeShape && !f.managedCall && decide (f.trips ≤ maxNativeTrips) && decide guardedCost

def sizeChunk (maximum : Nat) : Nat :=
  if f.verifierBodyCost A = 0 then 0
  else
    let oneBackedgeCost := f.verifierCost A 2
    if oneBackedgeCost = 0 ∨ oneBackedgeCost > loopVerifierCostLimit then 0
    else min maximum (1 + loopVerifierCostLimit / oneBackedgeCost)

def baselineTrips : Nat := f.sizeChunk A chunkTripLimit

def preferredTrips : Nat :=
  max (f.sizeChunk A (if f.branchFanout ≤ 1 then 16 else chunkTripLimit)) (f.baselineTrips A)

def canChunk : Bool :=
  f.innermost && f.latch && (f.preheader || f.predecessor) && !f.nonScalarCall &&
    decide (2 ≤ f.baselineTrips A)

def frequency : Nat := A.mul f.hotness (2 ^ min (f.depth - 1) 12)

end LoopFacts

/-- `ChunkCandidate`; `trips` is 0 until the baseline is selected. -/
structure Chunk where
  loop : LoopFacts
  baselineTrips : Nat
  preferredTrips : Nat
  baselineCost : Nat
  preferredCost : Nat
  frequency : Nat
  trips : Nat
  deriving DecidableEq

def LoopFacts.candidate? (A : Arith) (f : LoopFacts) : Option Chunk :=
  if !f.keepNative A && f.canChunk A then
    some { loop := f
           baselineTrips := f.baselineTrips A
           preferredTrips := f.preferredTrips A
           baselineCost := f.verifierCost A (f.baselineTrips A)
           preferredCost := f.verifierCost A (f.preferredTrips A)
           frequency := f.frequency A
           trips := 0 }
  else none

/-! ## Growth -/

section

variable (A : Arith)

/-- `chunkBudget`, with the multiplier of the command line. -/
def chunkBudget (multiplier : Nat) (chunks : List Chunk) : Nat :=
  let dedicated := (chunks.filter (·.loop.preheader)).foldl (fun sum c => A.add sum c.baselineCost) 0
  let single := chunks.foldl (fun best c => max best c.preferredCost) 0
  A.mul (max dedicated single) (max 1 multiplier)

/-- A step up: what it costs and, as `gain / denominator`, the dispatches it saves per trip. -/
structure Offer where
  cost : Nat
  gain : Nat
  denominator : Nat

def Chunk.offer (c : Chunk) : Option Offer :=
  if c.trips = 0 then
    some ⟨c.baselineCost, A.wide (c.frequency * (c.baselineTrips - 1)), c.baselineTrips⟩
  else if c.trips = c.baselineTrips ∧ c.baselineTrips < c.preferredTrips then
    some ⟨c.preferredCost - c.baselineCost,
      A.wide (c.frequency * (c.preferredTrips - c.baselineTrips)), c.baselineTrips * c.preferredTrips⟩
  else none

structure Bid where
  index : Nat
  chunk : Chunk
  offer : Offer

def stableTie (a b : Bid) : Bool :=
  if a.chunk.loop.function ≠ b.chunk.loop.function then a.chunk.loop.function < b.chunk.loop.function
  else if a.chunk.loop.header ≠ b.chunk.loop.header then a.chunk.loop.header < b.chunk.loop.header
  else a.index < b.index

def beats (new best : Bid) : Bool :=
  let lhs := A.wide (A.wide (new.offer.gain * best.offer.denominator) * best.offer.cost)
  let rhs := A.wide (A.wide (best.offer.gain * new.offer.denominator) * new.offer.cost)
  decide (lhs > rhs) || (decide (lhs = rhs) && stableTie new best)

def bids (left : Nat) (chunks : List Chunk) : List Bid :=
  chunks.zipIdx.filterMap fun (c, i) =>
    (c.offer A).bind fun o => if o.cost = 0 ∨ o.cost > left then none else some ⟨i, c, o⟩

def scan (left : Nat) (chunks : List Chunk) : Option Bid :=
  (bids A left chunks).foldl
    (fun best bid =>
      match best with
      | none => some bid
      | some b => if beats A bid b then some bid else some b) none

def Chunk.grown (c : Chunk) : Chunk :=
  { c with trips := if c.trips ≠ 0 then c.preferredTrips else c.baselineTrips }

def growChunks (budget : Nat) : (fuel cost : Nat) → List Chunk → List Chunk × Nat
  | 0, cost, chunks => (chunks, cost)
  | fuel + 1, cost, chunks =>
    match scan A (budget - cost) chunks with
    | none => (chunks, cost)
    | some bid =>
      growChunks budget fuel (cost + bid.offer.cost) (chunks.set bid.index bid.chunk.grown)

/-- The candidates with their selected trips. Every round takes one candidate one step up, and each
has two, so twice their number is fuel enough. -/
def selectChunks (multiplier : Nat) (loops : List LoopFacts) : List Chunk × Nat :=
  let chunks := loops.filterMap (LoopFacts.candidate? A)
  growChunks A (chunkBudget A multiplier chunks) (2 * chunks.length) 0 chunks

end

end BpfCapsule.Stackify

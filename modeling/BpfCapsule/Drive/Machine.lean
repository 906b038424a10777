import BpfCapsule.Ir.Types
import BpfCapsule.Lib.Loop
import BpfCapsule.Stackify.Dispatch

/-!
# BpfCapsule — the entries that drive one computation

`capsule_call` sets a fiber up and drives it, every `capsule_continue` drives it on, and the entry
after whose drive the fiber is idle delivers the root's result.

* A drive is three nested bounded loops: the generated step makes up to `trips` dispatches,
  `__bpf_capsule_trampoline_l1` up to `level` steps, `__bpf_capsule_trampoline` up to `repeats`
  rounds of those and then one more step. What is left when the budget ends is PENDING.
* The root's `ret` stores the result into the fiber's slice at the offset `LayoutCall` gave it.
  `capsule_call` loads it from there as a value of the root's type; `capsule_continue` does not know
  the root and copies bytes from an offset it derives from its own output.

A managed program is what its regions do to the fiber. Of the pool only the last answer is part of
this model: the computation keeps its fiber, every token is consumed, and `Report.release` is what
becomes of a report when the pool does or does not take the fiber back.
-/

namespace BpfCapsule.Drive

open BoundedLoop
open Stackify (Packed RegionState regionIdDone)

abbrev Bytes := Nat → BitVec 8

/-! ## Results -/

/-- The root of a `capsule_call`, after `AdaptSretRoot`: its result type, `none` for void, the
alignment its hidden pointer was declared with, and the offset of its frame in the slice. -/
structure Root where
  resultType : Option Ir.Ty
  sretAlign : Nat
  rootFp : Nat

/-- What a boundary says about its output: `sizeof`, and the exponent of `_Alignof`, which has to be
a power of two. -/
structure Output where
  size : Nat
  alignLog : Nat

/-- `capsule_call_void` and `capsule_continue_void`. -/
def Output.void : Output := ⟨0, 0⟩

namespace Root

variable (root : Root)

def returnSize : Nat := (root.resultType.map (·.allocSize)).getD 0

def returnAlign : Nat := (root.resultType.map (·.abiAlign)).getD 1

/-- The check of `bpf-lower-capsule-call` on the output of a `capsule_call`. -/
def Accepts (output : Output) : Prop :=
  output.size = root.returnSize ∧ max root.returnAlign root.sretAlign ≤ 2 ^ output.alignLog

instance (output : Output) : Decidable (root.Accepts output) :=
  inferInstanceAs (Decidable (_ ∧ _))

/-- `ResultOffset`: `LayoutCall` reserves the result right above the linkage words. -/
def resultOffset : Nat := alignTo linkageBytes (max 8 root.returnAlign)

def carries (i : Nat) : Bool := (root.resultType.map (·.stores i)).getD false

/-- The store of `LowerReturn`. -/
def storeResult (slice value : Bytes) : Bytes := fun address =>
  let start := root.rootFp + root.resultOffset
  if start ≤ address ∧ root.carries (address - start) then value (address - start)
  else slice address

/-- `RewriteEntryCall` loads the result as a value of its type, and `capsule_call` stores that value
to the output. -/
def loadResult (slice output : Bytes) : Bytes := fun i =>
  if root.carries i then slice (root.rootFp + root.resultOffset + i) else output i

end Root

namespace Output

variable (output : Output)

/-- `resultOffset` of `RewriteReturnCopies`. -/
def copyOffset : Nat := alignTo linkageBytes (max 8 (2 ^ output.alignLog))

/-- The exponent of the width of the next piece: halve while it does not fit or is not aligned. -/
def narrow (offset : Nat) : Nat → Nat
  | 0 => 0
  | k + 1 =>
    if output.size - offset < 2 ^ (k + 1) ∨ offset % 2 ^ (k + 1) ≠ 0 then narrow offset k else k + 1

def width (offset : Nat) : Nat := 2 ^ output.narrow offset (min 3 output.alignLog)

/-- The pieces of `RewriteReturnCopies` from `offset` on; each is one load and one store. -/
def copyFrom (source : Bytes) : (pieces offset : Nat) → Bytes → Bytes
  | 0, _, out => out
  | pieces + 1, offset, out =>
    if offset < output.size then
      let width := output.width offset
      copyFrom source pieces (offset + width) fun i =>
        if offset ≤ i ∧ i < offset + width then source i else out i
    else out

/-- `__bpf_capsule_copy_return`. A piece has at least one byte, so `size` pieces are enough. -/
def copyReturn (rootFp : Nat) (slice out : Bytes) : Bytes :=
  output.copyFrom (fun i => slice (rootFp + output.copyOffset + i)) output.size 0 out

end Output

/-! ## Dispatches -/

/-- What a drive reads and writes of a fiber: its control words, its stack slice and whatever else
managed code works on. -/
structure Fiber (σ : Type) where
  data : σ
  slice : Bytes
  resume : Nat
  outcome : BitVec 64

variable {σ : Type}

/-- How a region ends: with an action, `true` for `ActionStop`, or in the root's `ret`. -/
inductive Outcome (σ : Type) where
  | action (f : Fiber σ) (stop : Bool)
  | ret (f : Fiber σ) (value : Bytes)

/-- A compiled program: the region table of the step in use, its root, and what each region does. -/
structure Program (σ : Type) where
  packed : Packed
  borrowed : Bool
  root : Root
  exec : RegionState → Fiber σ → Outcome σ

/-- What can be observed from outside: region dispatches, the root's return and reported yields. -/
inductive Event where
  | dispatch (s : RegionState)
  | returned (value : Bytes)
  | yielded

namespace Program

variable (p : Program σ)

def tick (f : Fiber σ) : Result (Fiber σ) Event :=
  match p.packed.dispatch p.borrowed f.resume with
  | .idle => ⟨f, [], true⟩
  | .completed => ⟨{ f with resume := 0 }, [], true⟩
  | .invalid =>
    ⟨{ f with outcome := outcomeValue (BitVec.ofInt 32 CapsuleError.invalidDispatch) }, [], true⟩
  | .region s =>
    match p.exec s f with
    | .action f' stop => ⟨f', [.dispatch s], stop⟩
    | .ret f' value =>
      -- the root's linkage words: no frame to go back to, and the return region is DONE
      ⟨{ f' with slice := p.root.storeResult f'.slice value, resume := regionIdDone },
        [.dispatch s, .returned value], false⟩

end Program

/-- `BPF_CAPSULE_STEP_TRIPS`, `BPF_CAPSULE_DRIVE_LEVEL` and `BPF_CAPSULE_DRIVE_REPEATS`. -/
structure Budget where
  trips : Nat
  level : Nat
  repeats : Nat
  trips_pos : 0 < trips
  level_pos : 0 < level
  repeats_pos : 0 < repeats

namespace Program

variable (p : Program σ) (budget : Budget)

def trampolineStep : Fiber σ → Result (Fiber σ) Event := loop p.tick budget.trips

/-- `__bpf_capsule_trampoline_l1`. -/
def trampolineL1 : Fiber σ → Result (Fiber σ) Event :=
  loop (p.trampolineStep budget) budget.level

/-- `__bpf_capsule_trampoline`. -/
def trampoline : Fiber σ → Result (Fiber σ) Event :=
  andThen (loop (p.trampolineL1 budget) budget.repeats) (p.trampolineStep budget)

end Program

/-! ## Entries -/

inductive EntryKind where
  | call
  | continue
  deriving DecidableEq, Repr

/-- The status and code an entry returns, and what its output holds then. -/
structure Report where
  status : CapsuleStatus
  code : BitVec 32
  output : Bytes

/-- The end of every entry that ends the computation, completed or cancelled: when
`__bpf_capsule_fiber_release` fails, the entry reports EXITED with POOL_CORRUPT, and what it has
written to the output stays. -/
def Report.release (released : Bool) (r : Report) : Report :=
  match r.status with
  | .ok | .exited =>
    if released then r else { r with status := .exited, code := BitVec.ofInt 32 CapsuleError.poolCorrupt }
  | .yield | .pending => r

/-- A computation before its next entry, or its final report. -/
inductive Phase (σ : Type) where
  | running (kind : EntryKind) (f : Fiber σ)
  | finished (report : Report)

/-- An entry as the host sees it, and where it leaves the computation. -/
structure Entered (σ : Type) where
  events : List Event
  report : Report
  next : Phase σ

/-- The fiber `capsule_call` starts: `RewriteEntryCall` clears the outcome. -/
def call (data : σ) (slice : Bytes) (entryRegionId : Nat) : Phase σ :=
  .running .call ⟨data, slice, entryRegionId, 0⟩

/-- `__bpf_capsule_prepare_continue`, for a fiber that was left PENDING or YIELD. -/
def prepareContinue (f : Fiber σ) (out : Bytes) : Phase σ :=
  if f.resume = 0 then .finished ⟨.exited, BitVec.ofInt 32 CapsuleError.notPending, out⟩
  else .running .continue { f with outcome := 0 }

namespace Program

variable (p : Program σ) (budget : Budget) (output : Output) (out : Bytes)

/-- The delivery of a completed computation: the tail of `__bpf_capsule_call`, or of
`__bpf_capsule_finish_continue` up to the release of the fiber. -/
def deliver (f : Fiber σ) : EntryKind → Report
  | .call => ⟨.ok, 0, p.root.loadResult f.slice out⟩
  | .continue =>
    if p.root.returnSize ≠ output.size then
      ⟨.exited, BitVec.ofInt 32 CapsuleError.returnMismatch, out⟩
    else ⟨.ok, 0, if output.size ≠ 0 then output.copyReturn p.root.rootFp f.slice out else out⟩

def finishEntry (kind : EntryKind) (f : Fiber σ) : Entered σ :=
  match observedStatus f.outcome (f.resume == 0) with
  | .ok => ⟨[], p.deliver output out f kind, .finished (p.deliver output out f kind)⟩
  | .exited =>
    ⟨[], ⟨.exited, outcomeCode f.outcome, out⟩, .finished ⟨.exited, outcomeCode f.outcome, out⟩⟩
  | .yield => ⟨[.yielded], ⟨.yield, 0, out⟩, prepareContinue f out⟩
  | .pending => ⟨[], ⟨.pending, 0, out⟩, prepareContinue f out⟩

/-- One entry under a budget; `out` is what its output holds before. -/
def entry (kind : EntryKind) (f : Fiber σ) : Entered σ :=
  let driven := p.trampoline budget f
  let ended := p.finishEntry output out kind driven.state
  { ended with events := driven.events ++ ended.events }

end Program

variable (move : EntryKind → Fiber σ → List Event × Phase σ)

/-- `n` moves of a computation, with everything observed on the way. -/
def run : Nat → Phase σ → List Event × Phase σ
  | n + 1, .running kind f =>
    let first := move kind f
    let rest := run n first.2
    (first.1 ++ rest.1, rest.2)
  | _, phase => ([], phase)

theorem run_finished (n : Nat) (report : Report) : run move n (.finished report) = ([], .finished report) := by
  cases n <;> rfl

theorem run_add (m n : Nat) (phase : Phase σ) :
    run move (m + n) phase
      = ((run move m phase).1 ++ (run move n (run move m phase).2).1,
          (run move n (run move m phase).2).2) := by
  induction m generalizing phase with
  | zero =>
    rw [Nat.zero_add]
    rfl
  | succ m ih =>
    cases phase with
    | finished report => simp only [run_finished, List.append_nil]
    | running kind f =>
      rw [Nat.succ_add]
      show ((move kind f).1 ++ (run move (m + n) (move kind f).2).1,
        (run move (m + n) (move kind f).2).2) = _
      rw [ih]
      simp only [run, List.append_assoc]

/-- What every move keeps, a run keeps; `seen` is what came before. -/
theorem run_invariant {move : EntryKind → Fiber σ → List Event × Phase σ}
    {P : List Event → Phase σ → Prop} (hmove : ∀ seen kind f, P seen (.running kind f) →
      P (seen ++ (move kind f).1) (move kind f).2)
    (n : Nat) (seen : List Event) {phase : Phase σ} (h : P seen phase) :
    P (seen ++ (run move n phase).1) (run move n phase).2 := by
  induction n generalizing seen phase with
  | zero =>
    show P (seen ++ []) phase
    rwa [List.append_nil]
  | succ n ih =>
    cases phase with
    | finished report =>
      show P (seen ++ []) (.finished report)
      rwa [List.append_nil]
    | running kind f =>
      have hrest := ih (seen ++ (move kind f).1) (hmove seen kind f h)
      rw [List.append_assoc] at hrest
      exact hrest

/-- The first `k` entries of a chain. -/
def Program.chain (p : Program σ) (budget : Budget) (output : Output) (out : Bytes) :
    (k : Nat) → Phase σ → List Event × Phase σ :=
  run fun kind f =>
    let entered := p.entry budget output out kind f
    (entered.events, entered.next)

/-! ## A drive is one loop of dispatches -/

def Budget.dispatches (budget : Budget) : Nat := budget.repeats * budget.level * budget.trips

def Budget.total (budget : Budget) : Nat := budget.dispatches + budget.trips

theorem Budget.total_pos (budget : Budget) : 0 < budget.total := by
  have htrips := budget.trips_pos
  unfold total
  omega

theorem Program.trampoline_eq (p : Program σ) (budget : Budget) :
    p.trampoline budget = loop p.tick budget.total := by
  unfold trampoline trampolineL1 trampolineStep Budget.total Budget.dispatches
  rw [loop_loop, loop_loop, loop_add]

end BpfCapsule.Drive

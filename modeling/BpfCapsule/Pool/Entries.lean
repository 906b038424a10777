import BpfCapsule.Pool.Machine

/-!
# BpfCapsule — the code of the entries

`capsule_call`, `capsule_continue` and `capsule_reset`, as `bpf_capsule.c` and the call lowering
write them, over the operations of `Pool.Machine`. Every load, store and map helper of the source
is one operation here, in the source's order; the `#if BPF_CAPSULE_FEATURE_ARENA` branches are
matches on the tier. A C expression that short-circuits performs only the loads it reaches.

`__BPF_CAPSULE_NO_FIBER` is `none`. The generated code that runs between the boundary's own
stores is an arbitrary list of stores to the fiber's registers and slice: nothing below relies on
what a guest computes.
-/

namespace BpfCapsule.Pool

open Interleave
open CapsuleError

abbrev Code (α : Type) := Prog Op Resp α

def perform (o : Op) : Code (Resp o) := Prog.op o

def load (fiber : Nat) (fld : Field) : Code fld.Val := perform (.load fiber fld)
def store (fiber : Nat) (fld : Field) (v : fld.Val) : Code Unit := perform (.store fiber fld v)

/-! ## The fiber pool -/

def scanChunk : Nat := 16
def scanPage : Nat := scanChunk * scanChunk

/-- `__bpf_capsule_stop`. -/
def stop (control : Nat) (code : Int) : Code Unit := do
  store control .status .exited
  store control .code code

variable (S : Setup)

/-- `__bpf_capsule_make_continuation`. -/
def makeContinuation (fiber : Nat) : Code Nat :=
  if S.fiberCount ≤ fiber then pure noContinuation
  else do
    let generation ← load (S.fiberControl fiber) .generation
    pure (continuationValue fiber generation)

def leaseFiber (fiber : Nat) : Code Bool :=
  match S.tier with
  | .arena => perform (.issuedInsert fiber)
  | .fixed => do
    let current ← load fiber .generation
    let inserted ← perform (.leaseInsert fiber (nextGeneration current))
    match inserted with
    | true => do
      store fiber .generation (nextGeneration current)
      pure true
    | false => pure false

/-- The loop of `__bpf_capsule_fiber_acquire_chunk` with `left` attempts to go. -/
def acquireChunkLoop (start : Nat) : (left attempt : Nat) → Code (Option Nat)
  | 0, _ => pure none
  | left + 1, attempt =>
    if S.fiberCount ≤ attempt then pure none
    else do
      let fiber := if S.fiberCount ≤ start + attempt then start + attempt - S.fiberCount
        else start + attempt
      let leased ← leaseFiber S fiber
      match leased with
      | true => pure (some fiber)
      | false => acquireChunkLoop start left (attempt + 1)

/-- `__bpf_capsule_fiber_acquire_chunk`. -/
def fiberAcquireChunk (start first : Nat) : Code (Option Nat) :=
  if S.fiberCount ≤ start ∨ S.fiberCount ≤ first then pure none
  else acquireChunkLoop S start scanChunk first

/-- The loop of `__bpf_capsule_fiber_acquire_page` with `left` chunks to go. -/
def acquirePageLoop (start : Nat) : (left offset : Nat) → Code (Option Nat)
  | 0, _ => pure none
  | left + 1, offset =>
    if S.fiberCount ≤ offset then pure none
    else do
      let found ← fiberAcquireChunk S start offset
      match found with
      | some fiber => pure (some fiber)
      | none => acquirePageLoop start left (offset + scanChunk)

/-- `__bpf_capsule_fiber_acquire_page`. -/
def fiberAcquirePage (start first : Nat) : Code (Option Nat) :=
  if S.fiberCount ≤ first then pure none else acquirePageLoop S start scanChunk first

/-- `__bpf_capsule_clear_fiber`. -/
def clearFiber (control : Nat) : Code Unit := do
  store control .status .ok
  store control .code 0
  store control .resumeRegionId 0
  store control .sp 0
  store control .fp 0
  store control .returnSize 0

/-- `__bpf_capsule_prepare_fiber`. -/
def prepareFiber (fiber : Nat) : Code Unit :=
  match S.tier with
  | .arena => do
    let current ← load fiber .generation
    store fiber .generation (nextGeneration current)
    clearFiber fiber
  | .fixed => clearFiber fiber

/-- The page loop of `__bpf_capsule_fiber_acquire` with `left` pages to go. -/
def acquireLoop (start : Nat) : (left first : Nat) → Code (Option Nat)
  | 0, _ => pure none
  | left + 1, first => do
    let found ← fiberAcquirePage S start first
    match found with
    | some fiber => do
      prepareFiber S fiber
      pure (some fiber)
    | none => acquireLoop start left (first + scanPage)

/-- The scan `__bpf_capsule_fiber_acquire` falls back to. -/
def acquireScan (cpu : Nat) : Code (Option Nat) :=
  acquireLoop S (cpu % S.fiberCount) ((S.maxFibers + scanPage - 1) / scanPage) 0

/-- `__bpf_capsule_fiber_acquire`. -/
def fiberAcquire (cpu : Nat) : Code (Option Nat) :=
  if S.fiberCount = 0 then pure none
  else
    match S.tier with
    | .fixed => acquireScan S cpu
    | .arena => do
      let popped ← perform .freePop
      match popped with
      | some fiber =>
        if S.fiberCount ≤ fiber then pure none
        else do
          prepareFiber S fiber
          pure (some fiber)
      | none => acquireScan S cpu

def releaseSlot (fiber : Nat) : Code Bool :=
  match S.tier with
  | .arena => perform (.freePush fiber)
  | .fixed => perform (.leaseDelete fiber)

/-- `__bpf_capsule_fiber_release`; `true` is the source's zero. -/
def fiberRelease (fiber : Nat) : Code Bool :=
  if S.fiberCount ≤ fiber then pure false
  else do
    let released ← releaseSlot S fiber
    match released with
    | true => pure true
    | false => do
      stop fiber poolCorrupt
      pure false

/-- `__bpf_capsule_fiber_cancel`. -/
def fiberCancel (fiber : Nat) : Code Bool := do
  clearFiber (S.fiberControl fiber)
  fiberRelease S fiber

/-- `__bpf_capsule_finish_exited`. -/
def finishExited (fiber : Nat) : Code CapsuleResult := do
  let code ← load (S.fiberControl fiber) .code
  let released ← fiberCancel S fiber
  pure (exitedWith (if released then code else poolCorrupt))

/-! ## Consuming a continuation -/

/-- The refusals of `enum __bpf_capsule_continuation_claim_result`. -/
inductive ClaimError where
  | mapCorrupt
  | invalid
  | stale
  deriving DecidableEq, Repr

/-- `control->resume_region_id || control->status == CAPSULE_EXITED`. -/
def hasOutcome (fiber : Nat) : Code Bool := do
  let resume ← load fiber .resumeRegionId
  if resume ≠ 0 then pure true
  else do
    let status ← load fiber .status
    pure (decide (status = .exited))

/-- The middle of `__bpf_capsule_consume_continuation`: is the claimed token the fiber's current
one, and if so install the next generation. -/
def consumeGeneration (fiber generation : Nat) : Code Bool :=
  let next := nextGeneration generation
  match S.tier with
  | .arena => do
    let suspended ← hasOutcome fiber
    match suspended with
    | false => pure false
    | true => do
      let current ← perform (.generationIs fiber generation)
      match current with
      | false => pure false
      | true => do
        store fiber .generation next
        pure true
  | .fixed => do
    let leased ← perform (.leaseLookup fiber)
    match leased with
    | none => pure false
    | some elem => do
      let current ← perform (.leaseIs elem fiber generation)
      match current with
      | false => pure false
      | true => do
        perform (.leaseStore elem fiber next)
        store fiber .generation next
        pure true

/-- `__bpf_capsule_consume_continuation`; a consumed claim carries the fiber that the source
publishes through `fiber_out`. -/
def consumeContinuation (continuation : Nat) : Code (Except ClaimError Nat) :=
  let fiber := tokenFiber continuation
  let generation := tokenGeneration continuation
  if generation = 0 ∨ S.fiberCount ≤ fiber then pure (.error .invalid)
  else do
    let claim ← perform (.claimInsert continuation)
    match claim with
    | .eexist => pure (.error .stale)
    | .e2big => pure (.error .mapCorrupt)
    | .ok => do
      let consumed ← consumeGeneration S fiber generation
      let cleaned ← perform (.claimDelete continuation)
      match consumed, cleaned with
      | true, true => pure (.ok fiber)
      | true, false => do
        stop (S.fiberControl fiber) poolCorrupt
        pure (.ok fiber)
      | false, true => pure (.error .stale)
      | false, false => pure (.error .mapCorrupt)

/-! ## Driving a fiber -/

def guestStores (fiber : Nat) : List GuestStore → Code Unit
  | [] => pure ()
  | w :: ws => do
    match w with
    | .outcome status code => perform (.storeOutcome fiber status code)
    | .resumeRegionId id => store fiber .resumeRegionId id
    | .sp address => store fiber .sp address
    | .fp address => store fiber .fp address
    | .slice offset byte => perform (.storeSlice fiber offset byte)
    guestStores fiber ws

/-- `__bpf_capsule_trampoline`: on the fixed tier a missing stack region stops the fiber. -/
def trampoline (fiber : Nat) (drive : Drive) : Code Unit :=
  match S.tier, drive.stackRegion with
  | .fixed, false => stop (S.fiberControl fiber) memoryFault
  | _, _ => guestStores (S.fiberControl fiber) drive.stores

/-- `size` bytes of a slice from `offset` on. -/
def loadBytes (fiber : Nat) : (size offset : Nat) → Code (List UInt8)
  | 0, _ => pure []
  | size + 1, offset => do
    let byte ← perform (.loadSlice fiber offset)
    let rest ← loadBytes fiber size (offset + 1)
    pure (byte :: rest)

/-- `__bpf_capsule_copy_return`, with the result offset its rewrite computes from the alignment of
the output. -/
def copyReturn (fiber outputSize outputAlignment : Nat) : Code (List UInt8) :=
  loadBytes (S.fiberControl fiber) outputSize
    (S.rootFp + alignTo linkageBytes (max 8 outputAlignment))

/-! ## The entry points -/

def refusal : ClaimError → CapsuleResult
  | .mapCorrupt => exitedWith poolCorrupt
  | .invalid => exitedWith invalidContinuation
  | .stale => exitedWith staleContinuation

/-- `__bpf_capsule_prepare_continue`: either the entry is over, or it drives the fiber next. -/
def prepareContinue (continuation : Nat) :
    Code (CapsuleResult ⊕ (Nat × CapsuleResult)) := do
  let consumed ← consumeContinuation S continuation
  match consumed with
  | .error e => pure (.inl (refusal e))
  | .ok fiber => do
    let token ← makeContinuation S fiber
    let status ← load (S.fiberControl fiber) .status
    if status = .exited then do
      let result ← finishExited S fiber
      pure (.inl result)
    else do
      let resume ← load (S.fiberControl fiber) .resumeRegionId
      if resume = 0 then do
        let released ← fiberCancel S fiber
        pure (.inl (exitedWith (if released then notPending
          else poolCorrupt)))
      else do
        store (S.fiberControl fiber) .status .ok
        store (S.fiberControl fiber) .code 0
        pure (.inr (fiber, ⟨0, .exited, token⟩))

def copyOutput (fiber outputSize outputAlignment : Nat) : Code (Option (List UInt8)) :=
  if outputSize = 0 then pure none
  else do
    let bytes ← copyReturn S fiber outputSize outputAlignment
    pure (some bytes)

/-- The completed branch of `__bpf_capsule_finish_continue`, up to its tail. -/
def finishCompleted (result : CapsuleResult)
    (fiber outputSize outputAlignment : Nat) : Code Returned := do
  let matching ← perform (.returnSizeIs (S.fiberControl fiber) outputSize)
  match matching with
  | false => do
    let released ← fiberCancel S fiber
    pure ⟨{ result with code := if released then returnMismatch
                          else poolCorrupt, status := .exited }, none⟩
  | true => do
    let output ← copyOutput S fiber outputSize outputAlignment
    let released ← fiberRelease S fiber
    match released with
    | true => pure ⟨{ result with status := .ok }, output⟩
    | false => pure ⟨{ result with code := poolCorrupt, status := .exited }, output⟩

/-- `__bpf_capsule_finish_continue`. -/
def finishContinue (result : CapsuleResult)
    (fiber outputSize outputAlignment : Nat) : Code Returned := do
  let status ← load (S.fiberControl fiber) .status
  if status = .exited then do
    let result ← finishExited S fiber
    pure ⟨result, none⟩
  else if status = .yield then do
    let token ← makeContinuation S fiber
    pure ⟨{ result with status := .yield, continuation := token }, none⟩
  else do
    let resume ← load (S.fiberControl fiber) .resumeRegionId
    if resume ≠ 0 then do
      let token ← makeContinuation S fiber
      pure ⟨{ result with status := .pending, continuation := token }, none⟩
    else do
      let done ← finishCompleted S result fiber outputSize outputAlignment
      if done.result.status = .exited then store (S.fiberControl fiber) .returnSize 0
      else pure ()
      pure { done with result.continuation := noContinuation }

/-- `__bpf_capsule_continue` and `__bpf_capsule_continue_ctx`. -/
def capsuleContinue (continuation outputSize outputAlignment : Nat) (drive : Drive) :
    Code Returned := do
  let prepared ← prepareContinue S continuation
  match prepared with
  | .inl result => pure ⟨result, none⟩
  | .inr (fiber, result) => do
    trampoline S fiber drive
    finishContinue S result fiber outputSize outputAlignment

/-- `__bpf_capsule_reset`. The fiber-local block it restores is not part of the pool. -/
def capsuleReset (continuation : Nat) : Code Returned := do
  let consumed ← consumeContinuation S continuation
  match consumed with
  | .error e => pure ⟨refusal e, none⟩
  | .ok fiber => do
    let status ← load (S.fiberControl fiber) .status
    if status = .exited then do
      let result ← finishExited S fiber
      pure ⟨result, none⟩
    else do
      let released ← fiberCancel S fiber
      match released with
      | true => pure ⟨⟨0, .ok, noContinuation⟩, none⟩
      | false => pure ⟨exitedWith poolCorrupt, none⟩

def storeFrame (fiber : Nat) : List (Nat × UInt8) → Code Unit
  | [] => pure ()
  | (offset, byte) :: rest => do
    perform (.storeSlice fiber offset byte)
    storeFrame fiber rest

/-- A lowered `__bpf_capsule_call`: set up the root, drive it once, read the status. -/
def callRoot (fiber : Nat) (root : RootCall) (drive : Drive) :
    Code (CapsuleStatus × List UInt8) := do
  let control := S.fiberControl fiber
  perform (.storeOutcome control .ok 0)
  storeFrame control root.frame
  store control .returnSize root.returnSize
  store control .resumeRegionId root.entryRegionId
  store control .sp root.rootFp
  store control .fp root.rootFp
  trampoline S fiber drive
  let bytes ← loadBytes control root.returnSize (S.rootFp + root.resultOffset)
  let tag ← load control .status
  let resume ← load control .resumeRegionId
  pure (if tag = .exited then .exited else if tag = .yield then .yield
    else if resume ≠ 0 then .pending else .ok, bytes)

/-- `__bpf_capsule_begin`, the body of `capsule_call`. -/
def capsuleCall (cpu : Nat) (root : RootCall) (drive : Drive) : Code Returned :=
  if S.planBroken then pure ⟨exitedWith badPlan, none⟩
  else do
    let acquired ← fiberAcquire S cpu
    match acquired with
    | none => pure ⟨exitedWith poolExhausted, none⟩
    | some fiber => do
      let (status, bytes) ← callRoot S fiber root drive
      let output := if status = .ok ∧ root.returnSize ≠ 0 then some bytes else none
      match status with
      | .ok => do
        let released ← fiberRelease S fiber
        match released with
        | true => pure ⟨⟨0, .ok, noContinuation⟩, output⟩
        | false => pure ⟨exitedWith poolCorrupt, output⟩
      | .exited => do
        let result ← finishExited S fiber
        pure ⟨result, output⟩
      | .pending | .yield => do
        let token ← makeContinuation S fiber
        pure ⟨⟨0, status, token⟩, output⟩

def entryCode : Entry → Code Returned
  | .call cpu root drive => capsuleCall S cpu root drive
  | .continue k outputSize outputAlignment drive =>
    capsuleContinue S k outputSize outputAlignment drive
  | .reset k => capsuleReset S k

def system : System Op Resp Entry Returned Shared where
  code := entryCode S
  exec := exec S
  allow := allow
  enter := enter
  leave := leave

def admitting (admits : Entry → Shared → Bool) : System Op Resp Entry Returned Shared where
  code := entryCode S
  exec := exec S
  allow := admits
  enter := enter
  leave := leave

abbrev PoolConfig := Config Op Resp Entry Returned Shared

/-- The runs of a pool whose operations all meet `C`, from a fresh load. -/
abbrev Reaches (C : Cond Op Shared) (c : PoolConfig) : Prop :=
  Steps (system S) C (System.start Shared.init) c

/-- The fiber whose record or slice entry `t` writes when it is scheduled next. -/
def nextWrite (c : PoolConfig) (t : Nat) : Option Nat :=
  (c.next? t).bind Op.writes

/-- A small loaded object with `count` one-page fibers. -/
def smallObject (tier : Tier) (count : Nat) (hpos : 1 ≤ count) (hle : count ≤ 65535) : Setup where
  tier := tier
  maxFibers := count
  config :=
    { heapBase := 4096, heapBytes := 0, stackBase := 4096, memoryEnd := 4096 + 4096 * count,
      fiberCount := count, stackBytesPerFiber := 4096, maxFibers := count,
      memoryBackend := tier.memoryBackend, directMemoryRegions := 63,
      abiMagic := BpfCapsule.abiMagic, abiVersion := BpfCapsule.abiVersion,
      memoryViewBase := 2 ^ 32 }
  rootFp := 2048
  heapArray _ := true
  hostReady := true
  maxFibers_pos := hpos
  maxFibers_le := hle

def oneFiber (tier : Tier) : Setup := smallObject tier 1 (by decide) (by decide)
def twoFibers (tier : Tier) : Setup := smallObject tier 2 (by decide) (by decide)

/-- A call from CPU `cpu` of a root that returns `size` bytes and stays pending. -/
def callOf (cpu size : Nat) : Entry := .call cpu ⟨[], size, 0x100, 2048, 16⟩ ⟨true, []⟩

/-- A continue with an output of `size` bytes whose drive makes `stores`. -/
def continueOf (fiber generation size : Nat) (stores : List GuestStore) : Entry :=
  .continue (continuationValue fiber generation) size 8 ⟨true, stores⟩

def resetOf (fiber generation : Nat) : Entry := .reset (continuationValue fiber generation)

end BpfCapsule.Pool

import Mathlib.Data.Nat.Bitwise
import Mathlib.Tactic.Common

/-!
# BpfCapsule — the object ABI shared by compiler, runtime and loader

The records and constants of `bpf_capsule_types.h` and `bpf_capsule_abi.h`, the configuration
check `__bpf_capsule_plan_broken` and the arithmetic of continuation tokens.

* `FiberControl` is the per-fiber record in `.bss.bpfctrl`; `Field` names its words so that one
  load or store of one word is one memory step.
* `Setup` is what is fixed once an object is loaded: the memory tier, the compiled fiber ceiling
  and the frozen configuration. The two `#error` checks on the ceiling are its fields.
* A continuation token packs a 16-bit fiber below a 48-bit generation.
-/

namespace BpfCapsule

/-! ## Results and errors -/

/-- `enum capsule_status`. -/
inductive CapsuleStatus where
  | ok
  | pending
  | yield
  | exited
  deriving DecidableEq, Repr

namespace CapsuleError

def poolExhausted : Int := -1
def invalidContinuation : Int := -2
def staleContinuation : Int := -3
def notPending : Int := -4
def poolCorrupt : Int := -5
def returnMismatch : Int := -6
def stackOverflow : Int := -7
def memoryFault : Int := -8
def invalidDispatch : Int := -9
def intrinsicGuard : Int := -10
def trap : Int := -14
def allocatorCorrupt : Int := -16
def badPlan : Int := -17

end CapsuleError

/-- `BPF_CAPSULE_NO_CONTINUATION`, that is `UINT64_MAX`. -/
def noContinuation : Nat := 2 ^ 64 - 1

/-- `struct capsule_result`. -/
structure CapsuleResult where
  code : Int
  status : CapsuleStatus
  continuation : Nat
  deriving DecidableEq, Repr

/-- A terminated entry: `CAPSULE_EXITED` with a code and no continuation. -/
def exitedWith (code : Int) : CapsuleResult := ⟨code, .exited, noContinuation⟩

/-! ## The outcome word

`{status, code}` is one 64-bit word of the control record: the compiler publishes both halves with
one store, the runtime reads them one at a time. -/

/-- The value of `CAPSULE_YIELD`. -/
def yieldTag : BitVec 32 := 2

/-- The value of `CAPSULE_EXITED`. -/
def exitedTag : BitVec 32 := 3

/-- `bpf::OutcomeValue`. -/
def outcomeValue (code : BitVec 32) : BitVec 64 :=
  (code.signExtend 64 <<< 32) ||| exitedTag.zeroExtend 64

def outcomeStatus (word : BitVec 64) : BitVec 32 := word.extractLsb' 0 32

def outcomeCode (word : BitVec 64) : BitVec 32 := word.extractLsb' 32 32

@[simp] theorem outcomeStatus_outcomeValue (code : BitVec 32) :
    outcomeStatus (outcomeValue code) = exitedTag := by
  apply BitVec.eq_of_getLsbD_eq
  intro i hi
  have hlow : (i < 64) = True := eq_true (by omega)
  simp [outcomeStatus, outcomeValue, hi, hlow]

@[simp] theorem outcomeCode_outcomeValue (code : BitVec 32) :
    outcomeCode (outcomeValue code) = code := by
  apply BitVec.eq_of_getLsbD_eq
  intro i hi
  have hlow : 32 + i < 64 := by omega
  have hshift : ¬ 32 + i < 32 := by omega
  simp [outcomeCode, outcomeValue, BitVec.getElem_signExtend, hi, hlow, hshift]

/-- The status an entry reports once its drive has returned: the published one, otherwise
`PENDING` or `OK` by whether a region is left to resume. -/
def observedStatus (word : BitVec 64) (idle : Bool) : CapsuleStatus :=
  if outcomeStatus word = exitedTag then .exited
  else if outcomeStatus word = yieldTag then .yield
  else if idle then .ok
  else .pending

theorem observedStatus_zero (idle : Bool) :
    observedStatus 0 idle = if idle then .ok else .pending := by
  cases idle <;> decide

/-- LLVM's `alignTo`. -/
def alignTo (value align : Nat) : Nat := (value + align - 1) / align * align

theorem le_alignTo (value : Nat) {align : Nat} (halign : 0 < align) : value ≤ alignTo value align := by
  unfold alignTo
  have hdiv := Nat.div_add_mod (value + align - 1) align
  have hmod := Nat.mod_lt (value + align - 1) halign
  rw [Nat.mul_comm] at hdiv
  omega

theorem alignTo_lt (value : Nat) {align : Nat} (halign : 0 < align) :
    alignTo value align < value + align := by
  unfold alignTo
  have hdiv := Nat.div_mul_le_self (value + align - 1) align
  omega

theorem dvd_alignTo (value align : Nat) : align ∣ alignTo value align := Nat.dvd_mul_left align _

theorem alignTo_le {value align limit : Nat} (halign : 0 < align) (hdvd : align ∣ limit)
    (hle : value ≤ limit) : alignTo value align ≤ limit := by
  have hlt := alignTo_lt value halign
  have hzero := Nat.eq_zero_of_dvd_of_lt (Nat.dvd_sub (dvd_alignTo value align) hdvd) (by omega)
  omega

@[simp] theorem alignTo_zero (align : Nat) : alignTo 0 align = 0 := by
  unfold alignTo
  rcases Nat.eq_zero_or_pos align with rfl | halign
  · rfl
  · rw [Nat.div_eq_of_lt (by omega), Nat.zero_mul]

/-- `LinkageBytes`: the saved frame pointer and the return region ID below a frame's result. -/
def linkageBytes : Nat := 16

/-! ## The fiber control record -/

/-- `struct __bpf_capsule_fiber_control`; the zero record is a free fiber. -/
structure FiberControl where
  status : CapsuleStatus := .ok
  code : Int := 0
  generation : Nat := 0
  sp : Nat := 0
  fp : Nat := 0
  resumeRegionId : Nat := 0
  returnSize : Nat := 0
  deriving DecidableEq, Repr

/-- The words of a control record that are loaded and stored one at a time. -/
inductive Field where
  | status
  | code
  | generation
  | sp
  | fp
  | resumeRegionId
  | returnSize
  deriving DecidableEq, Repr

namespace Field

abbrev Val : Field → Type
  | status => CapsuleStatus
  | code => Int
  | generation | sp | fp | resumeRegionId | returnSize => Nat

end Field

namespace FiberControl

def get (c : FiberControl) : (fld : Field) → fld.Val
  | .status => c.status
  | .code => c.code
  | .generation => c.generation
  | .sp => c.sp
  | .fp => c.fp
  | .resumeRegionId => c.resumeRegionId
  | .returnSize => c.returnSize

def set (c : FiberControl) : (fld : Field) → fld.Val → FiberControl
  | .status, v => { c with status := v }
  | .code, v => { c with code := v }
  | .generation, v => { c with generation := v }
  | .sp, v => { c with sp := v }
  | .fp, v => { c with fp := v }
  | .resumeRegionId, v => { c with resumeRegionId := v }
  | .returnSize, v => { c with returnSize := v }

@[simp] theorem set_generation (c : FiberControl) (g : Nat) :
    (c.set .generation g).generation = g := rfl

/-- Only a store to the generation word changes the generation. -/
theorem set_generation_of_ne (c : FiberControl) {fld : Field} (v : fld.Val)
    (hfld : fld ≠ .generation) : (c.set fld v).generation = c.generation := by
  cases fld with
  | generation => exact absurd rfl hfld
  | _ => rfl

end FiberControl

/-! ## The loaded object -/

/-- `BPF_CAPSULE_FEATURE_ARENA`. -/
inductive Tier where
  | fixed
  | arena
  deriving DecidableEq, Repr

/-- `enum bpf_capsule_memory_backend`. -/
def Tier.memoryBackend : Tier → Nat
  | .fixed => 0
  | .arena => 1

def abiMagic : Nat := 0x42504341
def abiVersion : Nat := 8
def memoryRegionShift : Nat := 22

/-- The words of `struct __bpf_capsule_object_config` that the guest checks. -/
structure ObjectConfig where
  heapBase : Nat
  heapBytes : Nat
  stackBase : Nat
  memoryEnd : Nat
  fiberCount : Nat
  stackBytesPerFiber : Nat
  maxFibers : Nat
  memoryBackend : Nat
  directMemoryRegions : Nat
  abiMagic : Nat
  abiVersion : Nat
  memoryViewBase : Nat

/-- A loaded object: what no entry ever changes. `rootFp` is the compiled offset of a root's frame
in its stack slice, `heapArray` says which entries of `bpf_heap_array` exist and `hostReady` is
`__bpf_capsule_host_ready`. -/
structure Setup where
  tier : Tier
  maxFibers : Nat
  config : ObjectConfig
  rootFp : Nat
  heapArray : Nat → Bool
  hostReady : Bool
  maxFibers_pos : 1 ≤ maxFibers
  maxFibers_le : maxFibers ≤ 65535

namespace Setup

/-- `__bpf_capsule_fiber_count`. -/
def fiberCount (S : Setup) : Nat :=
  if 1 ≤ S.config.fiberCount ∧ S.config.fiberCount ≤ S.maxFibers then S.config.fiberCount else 0

/-- The index of `__bpf_capsule_fiber_control(fiber)` in the control table. -/
def fiberControl (S : Setup) (fiber : Nat) : Nat := fiber % S.maxFibers

theorem fiberCount_le (S : Setup) : S.fiberCount ≤ S.maxFibers := by
  unfold fiberCount
  split
  · rename_i h; exact h.2
  · exact Nat.zero_le _

@[simp] theorem fiberControl_of_lt {S : Setup} {fiber : Nat} (h : fiber < S.fiberCount) :
    S.fiberControl fiber = fiber :=
  Nat.mod_eq_of_lt (Nat.lt_of_lt_of_le h S.fiberCount_le)

theorem lt_two_pow_of_lt {S : Setup} {fiber : Nat} (h : fiber < S.fiberCount) :
    fiber < 2 ^ 16 - 1 := by
  have := S.fiberCount_le
  have := S.maxFibers_le
  omega

/-- `__bpf_capsule_plan_broken`. The heap end is computed in 32 bits, the stack size in 64. -/
def planBroken (S : Setup) : Bool :=
  let c := S.config
  let heapEnd := (c.heapBase + c.heapBytes) % 2 ^ 32
  let stackBytes := c.stackBytesPerFiber * c.fiberCount
  let lastRegion := ((c.memoryEnd + 2 ^ 32 - 1) % 2 ^ 32) >>> memoryRegionShift
  c.fiberCount == 0 || S.maxFibers < c.fiberCount || c.maxFibers != S.maxFibers ||
    c.memoryBackend != S.tier.memoryBackend ||
    c.stackBytesPerFiber == 0 || heapEnd < c.heapBase || c.stackBase < heapEnd ||
    c.memoryEnd != c.stackBase + stackBytes || c.abiMagic != BpfCapsule.abiMagic ||
    c.abiVersion != BpfCapsule.abiVersion ||
    c.memoryViewBase == 0 || c.memoryViewBase % 2 ^ 32 != 0 ||
    match S.tier with
    | .arena => false
    | .fixed =>
      (c.directMemoryRegions ≤ lastRegion && !S.heapArray (lastRegion - c.directMemoryRegions)) ||
        !S.hostReady

end Setup

/-! ## Continuation tokens -/

def continuationFiberBits : Nat := 16

def generationLimit : Nat := 2 ^ 48

/-- `__bpf_capsule_next_generation`: masked to 48 bits, and never zero. -/
def nextGeneration (generation : Nat) : Nat :=
  let next := (generation + 1) % generationLimit
  if next = 0 then 1 else next

/-- `__bpf_capsule_continuation_value`. A generation is masked to 48 bits wherever it is made, so
the shift loses nothing of the 64-bit word. -/
def continuationValue (fiber generation : Nat) : Nat :=
  generation <<< continuationFiberBits ||| fiber

def tokenFiber (continuation : Nat) : Nat := continuation % 2 ^ continuationFiberBits

def tokenGeneration (continuation : Nat) : Nat := continuation >>> continuationFiberBits

def tokenPair (continuation : Nat) : Nat × Nat :=
  (tokenFiber continuation, tokenGeneration continuation)

theorem nextGeneration_eq {g : Nat} (h : g + 1 < generationLimit) : nextGeneration g = g + 1 := by
  simp [nextGeneration, Nat.mod_eq_of_lt h]

theorem nextGeneration_pos (g : Nat) : 0 < nextGeneration g := by
  simp only [nextGeneration]
  split <;> omega

theorem nextGeneration_ne (g : Nat) : nextGeneration g ≠ g := by
  unfold nextGeneration generationLimit
  simp only
  split <;> omega

theorem continuationValue_eq {f : Nat} (g : Nat) (hf : f < 2 ^ 16) :
    continuationValue f g = g * 2 ^ 16 + f := by
  rw [continuationValue, continuationFiberBits, ← Nat.shiftLeft_add_eq_or_of_lt hf,
    Nat.shiftLeft_eq]

/-- Packing and unpacking a token are inverse to each other for every fiber of an object. -/
@[simp] theorem tokenPair_continuationValue {f : Nat} (g : Nat) (hf : f < 2 ^ 16) :
    tokenPair (continuationValue f g) = (f, g) := by
  rw [continuationValue_eq g hf]
  simp only [tokenPair, tokenFiber, tokenGeneration, continuationFiberBits, Nat.shiftRight_eq_div_pow]
  refine Prod.ext ?_ ?_ <;> simp only <;> omega

theorem continuationValue_tokenPair (k : Nat) :
    continuationValue (tokenFiber k) (tokenGeneration k) = k := by
  have hf : tokenFiber k < 2 ^ 16 := Nat.mod_lt _ (by decide)
  rw [continuationValue_eq _ hf]
  simp only [tokenFiber, tokenGeneration, continuationFiberBits, Nat.shiftRight_eq_div_pow]
  omega

theorem tokenPair_injective : Function.Injective tokenPair := by
  intro k k' h
  obtain ⟨hf, hg⟩ := Prod.mk.inj h
  rw [← continuationValue_tokenPair k, ← continuationValue_tokenPair k', hf, hg]

/-- No fiber's token is the reserved value that means "no continuation". -/
theorem continuationValue_ne_noContinuation {f g : Nat} (hf : f < 2 ^ 16 - 1) :
    continuationValue f g ≠ noContinuation := by
  rw [continuationValue_eq g (by omega), noContinuation]
  omega

end BpfCapsule

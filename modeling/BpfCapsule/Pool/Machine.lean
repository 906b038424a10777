import BpfCapsule.Abi
import BpfCapsule.Lib.Interleave

/-!
# BpfCapsule — the shared memory of the fiber pool and its atomic operations

The runtime's entries meet in the control table, the per-fiber stack slices, the kernel maps
and nowhere else. `Shared` holds them for both memory tiers, and `Op` lists every access the
entries make: one load or store of one control word, one byte of a slice, one map helper call, one
access through a pointer that a map lookup returned. Each is one step of an interleaving.

A HASH map value is reached through a pointer into the map's element pool. Deleting a key unlinks
its element, and a later insertion of any key may take the same element, so `leaseIs` and
`leaseStore` act on an *element*, whatever key it serves by then. Which free element an insertion
takes is the kernel's choice.

Next to the memory, `Shared` keeps the history the properties are about: who owns which fiber, who
presents and who holds a claim on which token, how often each fiber's generation was bumped, and
the tokens returned and accepted so far. No operation reads it.
-/

namespace BpfCapsule.Pool

/-! ## What an entry is asked to do -/

/-- One store of generated code running on a fiber: the 64-bit outcome word `{status, code}`,
another virtual register of the control record, or a byte of the fiber's stack slice. -/
inductive GuestStore where
  | outcome (status : CapsuleStatus) (code : Int)
  | resumeRegionId (id : Nat)
  | sp (address : Nat)
  | fp (address : Nat)
  | slice (offset : Nat) (byte : UInt8)
  deriving DecidableEq, Repr

/-- One bounded drive: whether the fixed tier finds the fiber's stack region, and the stores the
generated code makes before the driver returns. -/
structure Drive where
  stackRegion : Bool
  stores : List GuestStore
  deriving DecidableEq, Repr

/-- What a `capsule_call` site stores before its drive: the root frame's bytes (linkage and
arguments), the root's return size, entry region and frame address; and where the root's result
is read afterwards. -/
structure RootCall where
  frame : List (Nat × UInt8)
  returnSize : Nat
  entryRegionId : Nat
  rootFp : Nat
  resultOffset : Nat
  deriving DecidableEq, Repr

/-- The three entry points of the native boundary. -/
inductive Entry where
  | call (cpu : Nat) (root : RootCall) (drive : Drive)
  | continue (continuation outputSize outputAlignment : Nat) (drive : Drive)
  | reset (continuation : Nat)
  deriving DecidableEq, Repr

def Entry.token? : Entry → Option Nat
  | .call .. => none
  | .continue k .. => some k
  | .reset k => some k

/-- What an entry hands back: its result record, and the bytes it wrote to its output. -/
structure Returned where
  result : CapsuleResult
  output : Option (List UInt8)
  deriving DecidableEq, Repr

/-! ## Operations -/

/-- The outcome of a `BPF_NOEXIST` insertion. -/
inductive InsertResult where
  | ok
  | eexist
  | e2big
  deriving DecidableEq, Repr

inductive Op where
  | load (fiber : Nat) (fld : Field)
  | store (fiber : Nat) (fld : Field) (v : fld.Val)
  | storeOutcome (fiber : Nat) (status : CapsuleStatus) (code : Int)
  /-- The load of `control->generation == generation` in a consume. -/
  | generationIs (fiber generation : Nat)
  /-- The load of `control->return_size != output_size`. -/
  | returnSizeIs (fiber size : Nat)
  | loadSlice (fiber offset : Nat)
  | storeSlice (fiber offset : Nat) (byte : UInt8)
  | leaseInsert (fiber generation : Nat)
  | leaseLookup (fiber : Nat)
  /-- The load of `*leased_generation == generation`. -/
  | leaseIs (elem fiber generation : Nat)
  /-- The store `*leased_generation = next`. -/
  | leaseStore (elem fiber generation : Nat)
  | leaseDelete (fiber : Nat)
  | issuedInsert (fiber : Nat)
  | freePop
  | freePush (fiber : Nat)
  | claimInsert (continuation : Nat)
  | claimDelete (continuation : Nat)

abbrev Resp : Op → Type
  | .load _ fld => fld.Val
  | .store .. | .storeOutcome .. | .storeSlice .. | .leaseStore .. => Unit
  | .generationIs .. | .returnSizeIs .. | .leaseInsert .. | .leaseIs .. | .leaseDelete ..
  | .issuedInsert .. | .freePush .. | .claimDelete .. => Bool
  | .loadSlice .. => UInt8
  | .leaseLookup _ | .freePop => Option Nat
  | .claimInsert _ => InsertResult

def Op.writes : Op → Option Nat
  | .store fiber _ _ => some fiber
  | .storeOutcome fiber _ _ => some fiber
  | .storeSlice fiber _ _ => some fiber
  | _ => none

/-! ## Shared state -/

/-- A finished entry: what was asked, whether its token was accepted, what it handed back. -/
structure Finished where
  entry : Entry
  accepted : Bool
  returned : Returned
  deriving DecidableEq, Repr

/-- The memory the entries share, and the history of what they did. -/
structure Shared where
  controls : Nat → FiberControl
  slices : Nat → Nat → UInt8
  /-- Fixed tier: the element that serves each key of `bpf_capsule_fiber_leases`. -/
  leases : Nat → Option Nat
  /-- The key an element of the lease map is linked under. -/
  elemKey : Nat → Option Nat
  elemValue : Nat → Nat
  /-- Arena tier: `bpf_capsule_issued_fibers` and the stack `bpf_capsule_free_fibers`. -/
  issued : Nat → Bool
  free : List Nat
  /-- The keys of `bpf_capsule_continuation_claims`. -/
  claims : List Nat
  own : Nat → Option Nat
  claim : Nat → Option Nat
  presented : Nat → Option Nat
  took : Nat → Bool
  bumps : Nat → Nat
  returned : List Nat
  accepted : List Nat
  log : List Finished

def Shared.init : Shared where
  controls _ := {}
  slices _ _ := 0
  leases _ := none
  elemKey _ := none
  elemValue _ := 0
  issued _ := false
  free := []
  claims := []
  own _ := none
  claim _ := none
  presented _ := none
  took _ := false
  bumps _ := 0
  returned := []
  accepted := []
  log := []

namespace Shared

open Function (update)

def setControl (s : Shared) (fiber : Nat) (c : FiberControl) : Shared :=
  { s with controls := update s.controls fiber c }

def setOwn (s : Shared) (t : Nat) (fiber : Option Nat) : Shared :=
  { s with own := update s.own t fiber }

def bump (s : Shared) (fiber : Nat) : Shared :=
  { s with bumps := update s.bumps fiber (s.bumps fiber + 1) }

/-- Entry `t` accepts the token of `fiber` at `generation`: it owns the fiber from here on. -/
def accept (s : Shared) (t fiber generation : Nat) : Shared :=
  { s with own := update s.own t (some fiber), took := update s.took t true,
           accepted := continuationValue fiber generation :: s.accepted }

end Shared

open Function (update)

/-- What one operation of entry `t` does. `choice` is the free element a lease insertion takes; no
other operation leaves anything open. -/
def exec (S : Setup) (t : Nat) : (o : Op) → Nat → Shared → Option (Resp o × Shared)
  | .load fiber fld, _, s => some ((s.controls fiber).get fld, s)
  | .store fiber fld v, _, s =>
    let s' := s.setControl fiber ((s.controls fiber).set fld v)
    -- on the arena tier the control record is where a generation is installed
    some ((), if S.tier = .arena ∧ fld = .generation then s'.bump fiber else s')
  | .storeOutcome fiber status code, _, s =>
    some ((), s.setControl fiber { s.controls fiber with status := status, code := code })
  | .generationIs fiber generation, _, s =>
    if (s.controls fiber).generation = generation then some (true, s.accept t fiber generation)
    else some (false, s)
  | .returnSizeIs fiber size, _, s => some (decide ((s.controls fiber).returnSize = size), s)
  | .loadSlice fiber offset, _, s => some (s.slices fiber offset, s)
  | .storeSlice fiber offset byte, _, s =>
    some ((), { s with slices := update s.slices fiber (update (s.slices fiber) offset byte) })
  | .leaseInsert fiber generation, choice, s =>
    match s.leases fiber, s.elemKey choice with
    | some _, _ => some (false, s)
    | none, some _ => none
    | none, none =>
      some (true, ({ s with leases := update s.leases fiber (some choice),
                            elemKey := update s.elemKey choice (some fiber),
                            elemValue := update s.elemValue choice generation }.bump fiber).setOwn
        t (some fiber))
  | .leaseLookup fiber, _, s => some (s.leases fiber, s)
  | .leaseIs elem fiber generation, _, s =>
    if s.elemValue elem = generation then some (true, s.accept t fiber generation)
    else some (false, s)
  | .leaseStore elem fiber generation, _, s =>
    some ((), { s with elemValue := update s.elemValue elem generation }.bump fiber)
  | .leaseDelete fiber, _, s =>
    match s.leases fiber with
    | none => some (false, s)
    | some elem =>
      some (true, { s with leases := update s.leases fiber none,
                           elemKey := update s.elemKey elem none }.setOwn t none)
  | .issuedInsert fiber, _, s =>
    if s.issued fiber then some (false, s)
    else some (true, { s with issued := update s.issued fiber true }.setOwn t (some fiber))
  | .freePop, _, s =>
    match s.free with
    | [] => some (none, s)
    | fiber :: rest => some (some fiber, { s with free := rest }.setOwn t (some fiber))
  | .freePush fiber, _, s =>
    if s.free.length < S.fiberCount then
      some (true, { s with free := fiber :: s.free }.setOwn t none)
    else some (false, s)
  | .claimInsert k, _, s =>
    if k ∈ s.claims then some (.eexist, s)
    else if s.claims.length < S.fiberCount then
      some (.ok, { s with claims := k :: s.claims, claim := update s.claim t (some k) })
    else some (.e2big, s)
  | .claimDelete k, _, s =>
    if k ∈ s.claims then
      some (true, { s with claims := s.claims.erase k, claim := update s.claim t none })
    else some (false, s)

def allow (e : Entry) (s : Shared) : Bool :=
  match e.token? with
  | none => true
  | some k => k ∈ s.returned

def enter (t : Nat) (e : Entry) (s : Shared) : Shared :=
  { s with presented := update s.presented t e.token?, took := update s.took t false }

def leave (t : Nat) (e : Entry) (r : Returned) (s : Shared) : Shared :=
  { s with own := update s.own t none,
           returned := if r.result.continuation = noContinuation then s.returned
             else r.result.continuation :: s.returned,
           log := ⟨e, s.took t, r⟩ :: s.log }

end BpfCapsule.Pool

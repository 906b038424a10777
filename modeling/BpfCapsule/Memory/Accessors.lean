import BpfCapsule.Abi
import BpfCapsule.Lib.Bytes
import BpfCapsule.Lib.Word

/-!
# The accessors of fixed memory

Without an arena the logical memory is cut into regions: a few direct ones, each a global with a map
of its own, and after them the values of one ARRAY map. A capsule pointer is a number whose low word
is the logical address; the high word carries the host's view base. `SplitUnalignedAccesses` cuts an
access whose alignment is below its width into aligned parts, and `RouteAccessesThroughHeap` turns
each access into a call of the accessor of its width: the region comes from the address by a shift,
the offset in the region by a mask.

`CreateHeapAccessor` and `CreateHeapAtomicAccessor` differ in the access at the end only, so the way
to it is one definition, `Config.route`. Programs with unaligned atomic accesses, with atomics
narrower than 32 bits, or with any atomics on targets without them are refused by the compiler.
-/

namespace BpfCapsule.FixedMemory

open Bytes

def span : Nat := 2 ^ memoryRegionShift

/-- `MaxHeapRegions`: the regions of the 32-bit address domain. -/
def maxHeapRegions : Nat := 2 ^ 32 >>> memoryRegionShift

/-- The compiler chooses the direct regions and the host the ARRAY's size; both keep the layout
within the address domain. -/
structure Config where
  /-- `Regions_.size()` -/
  directRegions : Nat
  /-- `max_entries` of the ARRAY -/
  arrayEntries : Nat
  nonempty : 0 < directRegions
  addressable : directRegions + arrayEntries ≤ maxHeapRegions

/-- What a region's address is: a global, or a value `bpf_map_lookup_elem` returned. -/
inductive Base where
  | region (index : Nat)
  | value (key : Nat)
deriving DecidableEq, Repr

abbrev Storage := Base → Nat → UInt8

namespace Config

variable (c : Config)

def size : Nat := (c.directRegions + c.arrayEntries) * span

def index (addr : Nat) : Nat := (addr % 2 ^ 32) >>> memoryRegionShift

/-- `CreateHeapArrayLookup`. -/
def arrayLookup (key : Nat) : Option Base := if key < c.arrayEntries then some (.value key) else none

/-- The way of `CreateHeapArrayAccessor` to its access. -/
def arrayRoute (addr : Nat) : Option Base :=
  if c.directRegions ≤ index addr ∧ index addr < maxHeapRegions then
    c.arrayLookup (Word.sub 32 (index addr) c.directRegions)
  else none

/-- The way of `CreateHeapAccessor` to its access; `none` is the block `invalid`. -/
def route (addr : Nat) : Option Base :=
  if index addr = 0 then some (.region 0)
  -- the cases of the switch
  else if index addr < c.directRegions then some (.region (index addr))
  else if c.directRegions < maxHeapRegions then c.arrayRoute addr
  else none

end Config

/-- The offset in its region at which an access of `w` bytes is made. -/
def low (w addr : Nat) : Nat := addr &&& (span - w)

inductive AtomicKind where
  | add
  | and
  | or
  | xor
  | exchange
deriving DecidableEq, Repr

/-- What `atomicrmw` stores. -/
def AtomicKind.apply (kind : AtomicKind) (w old operand : Nat) : Nat :=
  match kind with
  | .add => (old + operand) % 256 ^ w
  | .and => old &&& operand
  | .or => old ||| operand
  | .xor => old ^^^ operand
  | .exchange => operand

section

variable (o : Order) (c : Config)

def heapLoad (st : Storage) (w addr : Nat) : Nat :=
  match c.route addr with
  | some base => load o (st base) (low w addr) w
  | none => 0

def put (st : Storage) (base : Base) (w addr value : Nat) : Storage :=
  Function.update st base (store o (st base) (low w addr) w value)

def heapStore (st : Storage) (w addr value : Nat) : Storage :=
  match c.route addr with
  | some base => put o st base w addr (value % 256 ^ w)
  | none => st

def heapAtomic (kind : AtomicKind) (st : Storage) (w addr operand : Nat) : Storage × Nat :=
  match c.route addr with
  | some base =>
    let old := load o (st base) (low w addr) w
    (put o st base w addr (kind.apply w old (operand % 256 ^ w)), old)
  | none => (st, 0)

def heapCompareExchange (st : Storage) (w addr expected replacement : Nat) : Storage × Nat :=
  match c.route addr with
  | some base =>
    let old := load o (st base) (low w addr) w
    (if old = expected % 256 ^ w then put o st base w addr (replacement % 256 ^ w) else st, old)
  | none => (st, 0)

end

/-! ## Accesses of a program -/

inductive Width where
  | i8
  | i16
  | i32
  | i64
deriving DecidableEq, Repr

def Width.bytes : Width → Nat
  | .i8 => 1
  | .i16 => 2
  | .i32 => 4
  | .i64 => 8

/-- The instructions, with the alignment `2 ^ align` their loads and stores claim. Atomic
instructions are naturally aligned. -/
inductive Action where
  | load (align : Nat)
  | store (align value : Nat)
  | atomic (kind : AtomicKind) (operand : Nat)
  | compareExchange (expected replacement : Nat)
deriving DecidableEq, Repr

structure Access where
  addr : Nat
  width : Width
  action : Action
deriving DecidableEq, Repr

/-- The address of the part at `q`. -/
def partAddr (addr q : Nat) : Nat := (addr + q) % 2 ^ 64

def execute (o : Order) (c : Config) (st : Storage) (x : Access) : Storage × List Nat :=
  let w := x.width.bytes
  match x.action with
  | .load align =>
    (st, [if w ≤ 2 ^ align then heapLoad o c st w x.addr
      else joinParts o w (2 ^ align) fun q => heapLoad o c st (2 ^ align) (partAddr x.addr q)])
  | .store align value =>
    (if w ≤ 2 ^ align then heapStore o c st w x.addr value
      else (parts w (2 ^ align)).foldl (fun st q => heapStore o c st (2 ^ align)
        (partAddr x.addr q) (cutPart o w (2 ^ align) value q)) st, [])
  | .atomic kind operand =>
    let result := heapAtomic o c kind st w x.addr operand
    (result.1, [result.2])
  | .compareExchange expected replacement =>
    let result := heapCompareExchange o c st w x.addr expected replacement
    (result.1, [result.2, if result.2 = expected % 256 ^ w then 1 else 0])

def executeAll (o : Order) (c : Config) (st : Storage) : List Access → Storage × List Nat
  | [] => (st, [])
  | x :: xs =>
    let first := execute o c st x
    let rest := executeAll o c first.1 xs
    (rest.1, first.2 ++ rest.2)

end BpfCapsule.FixedMemory

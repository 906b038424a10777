import BpfCapsule.Plan.Layout
import BpfCapsule.Lib.Check
import BpfCapsule.Lib.Word

/-!
# BpfCapsule — the layout the compiler bakes into an object

The memory pass gives every global an offset in the flat 4 GiB domain, puts the heap after them and
the bank of fiber stacks after the heap, and writes the result into the object's configuration
record and into the size of the map that backs it.

* fixed tier: `directRegions` maps of one region each, the rest of the memory in one ARRAY map. The
  stack bank starts at a region boundary past the direct regions.
* arena tier: one arena map that holds the initialized image, the flat memory and the pages by which
  the flat memory's base is aligned. The stack bank starts at a slice and page boundary.

A check that fails ends the compilation with its message. What `EmitConstant` cannot encode is also
rejected by the source and not modelled: it depends on the initializers' contents only.
-/

namespace BpfCapsule

namespace Compiler

open Check

/-! ## The linked module -/

/-- A global the pass may move. `align` is the explicit alignment or one, `abiAlign` its type's. -/
structure Global where
  name : String
  align : Nat
  abiAlign : Nat
  size : Nat
  initialized : Bool
  /-- Declared `__arena` in the source. -/
  inArena : Bool := false

/-- What the layout reads of a linked module and of the command line. -/
structure LinkedModule where
  tier : Tier
  /-- The runtime's initializer of `bpf_capsule_config`. -/
  declared : ObjectRecord
  /-- Elements of `bpf_capsule_fibers`: the runtime's `BPF_CAPSULE_MAX_FIBERS`. -/
  fiberControls : Nat
  /-- `--bpf-fiber-stack-size`. -/
  fiberStackBytes : Nat
  globals : List Global
  /-- Globals in `.maps` or a `.struct_ops` section. -/
  mapGlobals : Nat
  /-- Data sections besides `.rodata` and the fixup section. -/
  dataSections : Nat
  /-- `--direct-map-regions`, if given. -/
  directMapRegions : Option Nat

/-- What the compiled object carries of its layout: the record, and `max_entries` of the map that
backs the memory. -/
structure Object where
  tier : Tier
  maxFibers : Nat
  record : ObjectRecord
  backendEntries : Nat
  deriving DecidableEq

/-! ## Stackify's part: the bank of fiber stacks -/

def maxFiberStackBytes : Nat := 2 * 1024 * 1024

/-- LLVM's `isPowerOf2_64`. -/
def isPowerOf2 (value : Nat) : Bool := value ≠ 0 ∧ value &&& (value - 1) = 0

/-- `ConfigureStackGeometry`: the slice of one fiber. -/
def configureStackGeometry (m : LinkedModule) : Except String Nat := do
  rejectIf (m.fiberStackBytes = 0 ∨ isPowerOf2 m.fiberStackBytes = false ∨
      maxFiberStackBytes < m.fiberStackBytes)
    "stackify: fiber stack size must be a power of two no larger than 2 MiB"
  pure m.fiberStackBytes

/-- `ConfigureFibers`: the number of slices in the bank. -/
def configureFibers (m : LinkedModule) : Except String Nat := do
  rejectIf (m.fiberControls = 0 ∨ maxFibersLimit < m.fiberControls)
    "stackify: bpf_capsule_fibers count is outside the shared Capsule ABI"
  pure m.fiberControls

/-- `ConfigureSoftwareStack` of a bank of `softwareStackBytes`. -/
def configureSoftwareStack (softwareStackBytes fiberStackSize maximumSliceBytes : Nat)
    (pass : String) : Except String Unit :=
  rejectIf (fiberStackSize = 0 ∨ isPowerOf2 fiberStackSize = false ∨
      maximumSliceBytes < fiberStackSize ∨ softwareStackBytes % fiberStackSize ≠ 0)
    (pass ++ ": malformed unified fiber stack bank")

/-! ## Placing globals -/

def alignWithin (value alignment limit : Nat) : Option Nat :=
  if isPowerOf2 alignment = false ∨ limit < value then none
  else
    let remainder := value &&& (alignment - 1)
    let padding := if remainder ≠ 0 then alignment - remainder else 0
    if limit - value < padding then none else some (value + padding)

/-- `alignWithin`, or the message. -/
def alignOr (message : String) (value alignment : Nat) : Except String Nat :=
  match alignWithin value alignment addressLimit with
  | some result => pure result
  | none => throw message

/-- `DirectRegionBudget`: Linux 5.15 allows 64 maps, and the fixup section and `.rodata` are always
counted. -/
def directRegionBudget (m : LinkedModule) : Except String Nat := do
  let maps := m.mapGlobals + (m.dataSections + 2)
  rejectIf (64 ≤ maps) "bpf-memory: no map slots remain for direct memory regions"
  let available := 64 - maps
  match m.directMapRegions with
  | none => pure (1 <<< available.log2)
  | some regions =>
    rejectIf (regions = 0 ∨ available < regions)
      ("bpf-memory: --direct-map-regions must be in [1, " ++ toString available ++
        "] for this object")
    pure regions

/-- The start of a global at `cursor` on the fixed tier: the next region, if the global fits one
region and would straddle two. -/
def withinRegion (cursor : Nat) (g : Global) : Except String Nat :=
  let message := "bpf-memory: global " ++ g.name ++ " cannot fit in a fixed-memory region"
  if g.size ≠ 0 ∧ g.size ≤ memoryRegionSize ∧
      cursor >>> memoryRegionShift ≠ (cursor + g.size - 1) >>> memoryRegionShift then do
    let next ← alignOr message cursor memoryRegionSize
    rejectIf (addressLimit - next < g.size) message
    pure next
  else pure cursor

/-- One global of the fixed tier. The state is the cursor and the end of the initialized globals. -/
def placeFixed (state : Nat × Nat) (g : Global) : Except String (Nat × Nat) := do
  let cursor ← alignOr ("bpf-memory: cannot align global " ++ g.name ++
    " within the Capsule address domain") state.1 (max g.align 8)
  rejectIf (addressLimit - cursor < g.size)
    ("bpf-memory: global " ++ g.name ++ " exceeds the Capsule address domain")
  let cursor ← withinRegion cursor g
  pure (cursor + g.size, if g.initialized then max state.2 (cursor + g.size) else state.2)

def placeSparse (virtualSize : Nat) (g : Global) : Except String Nat := do
  let start ← alignOr ("bpf-arena: cannot align sparse global " ++ g.name ++
    " within the Capsule address domain") virtualSize (max g.align g.abiAlign)
  rejectIf (addressLimit - start < g.size)
    ("bpf-arena: sparse global " ++ g.name ++ " exceeds the Capsule address domain")
  pure (start + g.size)

def maxArenaBytes : Nat := maxArenaPages * arenaPageSize

/-- One initialized global of the arena tier: the backend orders the image, so every global is
charged its worst padding. -/
def countInitialized (initializedBytes : Nat) (g : Global) : Except String Nat := do
  let align := max g.align g.abiAlign
  let message := "bpf-arena: initialized image exceeds the 32-bit arena capacity"
  rejectIf (maxArenaBytes - initializedBytes < align - 1) message
  let initializedBytes := initializedBytes + (align - 1)
  rejectIf (maxArenaBytes - initializedBytes < g.size) message
  pure (initializedBytes + g.size)

/-! ## The record -/

/-- The layout parameters the two tiers pass to `ConfigureObjectLayout`. -/
structure LayoutRequest where
  heapBase : Nat
  stackBytesPerFiber : Nat
  maxFibers : Nat
  arenaImagePages : Nat
  memoryBackend : Nat
  directRegions : Nat
  stackFloor : Nat
  stackAlignment : Nat

/-- `ConfigureObjectLayout`: the emitted record and its memory end. The fields are 32 bits wide; the
64-bit sums stay below `2 ^ 34` by the checks before them. -/
def configureObjectLayout (declared : ObjectRecord) (r : LayoutRequest) :
    Except String (ObjectRecord × Nat) := do
  let heapBytes := declared.heapBytes
  let fiberCount := declared.fiberCount
  rejectIf (declared.stackBytesPerFiber ≠ 0 ∧ declared.stackBytesPerFiber ≠ r.stackBytesPerFiber ∨
      declared.maxFibers ≠ r.maxFibers ∨ declared.abiMagic ≠ abiMagic ∨
      declared.abiVersion ≠ abiVersion)
    "bpf-memory: linked runtime fiber ABI disagrees with the compiler stack geometry"
  rejectIf (declared.heapBase ≠ 0 ∨ declared.stackBase ≠ 0 ∨ declared.memoryEnd ≠ 0 ∨
      declared.arenaImagePages ≠ 0 ∨ declared.directMemoryRegions ≠ 0)
    "bpf-memory: linked runtime object layout is not in its pre-compiler state"
  rejectIf (declared.memoryBackend ≠ r.memoryBackend)
    "bpf-memory: linked runtime memory backend disagrees with the selected compiler target"
  rejectIf (fiberCount = 0 ∨ r.maxFibers < fiberCount ∨ r.stackBytesPerFiber = 0 ∨
      addressLimit < r.heapBase ∨ addressLimit - r.heapBase < heapBytes)
    "bpf-memory: invalid default heap or fiber configuration"
  let heapEnd := r.heapBase + heapBytes
  rejectIf (isPowerOf2 r.stackAlignment = false) "bpf-memory: invalid software-stack alignment"
  let stackBase := alignTo (max heapEnd r.stackFloor) r.stackAlignment
  rejectIf (addressLimit < stackBase ∨
      (addressLimit - stackBase) / r.stackBytesPerFiber < fiberCount)
    "bpf-memory: default memory configuration exceeds the 32-bit address domain"
  let memoryEnd := stackBase + fiberCount * r.stackBytesPerFiber
  rejectIf (2 ^ 32 - 1 < memoryEnd)
    "bpf-memory: default memory configuration exceeds the 32-bit offset domain"
  pure
    ({ heapBase := r.heapBase % 2 ^ 32
       heapBytes := heapBytes % 2 ^ 32
       stackBase := stackBase % 2 ^ 32
       memoryEnd := memoryEnd % 2 ^ 32
       fiberCount := fiberCount % 2 ^ 32
       stackBytesPerFiber := r.stackBytesPerFiber % 2 ^ 32
       maxFibers := r.maxFibers % 2 ^ 32
       arenaImagePages := r.arenaImagePages % 2 ^ 32
       memoryBackend := r.memoryBackend % 2 ^ 32
       directMemoryRegions := r.directRegions % 2 ^ 32
       abiMagic := abiMagic
       abiVersion := abiVersion
       memoryViewBase := 0 }, memoryEnd)

/-- The layout of `runFixedMemory`. -/
def runFixedMemory (m : LinkedModule) (fiberStackSize fiberCount : Nat) : Except String Object := do
  let directRegions ← directRegionBudget m
  let softwareStackBytes := fiberStackSize * fiberCount
  configureSoftwareStack softwareStackBytes fiberStackSize memoryRegionSize "bpf-memory"
  let movable := m.globals.filter fun g => !g.inArena
  -- initialized data first, so that the image stays small
  let ordered := movable.filter (·.initialized) ++ movable.filter fun g => !g.initialized
  let (cursor, initializedEnd) ← ordered.foldlM placeFixed (arenaPageSize, 0)
  let heapBase ← alignOr "bpf-memory: program storage exceeds the Capsule address domain" cursor 16
  rejectIf (directRegions * memoryRegionSize < initializedEnd)
    ("bpf-memory: initialized image exceeds the selected " ++ toString directRegions ++
      "-region direct-map budget; reduce initialized data")
  let (record, defaultEnd) ← configureObjectLayout m.declared
    { heapBase
      stackBytesPerFiber := fiberStackSize
      maxFibers := softwareStackBytes / fiberStackSize
      arenaImagePages := 0
      memoryBackend := Tier.fixed.memoryBackend
      directRegions
      stackFloor := directRegions * memoryRegionSize
      stackAlignment := memoryRegionSize }
  let defaultRegions := (defaultEnd + memoryRegionSize - 1) / memoryRegionSize
  let arrayRegions := Word.sub 32 defaultRegions directRegions
  rejectIf (arrayRegions = 0) "bpf-memory: configured software stack has no ARRAY backing"
  pure ⟨.fixed, m.fiberControls, record, arrayRegions⟩

/-- The layout of `run` on the arena tier. -/
def runArena (m : LinkedModule) (fiberStackSize fiberCount : Nat) : Except String Object := do
  rejectIf (m.directMapRegions ≠ none) "bpf-memory: --direct-map-regions requires fixed memory"
  let softwareStackBytes := fiberStackSize * fiberCount
  let ordered := m.globals.filter (·.inArena) ++ m.globals.filter fun g => !g.inArena
  let virtualSize ← (ordered.filter fun g => !g.initialized).foldlM placeSparse arenaPageSize
  let heapBase ← alignOr "bpf-arena: sparse program storage exceeds the Capsule address domain"
    virtualSize 16
  configureSoftwareStack softwareStackBytes fiberStackSize memoryRegionSize "bpf-arena"
  let initializedBytes ← (ordered.filter (·.initialized)).foldlM countInitialized 0
  let initializedPages := (initializedBytes + arenaPageSize - 1) >>> arenaPageShift
  let (record, defaultEnd) ← configureObjectLayout m.declared
    { heapBase
      stackBytesPerFiber := fiberStackSize
      maxFibers := softwareStackBytes / fiberStackSize
      arenaImagePages := initializedPages
      memoryBackend := Tier.arena.memoryBackend
      directRegions := 0
      stackFloor := 0
      stackAlignment := max arenaPageSize fiberStackSize }
  let virtualPages := (defaultEnd + arenaPageSize - 1) >>> arenaPageShift
  let pages := virtualPages + initializedPages + sliceSlackPages fiberStackSize
  rejectIf (maxArenaPages < pages)
    ("bpf-arena: default memory needs " ++ toString pages ++ " pages (32-bit arena limit " ++
      toString maxArenaPages ++ ")")
  pure ⟨.arena, m.fiberControls, record, max 1 pages⟩

def compile (m : LinkedModule) : Except String Object := do
  let fiberStackSize ← configureStackGeometry m
  let fiberCount ← configureFibers m
  match m.tier with
  | .fixed => runFixedMemory m fiberStackSize fiberCount
  | .arena => runArena m fiberStackSize fiberCount

/-! ## What an accepted layout is -/

variable {m : LinkedModule} {o : Object}

theorem exists_two_pow_of_isPowerOf2 {value : Nat} (h : isPowerOf2 value = true) :
    ∃ k, value = 2 ^ k := by
  have hbits : value ≠ 0 ∧ value &&& (value - 1) = 0 := of_decide_eq_true h
  exact Word.exists_two_pow_of_and_pred hbits.1 hbits.2

theorem le_of_alignOr {message : String} {value alignment result : Nat}
    (h : alignOr message value alignment = .ok result) : value ≤ result := by
  unfold alignOr at h
  split at h
  · rename_i aligned haligned
    have hres : aligned = result := Except.ok.inj h
    unfold alignWithin at haligned
    grind
  · exact (nomatch h)

variable {g : Global}

theorem le_of_withinRegion {cursor start : Nat}
    (h : withinRegion cursor g = .ok start) : cursor ≤ start := by
  unfold withinRegion at h
  split at h
  · obtain ⟨next, hnext, h⟩ := bind_eq_ok.mp h
    obtain ⟨-, h⟩ := rejectIf_bind_eq_ok.mp h
    have heq : next = start := Except.ok.inj h
    exact heq ▸ le_of_alignOr hnext
  · exact Nat.le_of_eq (Except.ok.inj h)

theorem le_of_placeFixed {state state' : Nat × Nat}
    (h : placeFixed state g = .ok state') : state.1 ≤ state'.1 := by
  obtain ⟨start, halign, h⟩ := bind_eq_ok.mp h
  obtain ⟨-, h⟩ := rejectIf_bind_eq_ok.mp h
  obtain ⟨cursor, hcursor, h⟩ := bind_eq_ok.mp h
  have hstart := le_of_alignOr halign
  have hregion := le_of_withinRegion hcursor
  have hend : cursor + g.size = state'.1 := congrArg Prod.fst (Except.ok.inj h)
  omega

theorem le_of_placeSparse {virtualSize virtualSize' : Nat}
    (h : placeSparse virtualSize g = .ok virtualSize') : virtualSize ≤ virtualSize' := by
  obtain ⟨start, halign, h⟩ := bind_eq_ok.mp h
  obtain ⟨-, h⟩ := rejectIf_bind_eq_ok.mp h
  have hstart := le_of_alignOr halign
  have hend : start + g.size = virtualSize' := Except.ok.inj h
  omega

theorem countInitialized_le {bytes bytes' : Nat}
    (h : countInitialized bytes g = .ok bytes') (hb : bytes ≤ maxArenaBytes) :
    bytes' ≤ maxArenaBytes := by
  obtain ⟨hpad, h⟩ := rejectIf_bind_eq_ok.mp h
  obtain ⟨hsize, h⟩ := rejectIf_bind_eq_ok.mp h
  have hend : bytes + (max g.align g.abiAlign - 1) + g.size = bytes' := Except.ok.inj h
  omega

/-- The budget leaves at least one direct region and never takes all 64 map slots. -/
theorem directRegionBudget_bounds {regions : Nat} (h : directRegionBudget m = .ok regions) :
    1 ≤ regions ∧ regions ≤ maxDirectMemoryRegions := by
  obtain ⟨hmaps, h⟩ := rejectIf_bind_eq_ok.mp h
  show 1 ≤ regions ∧ regions ≤ 63
  split at h
  · have heq : 1 <<< (64 - (m.mapGlobals + (m.dataSections + 2))).log2 = regions := Except.ok.inj h
    have hlog := Nat.log2_self_le (n := 64 - (m.mapGlobals + (m.dataSections + 2))) (by omega)
    have hpos := Nat.two_pow_pos (64 - (m.mapGlobals + (m.dataSections + 2))).log2
    omega
  · obtain ⟨hrange, h⟩ := rejectIf_bind_eq_ok.mp h
    have := Except.ok.inj h
    omega

theorem configureStackGeometry_ok {slice : Nat} (h : configureStackGeometry m = .ok slice) :
    ∃ k, slice = 2 ^ k ∧ k < memoryRegionShift := by
  obtain ⟨hcheck, h⟩ := rejectIf_bind_eq_ok.mp h
  have heq : m.fiberStackBytes = slice := Except.ok.inj h
  have hpow : isPowerOf2 m.fiberStackBytes = true := by
    by_contra hne
    exact hcheck (.inr (.inl (Bool.not_eq_true _ ▸ hne)))
  obtain ⟨k, hk⟩ := exists_two_pow_of_isPowerOf2 hpow
  refine ⟨k, heq ▸ hk, ?_⟩
  -- 2 MiB is the largest power of two below a region
  have hle : 2 ^ k ≤ 2 ^ 21 := by
    have : m.fiberStackBytes ≤ 2 * 1024 * 1024 := by
      by_contra hlt
      exact hcheck (.inr (.inr (Nat.lt_of_not_le hlt)))
    omega
  have := (Nat.pow_le_pow_iff_right (by omega)).mp hle
  show k < 22
  omega

theorem configureFibers_ok {fibers : Nat} (h : configureFibers m = .ok fibers) :
    fibers = m.fiberControls ∧ 0 < fibers ∧ fibers ≤ maxFibersLimit := by
  obtain ⟨hcheck, h⟩ := rejectIf_bind_eq_ok.mp h
  have heq : m.fiberControls = fibers := Except.ok.inj h
  omega

/-- The request of a tier, in terms of the geometry it describes. -/
structure LayoutRequest.For (r : LayoutRequest) (G : Geometry) : Prop where
  heapBase : r.heapBase = G.heapBase
  slice : r.stackBytesPerFiber = G.slice
  backend : r.memoryBackend = G.tier.memoryBackend
  direct : r.directRegions = G.directRegions
  image : r.arenaImagePages = G.imagePages
  floor : r.stackFloor = G.stackFloor
  alignment : r.stackAlignment = 2 ^ G.alignLog
  maxFibers_pos : 0 < r.maxFibers
  maxFibers_le : r.maxFibers ≤ maxFibersLimit

theorem heapBase_lt_of_configureObjectLayout {declared : ObjectRecord} {r : LayoutRequest}
    {result : ObjectRecord × Nat} (h : configureObjectLayout declared r = .ok result) :
    r.heapBase < addressLimit := by
  simp only [configureObjectLayout, rejectIf_bind_eq_ok] at h
  obtain ⟨-, -, -, -, halign, -, hend, -⟩ := h
  obtain ⟨k, hk⟩ := exists_two_pow_of_isPowerOf2 (Bool.not_eq_false _ ▸ halign)
  have hle := le_alignTo (max (r.heapBase + declared.heapBytes) r.stackFloor)
    (show 0 < r.stackAlignment by rw [hk]; exact Nat.two_pow_pos k)
  show r.heapBase < 2 ^ 32
  omega

/-- An accepted layout is the geometry's, and truncating a field to 32 bits loses nothing. The
arena's page limit is checked by the caller. -/
theorem configureObjectLayout_ok {declared record : ObjectRecord} {r : LayoutRequest} {G : Geometry}
    {memoryEnd : Nat} (hr : r.For G)
    (h : configureObjectLayout declared r = .ok (record, memoryEnd)) :
    record.maxFibers = r.maxFibers ∧ record.memoryViewBase = 0 ∧
      memoryEnd = G.memoryEnd record.heapBytes record.fiberCount ∧
      ((G.tier = .arena → G.entries record.heapBytes record.fiberCount ≤ maxArenaPages) →
        G.LaidOut record) := by
  simp only [configureObjectLayout, rejectIf_bind_eq_ok] at h
  obtain ⟨-, -, -, hdefault, -, -, hend, h⟩ := h
  obtain ⟨hrecord, hmemory⟩ := Prod.mk.inj (Except.ok.inj h)
  have hpage : 2 ^ 12 ≤ G.heapBase := G.page_le_heapBase
  have hbase : G.heapBase < 2 ^ 32 := G.heapBase_lt
  have hslice : G.slice ≤ 2 ^ 22 := G.slice_le
  have hmax : r.maxFibers ≤ 65535 := hr.maxFibers_le
  have hheap : declared.heapBytes < 2 ^ 32 := by
    have hlimit : addressLimit = 2 ^ 32 := rfl
    have := hr.heapBase
    omega
  have hstack : alignTo (max (r.heapBase + declared.heapBytes) r.stackFloor) r.stackAlignment =
      G.stackBase declared.heapBytes := by
    rw [hr.heapBase, hr.floor, hr.alignment]
    rfl
  have hmemoryEnd : memoryEnd = G.memoryEnd declared.heapBytes declared.fiberCount := by
    rw [← hmemory, hstack, hr.slice, Nat.mul_comm]
    rfl
  have hlt : memoryEnd < 2 ^ 32 := by omega
  have hstack_lt : G.stackBase declared.heapBytes < 2 ^ 32 := by
    omega
  have hdirect : G.directRegions < 2 ^ 32 := by
    cases htier : G.tier with
    | fixed =>
      have : G.directRegions ≤ 63 := (G.direct_fixed htier).2
      omega
    | arena =>
      rw [G.direct_arena htier]
      omega
  have hbackend : G.tier.memoryBackend < 2 ^ 32 := by cases G.tier <;> decide
  -- every field fits its 32 bits
  have hfiber : declared.fiberCount < 2 ^ 32 := by omega
  have himage := G.imagePages_lt
  rw [hmemory, hstack, Nat.mod_eq_of_lt hlt, Nat.mod_eq_of_lt hstack_lt, Nat.mod_eq_of_lt hheap,
    Nat.mod_eq_of_lt hfiber, hr.slice, hr.heapBase, hr.image, hr.backend, hr.direct,
    Nat.mod_eq_of_lt hbase, Nat.mod_eq_of_lt himage, Nat.mod_eq_of_lt hbackend,
    Nat.mod_eq_of_lt hdirect, Nat.mod_eq_of_lt (show G.slice < 2 ^ 32 by omega),
    Nat.mod_eq_of_lt (show r.maxFibers < 2 ^ 32 by omega)] at hrecord
  subst hrecord
  have hpos := hr.maxFibers_pos
  refine ⟨rfl, rfl, hmemoryEnd, fun hpages => ?_⟩
  exact ⟨⟨rfl, rfl, rfl, rfl, rfl, rfl, rfl, hpos, hmax⟩, by show 0 < declared.fiberCount; omega,
    by show declared.fiberCount ≤ r.maxFibers; omega, rfl, hmemoryEnd, ⟨hmemoryEnd ▸ hlt, hpages⟩⟩

/-- The object's record is the layout of its geometry, and so is the size of its backing map. -/
structure Object.Laid (o : Object) (G : Geometry) : Prop where
  tier : o.tier = G.tier
  record : G.LaidOut o.record
  maxFibers : o.record.maxFibers = o.maxFibers
  entries : o.backendEntries = G.entries o.record.heapBytes o.record.fiberCount
  unset : o.record.memoryViewBase = 0

variable {k fibers : Nat} (hk : k < memoryRegionShift) (hfibers : fibers = m.fiberControls)
  (hpos : 0 < fibers) (hmax : fibers ≤ maxFibersLimit)

include hk hfibers hpos hmax

theorem runFixedMemory_ok (h : runFixedMemory m (2 ^ k) fibers = .ok o) :
    ∃ G : Geometry, G.tier = .fixed ∧ o.Laid G := by
  simp only [runFixedMemory, bind_eq_ok, rejectIf_eq_ok] at h
  obtain ⟨regions, hregions, -, -, ⟨cursor, initializedEnd⟩, hplace, heapBase, hheap, -, -,
    ⟨record, defaultEnd⟩, hlayout, -, -, h⟩ := h
  have hpage : arenaPageSize ≤ cursor :=
    foldlM_inv (fun state => arenaPageSize ≤ state.1)
      (fun _ _ _ hstep hle => Nat.le_trans hle (le_of_placeFixed hstep)) _ hplace (Nat.le_refl _)
  have hbase := le_of_alignOr hheap
  have hlt := heapBase_lt_of_configureObjectLayout hlayout
  have hdiv : 2 ^ k * fibers / 2 ^ k = fibers := Nat.mul_div_cancel_left _ (Nat.two_pow_pos k)
  let G : Geometry :=
    { tier := .fixed, heapBase, sliceLog := k, directRegions := regions, imagePages := 0
      sliceLog_le := Nat.le_of_lt hk
      page_le_heapBase := Nat.le_trans hpage hbase
      heapBase_lt := hlt
      direct_fixed := fun _ => directRegionBudget_bounds hregions
      direct_arena := fun htier => nomatch htier
      imagePages_lt := by decide }
  rw [hdiv] at hlayout
  obtain ⟨hmaxFibers, hview, hend, hlaid⟩ := configureObjectLayout_ok (G := G)
    ⟨rfl, rfl, rfl, rfl, rfl, rfl, rfl, hpos, hmax⟩ hlayout
  have hlaid : G.LaidOut record := hlaid fun htier => nomatch htier
  have ho : Object.mk .fixed m.fiberControls record
      (Word.sub 32 ((defaultEnd + memoryRegionSize - 1) / memoryRegionSize) regions) = o :=
    Except.ok.inj h
  subst ho
  refine ⟨G, rfl, rfl, hlaid, hfibers ▸ hmaxFibers, ?_, hview⟩
  -- the bank lies past the direct regions, so the difference does not wrap
  have hsum : G.directRegions + G.entries record.heapBytes record.fiberCount =
      (G.memoryEnd record.heapBytes record.fiberCount + memoryRegionSize - 1) / memoryRegionSize :=
    Geometry.direct_add_entries rfl hlaid.fiberCount_pos
  have hlimit : defaultEnd < 2 ^ 32 := hend ▸ hlaid.fits.memoryEnd_lt
  rw [← hend] at hsum
  rw [← hsum, Word.sub_eq (Nat.le_add_right _ _)]
  · exact Nat.add_sub_cancel_left _ _
  · rw [hsum]
    simp only [memoryRegionSize, memoryRegionShift]
    omega

theorem runArena_ok (h : runArena m (2 ^ k) fibers = .ok o) :
    ∃ G : Geometry, G.tier = .arena ∧ o.Laid G := by
  simp only [runArena, bind_eq_ok, rejectIf_eq_ok] at h
  obtain ⟨-, -, virtualSize, hplace, heapBase, hheap, -, -, bytes, hbytes, ⟨record, defaultEnd⟩,
    hlayout, -, hpages, h⟩ := h
  have hpage : arenaPageSize ≤ virtualSize :=
    foldlM_inv (fun size => arenaPageSize ≤ size)
      (fun _ _ _ hstep hle => Nat.le_trans hle (le_of_placeSparse hstep)) _ hplace (Nat.le_refl _)
  have himage : bytes ≤ maxArenaBytes :=
    foldlM_inv (fun bytes => bytes ≤ maxArenaBytes) (fun _ _ _ hstep => countInitialized_le hstep) _
      hbytes (Nat.zero_le _)
  have hbase := le_of_alignOr hheap
  have hlt := heapBase_lt_of_configureObjectLayout hlayout
  have hdiv : 2 ^ k * fibers / 2 ^ k = fibers := Nat.mul_div_cancel_left _ (Nat.two_pow_pos k)
  let G : Geometry :=
    { tier := .arena, heapBase, sliceLog := k, directRegions := 0
      imagePages := (bytes + arenaPageSize - 1) >>> arenaPageShift
      sliceLog_le := Nat.le_of_lt hk
      page_le_heapBase := Nat.le_trans hpage hbase
      heapBase_lt := hlt
      direct_fixed := fun htier => nomatch htier
      direct_arena := fun _ => rfl
      imagePages_lt := by
        simp only [Nat.shiftRight_eq_div_pow, arenaPageSize, arenaPageShift]
        unfold maxArenaBytes maxArenaPages arenaPageSize arenaPageShift at himage
        omega }
  rw [hdiv] at hlayout
  have halign : max arenaPageSize (2 ^ k) = 2 ^ G.alignLog := by
    exact ((pow_right_mono₀ (by omega) : Monotone (2 ^ · : Nat → Nat)).map_max).symm
  obtain ⟨hmaxFibers, hview, hend, hlaid⟩ := configureObjectLayout_ok
    ⟨rfl, rfl, rfl, rfl, rfl, (Nat.zero_mul _).symm, halign, hpos, hmax⟩ hlayout
  have hentries : (defaultEnd + arenaPageSize - 1) >>> arenaPageShift + G.imagePages +
      sliceSlackPages (2 ^ k) = G.entries record.heapBytes record.fiberCount := by
    rw [hend, Nat.shiftRight_eq_div_pow, Nat.add_comm _ G.imagePages]
    rfl
  have hle : G.entries record.heapBytes record.fiberCount ≤ maxArenaPages :=
    hentries ▸ Nat.le_of_not_lt hpages
  have hlaid : G.LaidOut record := hlaid fun _ => hle
  have hone : 0 < G.entries record.heapBytes record.fiberCount :=
    Geometry.entries_pos hlaid.fiberCount_pos
  have ho := Except.ok.inj h
  subst ho
  refine ⟨G, rfl, rfl, hlaid, hfibers ▸ hmaxFibers, ?_, hview⟩
  rw [hentries, Nat.max_eq_right hone]

omit hk hfibers hpos hmax in
/-- What the compiler accepts is laid out over the integers as its geometry says. -/
theorem compile_ok (h : compile m = .ok o) : ∃ G : Geometry, G.tier = m.tier ∧ o.Laid G := by
  obtain ⟨slice, hslice, h⟩ := bind_eq_ok.mp h
  obtain ⟨fibers, hfibers, h⟩ := bind_eq_ok.mp h
  obtain ⟨k, rfl, hk⟩ := configureStackGeometry_ok hslice
  obtain ⟨heq, hpos, hmax⟩ := configureFibers_ok hfibers
  cases htier : m.tier with
  | fixed =>
    rw [htier] at h
    exact runFixedMemory_ok hk heq hpos hmax h
  | arena =>
    rw [htier] at h
    exact runArena_ok hk heq hpos hmax h

end Compiler

end BpfCapsule

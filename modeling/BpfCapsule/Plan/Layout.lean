import BpfCapsule.Abi

/-!
# BpfCapsule — the memory layout of one object

Two programs lay the flat memory of an object out: the compiler for the object's defaults, the host
for what the application requests. `Geometry` is what the object fixes, and the functions on it are
the layout over the integers that both compute: where the bank of fiber stacks starts, where the
memory ends and how many entries the backing map needs. `Geometry.Fits` says when the layout can be
represented.
-/

namespace BpfCapsule

def addressLimit : Nat := 2 ^ 32
def memoryRegionSize : Nat := 2 ^ memoryRegionShift
def maxDirectMemoryRegions : Nat := 63
def arenaPageShift : Nat := 12
def arenaPageSize : Nat := 2 ^ arenaPageShift
def maxArenaPages : Nat := 2 ^ (32 - arenaPageShift)
def maxFibersLimit : Nat := 65535

/-- `BPF_CAPSULE_ARENA_SLICE_SLACK_PAGES`. -/
def sliceSlackPages (stackBytesPerFiber : Nat) : Nat :=
  if arenaPageSize < stackBytesPerFiber then stackBytesPerFiber / arenaPageSize - 1 else 0

deriving instance DecidableEq for ObjectConfig

/-- `struct __bpf_capsule_object_config` with the word only the loader reads. -/
structure ObjectRecord extends ObjectConfig where
  arenaImagePages : Nat
  deriving DecidableEq

/-- What an object fixes of its layout. A slice is a power of two no larger than a region, page zero
stays empty, and only the fixed tier has direct regions. -/
structure Geometry where
  tier : Tier
  heapBase : Nat
  sliceLog : Nat
  directRegions : Nat
  imagePages : Nat
  sliceLog_le : sliceLog ≤ memoryRegionShift
  page_le_heapBase : arenaPageSize ≤ heapBase
  heapBase_lt : heapBase < addressLimit
  direct_fixed : tier = .fixed → 1 ≤ directRegions ∧ directRegions ≤ maxDirectMemoryRegions
  direct_arena : tier = .arena → directRegions = 0
  imagePages_lt : imagePages < 2 ^ 32

namespace Geometry

variable (G : Geometry) (heapBytes fibers : Nat)

def slice : Nat := 2 ^ G.sliceLog

def stackFloor : Nat := G.directRegions * memoryRegionSize

def alignLog : Nat :=
  match G.tier with
  | .fixed => memoryRegionShift
  | .arena => max arenaPageShift G.sliceLog

def heapEnd : Nat := G.heapBase + heapBytes

def stackBase : Nat := alignTo (max (G.heapEnd heapBytes) G.stackFloor) (2 ^ G.alignLog)

def memoryEnd : Nat := G.stackBase heapBytes + G.slice * fibers

def entries : Nat :=
  match G.tier with
  | .fixed =>
    (G.memoryEnd heapBytes fibers + memoryRegionSize - 1) / memoryRegionSize - G.directRegions
  | .arena =>
    G.imagePages + (G.memoryEnd heapBytes fibers + arenaPageSize - 1) / arenaPageSize +
      sliceSlackPages G.slice

/-- The memory ends inside the 32-bit domain, and an arena has pages enough. -/
structure Fits : Prop where
  memoryEnd_lt : G.memoryEnd heapBytes fibers < addressLimit
  pages_le : G.tier = .arena → G.entries heapBytes fibers ≤ maxArenaPages

instance : Decidable (G.Fits heapBytes fibers) :=
  decidable_of_iff (G.memoryEnd heapBytes fibers < addressLimit ∧
      (G.tier = .arena → G.entries heapBytes fibers ≤ maxArenaPages))
    ⟨fun h => ⟨h.1, h.2⟩, fun h => ⟨h.memoryEnd_lt, h.pages_le⟩⟩

theorem slice_pos : 0 < G.slice := Nat.two_pow_pos _

theorem slice_le : G.slice ≤ memoryRegionSize := Nat.pow_le_pow_right (by omega) G.sliceLog_le

theorem alignLog_le : G.alignLog ≤ memoryRegionShift := by
  have hslice := G.sliceLog_le
  unfold alignLog
  split
  · exact Nat.le_refl _
  · exact Nat.max_le.mpr ⟨by decide, hslice⟩

theorem sliceLog_le_alignLog : G.sliceLog ≤ G.alignLog := by
  have hslice := G.sliceLog_le
  unfold alignLog
  split
  · exact hslice
  · exact Nat.le_max_right _ _

/-- The heap ends before the stack bank starts, and the bank starts past the direct regions. -/
theorem heapEnd_le_stackBase : G.heapEnd heapBytes ≤ G.stackBase heapBytes :=
  Nat.le_trans (Nat.le_max_left _ _) (le_alignTo _ (Nat.two_pow_pos _))

theorem stackFloor_le_stackBase : G.stackFloor ≤ G.stackBase heapBytes :=
  Nat.le_trans (Nat.le_max_right _ _) (le_alignTo _ (Nat.two_pow_pos _))

theorem alignment_dvd_stackBase : 2 ^ G.alignLog ∣ G.stackBase heapBytes := dvd_alignTo _ _

theorem stackBase_add_le (h : G.stackBase heapBytes < addressLimit) :
    G.stackBase heapBytes + 2 ^ G.alignLog ≤ addressLimit := by
  have hdvd : 2 ^ G.alignLog ∣ addressLimit :=
    Nat.pow_dvd_pow 2 (Nat.le_trans G.alignLog_le (by decide))
  obtain ⟨q, hq⟩ := hdvd
  obtain ⟨p, hp⟩ := G.alignment_dvd_stackBase heapBytes
  rw [hp, hq] at h ⊢
  have hlt : p < q := Nat.lt_of_mul_lt_mul_left h
  calc 2 ^ G.alignLog * p + 2 ^ G.alignLog = 2 ^ G.alignLog * (p + 1) := (Nat.mul_succ _ _).symm
    _ ≤ 2 ^ G.alignLog * q := Nat.mul_le_mul_left _ hlt

/-- The compiled slice mask is exact: every slice of the bank starts on a slice boundary. -/
theorem slice_dvd_stackBase : G.slice ∣ G.stackBase heapBytes :=
  Nat.dvd_trans (Nat.pow_dvd_pow 2 G.sliceLog_le_alignLog) (G.alignment_dvd_stackBase heapBytes)

variable {G heapBytes fibers}

theorem stackFloor_lt_memoryEnd (hfibers : 0 < fibers) :
    G.stackFloor < G.memoryEnd heapBytes fibers := by
  have hfloor := G.stackFloor_le_stackBase heapBytes
  have hbytes := Nat.mul_pos G.slice_pos hfibers
  unfold memoryEnd
  omega

/-- The regions of the fixed tier, direct ones and ARRAY entries, are exactly those the memory
reaches. -/
theorem direct_add_entries (htier : G.tier = .fixed) (hfibers : 0 < fibers) :
    G.directRegions + G.entries heapBytes fibers =
      (G.memoryEnd heapBytes fibers + memoryRegionSize - 1) / memoryRegionSize := by
  have hfloor : G.stackFloor < G.memoryEnd heapBytes fibers := G.stackFloor_lt_memoryEnd hfibers
  unfold stackFloor memoryRegionSize memoryRegionShift at hfloor
  simp only [entries, htier, memoryRegionSize, memoryRegionShift]
  omega

theorem entries_pos (hfibers : 0 < fibers) : 0 < G.entries heapBytes fibers := by
  have hfloor : G.stackFloor < G.memoryEnd heapBytes fibers := G.stackFloor_lt_memoryEnd hfibers
  unfold entries
  split
  · unfold stackFloor memoryRegionSize memoryRegionShift at hfloor
    simp only [memoryRegionSize, memoryRegionShift]
    omega
  · simp only [arenaPageSize, arenaPageShift]
    omega

/-! ## Records with the geometry -/

/-- The record states this geometry. -/
structure Describes (G : Geometry) (c : ObjectRecord) : Prop where
  heapBase : c.heapBase = G.heapBase
  slice : c.stackBytesPerFiber = G.slice
  backend : c.memoryBackend = G.tier.memoryBackend
  direct : c.directMemoryRegions = G.directRegions
  image : c.arenaImagePages = G.imagePages
  magic : c.abiMagic = abiMagic
  version : c.abiVersion = abiVersion
  maxFibers_pos : 0 < c.maxFibers
  maxFibers_le : c.maxFibers ≤ maxFibersLimit

/-- The record states the layout for its own heap size and fiber count. -/
structure LaidOut (G : Geometry) (c : ObjectRecord) : Prop extends G.Describes c where
  fiberCount_pos : 0 < c.fiberCount
  fiberCount_le : c.fiberCount ≤ c.maxFibers
  stackBase : c.stackBase = G.stackBase c.heapBytes
  memoryEnd : c.memoryEnd = G.memoryEnd c.heapBytes c.fiberCount
  fits : G.Fits c.heapBytes c.fiberCount

end Geometry

end BpfCapsule

import BpfCapsule.Plan.Layout
import BpfCapsule.Lib.Check
import BpfCapsule.Lib.Word

/-!
# BpfCapsule — the host's plan

Before an object is loaded, the host chooses its heap size and fiber count. `plan` computes the
layout again from the object's record, in 64-bit words that wrap, and finishes the record;
`configure` resizes the maps to it and bakes the address window in. After the load, `prepareMemory`
checks the record and the maps once more and maps the regions into the window.
-/

namespace BpfCapsule.Host

open Check

/-- The values of `errno` the plan sets; `system` is one that the kernel or libbpf reports. -/
inductive Errno where
  | EINVAL
  | ENOENT
  | E2BIG
  | EOVERFLOW
  | ENOMEM
  | EBUSY
  | EFAULT
  | system (code : Nat)
  deriving DecidableEq, Repr

/-- `struct bpf_capsule_config`: a 32-bit and a 64-bit word. -/
structure Requested where
  fiberCount : Nat
  heapBytes : Nat
  fiberCount_lt : fiberCount < 2 ^ 32
  heapBytes_lt : heapBytes < 2 ^ 64

/-- `sizeof(struct __bpf_capsule_object_config)`. -/
def objectConfigSize : Nat := 56

/-- `__bpf_capsule_layout_header_valid`. -/
def layoutHeaderValid (c : ObjectRecord) : Bool :=
  c.stackBytesPerFiber != 0 && c.stackBytesPerFiber &&& (c.stackBytesPerFiber - 1) == 0 &&
    c.stackBytesPerFiber ≤ memoryRegionSize && c.maxFibers != 0 && c.maxFibers ≤ maxFibersLimit &&
    arenaPageSize ≤ c.heapBase && c.heapBase ≤ 2 ^ 32 - 1 &&
    c.memoryBackend ≤ Tier.arena.memoryBackend &&
    (if c.memoryBackend = Tier.arena.memoryBackend then c.directMemoryRegions == 0
      else 0 < c.directMemoryRegions && c.directMemoryRegions ≤ maxDirectMemoryRegions) &&
    c.abiMagic == abiMagic && c.abiVersion == abiVersion

/-! ## The plan -/

/-- What `__bpf_capsule_plan` may write: the record and the caller's entry count. -/
structure PlanState where
  config : ObjectRecord
  backendEntries : Nat

/-- The entries of the backing map for a memory that ends at `memoryEnd`. -/
def planEntries (config : ObjectRecord) (hasArena : Bool) (memoryEnd : Nat) :
    EStateM Errno PlanState Nat :=
  if hasArena then do
    let sparsePages := Word.sub 64 (Word.add 64 memoryEnd arenaPageSize) 1 >>> arenaPageShift
    let pages := Word.add 64 (Word.add 64 config.arenaImagePages sparsePages)
      (sliceSlackPages config.stackBytesPerFiber)
    rejectIf (pages = 0 ∨ maxArenaPages < pages) Errno.EOVERFLOW
    pure (pages % 2 ^ 32)
  else do
    let regions :=
      (Word.sub 64 (Word.add 64 memoryEnd memoryRegionSize) 1 >>> memoryRegionShift) % 2 ^ 32
    let entries := if config.directMemoryRegions < regions then regions - config.directMemoryRegions
      else 0
    rejectIf (entries = 0) Errno.EINVAL
    pure entries

/-- `__bpf_capsule_plan` on pointers that are not null. -/
def plan (configSize : Nat) (requested : Requested) : EStateM Errno PlanState Unit := do
  let config := (← get).config
  rejectIf (requested.fiberCount = 0) Errno.EINVAL
  rejectIf (configSize < objectConfigSize) Errno.ENOENT
  rejectIf (config.maxFibers < requested.fiberCount) Errno.E2BIG
  rejectIf (layoutHeaderValid config = false) Errno.EINVAL
  let hasArena := config.memoryBackend == Tier.arena.memoryBackend
  rejectIf (Word.sub 64 addressLimit config.heapBase < requested.heapBytes) Errno.EOVERFLOW
  let heapEnd := Word.add 64 config.heapBase requested.heapBytes
  let stackFloor := if hasArena then 0 else Word.mul 64 config.directMemoryRegions memoryRegionSize
  let stackAlignment :=
    if hasArena then
      if arenaPageSize < config.stackBytesPerFiber then config.stackBytesPerFiber else arenaPageSize
    else memoryRegionSize
  let stackBase := if stackFloor < heapEnd then heapEnd else stackFloor
  rejectIf (Word.sub 64 addressLimit (Word.sub 64 stackAlignment 1) < stackBase) Errno.EOVERFLOW
  let stackBase := Word.sub 64 (Word.add 64 stackBase stackAlignment) 1 &&&
    Word.not 64 (Word.sub 64 stackAlignment 1)
  let stackBytes := Word.mul 64 config.stackBytesPerFiber requested.fiberCount
  rejectIf (Word.sub 64 addressLimit stackBase ≤ stackBytes) Errno.EOVERFLOW
  let memoryEnd := Word.add 64 stackBase stackBytes
  let entries ← planEntries config hasArena memoryEnd
  set (PlanState.mk
    { config with
      fiberCount := requested.fiberCount
      heapBytes := requested.heapBytes % 2 ^ 32
      stackBase := stackBase % 2 ^ 32
      memoryEnd := memoryEnd % 2 ^ 32 } entries)

/-! ## The window and the view of the memory -/

/-- `BPF_CAPSULE_FUNCTION_TOKEN_SPAN`. -/
def functionTokenSpan : Nat := 0x01000000 + 0x00100000

/-- Bytes `__bpf_capsule_reserve_window` asks for: an aligned 4 GiB, the tokens above them, and the
slack it aligns with. -/
def windowReserve : Nat := 2 * addressLimit + functionTokenSpan

/-- `__bpf_capsule_reserve_window` on the address `mmap` returned. -/
def reserveWindow (raw : Nat) : Nat :=
  Word.sub 64 (Word.add 64 raw addressLimit) 1 &&& Word.not 64 (Word.sub 64 addressLimit 1)

/-- `bpf_capsule_configure` bakes the window into the planned record. -/
def bakeWindow (config : ObjectRecord) (window : Nat) : ObjectRecord :=
  { config with memoryViewBase := window }

/-- What the host reads of a loaded object. Maps are looked up by name and may be missing. -/
structure LoadedObject where
  config : ObjectRecord
  configSize : Nat
  /-- `max_entries` of the map `arena`. -/
  arena : Option Nat
  arenaMapped : Bool
  arenaControl : Option Nat
  /-- Value sizes of the maps of the direct regions. -/
  memoryRegion : Nat → Option Nat
  /-- Value size and `max_entries` of `bpf_heap_array`. -/
  heapArray : Option (Nat × Nat)

/-- What `__bpf_capsule_prepare_memory` asks the system: the capsule's window, the page size, the
file descriptors of the regions and the outcome of every mapping. -/
structure Process where
  window : Nat
  pageSize : Nat
  regionOpen : Nat → Bool
  mapRegion : Nat → Option Errno
  protectPage : Option Errno

/-- Sizes of `struct __bpf_capsule_arena_control`. -/
def arenaControlSize : Nat := 16

/-- The tier-independent checks of `__bpf_capsule_prepare_memory` on the record. The words are 32
bits wide, so the 64-bit sums do not wrap. -/
def recordUsable (c : ObjectRecord) : Bool :=
  let heapEnd := c.heapBase + c.heapBytes
  let stackBytes := c.stackBytesPerFiber * c.fiberCount
  layoutHeaderValid c && c.fiberCount != 0 && c.fiberCount ≤ c.maxFibers && heapEnd ≤ c.stackBase &&
    c.stackBase ≤ 2 ^ 32 - 1 && stackBytes ≤ addressLimit - c.stackBase &&
    c.memoryEnd == c.stackBase + stackBytes

def prepareArena (h : Process) (o : LoadedObject) : Except Errno Unit := do
  match o.arena with
  | none => throw .ENOENT
  | some maxEntries => do
    match o.arenaControl with
    | none => throw .EFAULT
    | some controlSize => do
      rejectIf (controlSize < arenaControlSize) Errno.EFAULT
      rejectIf (o.arenaMapped = false ∨ h.pageSize = 0 ∨ (2 ^ 64 - 1) / h.pageSize < maxEntries)
        Errno.EFAULT

def checkRegion (o : LoadedObject) (region : Nat) : Except Errno Unit :=
  match o.memoryRegion region with
  | none => throw .ENOENT
  | some valueSize => rejectIf (valueSize ≠ memoryRegionSize) Errno.EFAULT

/-- One `mmap` of the view. -/
def viewRegion (h : Process) (region : Nat) : Except Errno Unit := do
  rejectIf (h.regionOpen region = false) Errno.EFAULT
  match h.mapRegion region with
  | some e => throw e
  | none => pure ()

/-- The regions of the view. A missing `bpf_heap_array` has no entries and an empty value. -/
def totalRegions (o : LoadedObject) : Nat :=
  o.config.directMemoryRegions + (o.heapArray.getD (0, 0)).2

/-- The checks of the fixed tier. -/
def checkFixed (h : Process) (o : LoadedObject) : Except Errno Unit := do
  rejectIf (o.config.memoryBackend ≠ Tier.fixed.memoryBackend ∨ o.arena.isSome) Errno.EINVAL
  (List.range o.config.directMemoryRegions).forM (checkRegion o)
  let viewBase := o.config.memoryViewBase
  rejectIf (viewBase = 0) Errno.EINVAL
  rejectIf ((o.heapArray.getD (0, 0)).1 ≠ memoryRegionSize ∨ h.pageSize = 0 ∨
      viewBase &&& (h.pageSize - 1) ≠ 0 ∨ memoryRegionSize &&& (h.pageSize - 1) ≠ 0 ∨
      addressLimit / memoryRegionSize < totalRegions o ∨
      totalRegions o * memoryRegionSize < o.config.memoryEnd ∨
      2 ^ 64 - 1 - totalRegions o * memoryRegionSize < viewBase) Errno.EFAULT

/-- The mappings of the fixed tier: the regions in turn, and the inaccessible first page. -/
def viewRegions (h : Process) (regions : List Nat) : Except Errno Unit := do
  regions.forM (viewRegion h)
  match h.protectPage with
  | some e => throw e
  | none => pure ()

def prepareFixed (h : Process) (o : LoadedObject) : Except Errno Unit := do
  checkFixed h o
  viewRegions h (List.range (totalRegions o))

def checkRecord (window : Nat) (o : LoadedObject) : Except Errno Unit := do
  rejectIf (o.configSize < objectConfigSize) Errno.ENOENT
  rejectIf (o.config.memoryViewBase ≠ window) Errno.EINVAL
  rejectIf (recordUsable o.config = false) Errno.EINVAL

/-- `__bpf_capsule_prepare_memory` of a capsule whose memory is not prepared yet: its answer. -/
def prepareMemory (h : Process) (o : LoadedObject) : Except Errno Unit := do
  checkRecord h.window o
  if o.config.memoryBackend = Tier.arena.memoryBackend then prepareArena h o else prepareFixed h o

/-! ## What the plan computes -/

variable {G : Geometry} {s : PlanState} {configSize : Nat} {requested : Requested}

theorem reads_planEntries (config : ObjectRecord) (hasArena : Bool) (memoryEnd : Nat) :
    Reads (planEntries config hasArena memoryEnd) := by
  cases hasArena with
  | true => exact .bind (.rejectIf _ _) fun _ => .pure _
  | false => exact .bind (.rejectIf _ _) fun _ => .pure _

/-- Every check of the plan precedes its only assignment. -/
theorem restores_plan (configSize : Nat) (requested : Requested) :
    Restores (plan configSize requested) := by
  apply Restores.bind .get
  intro s
  iterate 7
    apply Restores.bind (.rejectIf _ _)
    intro _
  apply Restores.bind (reads_planEntries _ _ _)
  intro entries
  exact .set _

theorem layoutHeaderValid_of_describes {c : ObjectRecord} (hG : G.Describes c) :
    layoutHeaderValid c = true := by
  have hslice := G.slice_le
  have hpage := G.page_le_heapBase
  have hbase := G.heapBase_lt
  unfold addressLimit at hbase
  have hmask : G.slice &&& (G.slice - 1) = 0 := Word.and_pred_two_pow _
  have hdirect : (if G.tier.memoryBackend = Tier.arena.memoryBackend then G.directRegions == 0
      else 0 < G.directRegions && G.directRegions ≤ maxDirectMemoryRegions) = true := by
    cases htier : G.tier with
    | fixed =>
      obtain ⟨hpos, hle⟩ := G.direct_fixed htier
      simp [Tier.memoryBackend, hle, show 0 < G.directRegions by omega]
    | arena => simp [G.direct_arena htier]
  have hbackend : G.tier.memoryBackend ≤ Tier.arena.memoryBackend := by cases G.tier <;> decide
  simp only [layoutHeaderValid, hG.slice, hG.heapBase, hG.backend, hG.direct, hG.magic, hG.version,
    hmask, hdirect, hslice, hpage, hbackend, hG.maxFibers_le, bne_iff_ne, ne_eq, Bool.and_eq_true,
    decide_eq_true_eq, beq_self_eq_true, and_true]
  exact ⟨⟨G.slice_pos.ne', hG.maxFibers_pos.ne'⟩, by omega⟩

def planned (G : Geometry) (requested : Requested) (s : PlanState) : PlanState where
  config :=
    { s.config with
      fiberCount := requested.fiberCount
      heapBytes := requested.heapBytes
      stackBase := G.stackBase requested.heapBytes
      memoryEnd := G.memoryEnd requested.heapBytes requested.fiberCount }
  backendEntries := G.entries requested.heapBytes requested.fiberCount

section Words

variable {c : ObjectRecord}

theorem hasArena_eq (hG : G.Describes c) :
    (c.memoryBackend == Tier.arena.memoryBackend) = decide (G.tier = .arena) := by
  rw [hG.backend]
  cases G.tier <;> rfl

theorem directRegions_le (G : Geometry) : G.directRegions ≤ 63 := by
  cases htier : G.tier with
  | fixed => exact (G.direct_fixed htier).2
  | arena => rw [G.direct_arena htier]; omega

theorem sliceSlackPages_le (G : Geometry) : sliceSlackPages G.slice ≤ 2 ^ 10 := by
  have hslice : G.slice ≤ 2 ^ 22 := G.slice_le
  unfold sliceSlackPages arenaPageSize arenaPageShift
  split <;> omega

theorem stackFloor_eq (hG : G.Describes c) :
    (if decide (G.tier = .arena) then 0 else Word.mul 64 c.directMemoryRegions memoryRegionSize) =
      G.stackFloor := by
  have hle := directRegions_le G
  rw [hG.direct]
  cases htier : G.tier with
  | fixed =>
    have hlt : G.directRegions * memoryRegionSize < 2 ^ 64 := by
      unfold memoryRegionSize memoryRegionShift
      omega
    rw [if_neg (by simp), Word.mul_eq hlt]
    rfl
  | arena =>
    rw [if_pos (by simp), Geometry.stackFloor, G.direct_arena htier, Nat.zero_mul]

theorem stackAlignment_eq (hG : G.Describes c) :
    (if decide (G.tier = .arena) then
      if arenaPageSize < c.stackBytesPerFiber then c.stackBytesPerFiber else arenaPageSize
    else memoryRegionSize) = 2 ^ G.alignLog := by
  rw [hG.slice]
  unfold Geometry.alignLog
  cases htier : G.tier with
  | fixed => rfl
  | arena =>
    rcases Nat.lt_or_ge arenaPageShift G.sliceLog with hlt | hge
    · have hpow : arenaPageSize < G.slice := Nat.pow_lt_pow_right (by omega) hlt
      rw [if_pos hpow, Nat.max_eq_right (Nat.le_of_lt hlt)]
      rfl
    · have hpow : G.slice ≤ arenaPageSize := Nat.pow_le_pow_right (by omega) hge
      rw [if_neg (Nat.not_lt.mpr hpow), Nat.max_eq_left hge]
      rfl

/-- The entries of a memory end inside the domain, and the only way they are refused. -/
theorem planEntries_eq {heapBytes fibers : Nat} (hG : G.Describes c) (hfibers : 0 < fibers)
    (hend : G.memoryEnd heapBytes fibers < addressLimit) (s : PlanState) :
    planEntries c (decide (G.tier = .arena)) (G.memoryEnd heapBytes fibers) s =
      if G.Fits heapBytes fibers then .ok (G.entries heapBytes fibers) s else .error .EOVERFLOW s := by
  have hlt : G.memoryEnd heapBytes fibers < 2 ^ 32 := hend
  have hpos : 0 < G.entries heapBytes fibers := Geometry.entries_pos hfibers
  unfold planEntries
  cases htier : G.tier with
  | fixed =>
    have hsum : G.directRegions + G.entries heapBytes fibers =
        (G.memoryEnd heapBytes fibers + memoryRegionSize - 1) / memoryRegionSize :=
      Geometry.direct_add_entries htier hfibers
    have hfits : G.Fits heapBytes fibers := ⟨hend, fun harena => nomatch htier.symm.trans harena⟩
    -- the sums of the code do not wrap below the address limit
    have hregions : Word.sub 64 (Word.add 64 (G.memoryEnd heapBytes fibers) memoryRegionSize) 1 >>>
        memoryRegionShift = G.directRegions + G.entries heapBytes fibers := by
      have hsize : memoryRegionSize = 2 ^ 22 := rfl
      rw [Word.add_eq (by omega), Word.sub_eq (by omega) (by omega), Nat.shiftRight_eq_div_pow, hsum]
      rfl
    have hsmall : (G.directRegions + G.entries heapBytes fibers) % 2 ^ 32 =
        G.directRegions + G.entries heapBytes fibers := by
      rw [hsum]
      unfold memoryRegionSize memoryRegionShift
      omega
    rw [if_neg (by simp), hregions, hsmall, hG.direct, if_pos (by omega), Nat.add_sub_cancel_left,
      rejectIf_bind_run, if_neg (by omega), if_pos hfits]
    rfl
  | arena =>
    have hentries : G.entries heapBytes fibers = G.imagePages +
        (G.memoryEnd heapBytes fibers + arenaPageSize - 1) / arenaPageSize +
          sliceSlackPages G.slice := by
      unfold Geometry.entries
      rw [htier]
    have himage := G.imagePages_lt
    have hslack := sliceSlackPages_le G
    have hpages : Word.add 64 (Word.add 64 c.arenaImagePages
        (Word.sub 64 (Word.add 64 (G.memoryEnd heapBytes fibers) arenaPageSize) 1 >>> arenaPageShift))
          (sliceSlackPages c.stackBytesPerFiber) = G.entries heapBytes fibers := by
      have hsize : arenaPageSize = 2 ^ 12 := rfl
      rw [hG.image, hG.slice, Word.add_eq (a := G.memoryEnd heapBytes fibers) (by omega),
        Word.sub_eq (by omega) (by omega), Nat.shiftRight_eq_div_pow, hentries]
      have hdiv : (G.memoryEnd heapBytes fibers + arenaPageSize - 1) / 2 ^ arenaPageShift < 2 ^ 32 := by
        unfold arenaPageSize arenaPageShift
        omega
      rw [Word.add_eq (b := (G.memoryEnd heapBytes fibers + arenaPageSize - 1) / 2 ^ arenaPageShift)
        (by omega), Word.add_eq (by omega)]
      rfl
    rw [if_pos (by simp), hpages, rejectIf_bind_run]
    by_cases hmax : G.entries heapBytes fibers ≤ maxArenaPages
    · have hsmall : G.entries heapBytes fibers < 2 ^ 32 :=
        Nat.lt_of_le_of_lt hmax (by decide)
      rw [if_neg (by omega), if_pos ⟨hend, fun _ => hmax⟩, Nat.mod_eq_of_lt hsmall]
      rfl
    · rw [if_pos (by omega), if_neg fun hfits => hmax (hfits.pages_le htier)]

end Words

/-- With a request the record can hold, the plan is accepted exactly if its layout fits, and what it
writes is the layout over the integers. -/
theorem plan_eq (hG : G.Describes s.config) (hfibers : requested.fiberCount ≠ 0)
    (hsize : objectConfigSize ≤ configSize) (hmax : requested.fiberCount ≤ s.config.maxFibers) :
    plan configSize requested s =
      if G.Fits requested.heapBytes requested.fiberCount then .ok () (planned G requested s)
      else .error .EOVERFLOW s := by
  have hheader := layoutHeaderValid_of_describes hG
  unfold plan
  rw [get_bind_run, rejectIf_bind_run, if_neg hfibers, rejectIf_bind_run, if_neg (by omega),
    rejectIf_bind_run, if_neg (by omega), rejectIf_bind_run, if_neg (by rw [hheader]; decide),
    rejectIf_bind_run, hasArena_eq hG, stackFloor_eq hG, stackAlignment_eq hG, hG.heapBase,
    hG.slice]
  have hlimit : addressLimit = 2 ^ 32 := rfl
  have hbase : G.heapBase < 2 ^ 32 := G.heapBase_lt
  have hslice : G.slice ≤ 2 ^ 22 := G.slice_le
  have hmax' : s.config.maxFibers ≤ 65535 := hG.maxFibers_le
  have hheap := G.heapEnd_le_stackBase requested.heapBytes
  have hend : G.stackBase requested.heapBytes + G.slice * requested.fiberCount =
    G.memoryEnd requested.heapBytes requested.fiberCount := rfl
  rw [Word.sub_eq (by omega) (by omega)]
  -- the heap ends inside the 32-bit domain
  by_cases hover : addressLimit - G.heapBase < requested.heapBytes
  · rw [if_pos hover, if_neg]
    intro hfits
    have hlt := hfits.memoryEnd_lt
    unfold Geometry.heapEnd at hheap
    omega
  have hadd : Word.add 64 G.heapBase requested.heapBytes = G.heapEnd requested.heapBytes :=
    Word.add_eq (by omega)
  have hmaxBase : (if G.stackFloor < G.heapEnd requested.heapBytes then G.heapEnd requested.heapBytes
      else G.stackFloor) = max (G.heapEnd requested.heapBytes) G.stackFloor := by
    split <;> omega
  have halign : 2 ^ G.alignLog ≤ 2 ^ 22 := Nat.pow_le_pow_right (by omega) G.alignLog_le
  have hpos := Nat.two_pow_pos G.alignLog
  have hfloor : G.stackFloor ≤ 63 * 2 ^ 22 := Nat.mul_le_mul_right _ (directRegions_le G)
  have hlow : G.heapEnd requested.heapBytes ≤ 2 ^ 32 := by
    unfold Geometry.heapEnd
    omega
  have hmask : Word.sub 64 (2 ^ G.alignLog) 1 = 2 ^ G.alignLog - 1 := Word.sub_eq hpos (by omega)
  have hround : Word.sub 64 (Word.add 64 (max (G.heapEnd requested.heapBytes) G.stackFloor)
      (2 ^ G.alignLog)) 1 &&& Word.not 64 (Word.sub 64 (2 ^ G.alignLog) 1) =
      G.stackBase requested.heapBytes := Word.add_pred_and_not_mask (by omega)
  have hmul : Word.mul 64 G.slice requested.fiberCount = G.slice * requested.fiberCount := by
    apply Word.mul_eq
    calc G.slice * requested.fiberCount ≤ 2 ^ 22 * 65535 := Nat.mul_le_mul hslice (by omega)
      _ < 2 ^ 64 := by decide
  rw [if_neg hover, hadd, hmaxBase, rejectIf_bind_run, hround, hmask, hmul,
    Word.sub_eq (by omega) (by omega)]
  -- rounding up stays inside the domain
  by_cases hwrap : addressLimit - (2 ^ G.alignLog - 1) <
      max (G.heapEnd requested.heapBytes) G.stackFloor
  · rw [if_pos hwrap, if_neg]
    intro hfits
    have hlt := hfits.memoryEnd_lt
    have hroom := G.stackBase_add_le requested.heapBytes (by omega)
    omega
  have hbank : G.stackBase requested.heapBytes ≤ addressLimit := by
    have hlt := alignTo_lt (max (G.heapEnd requested.heapBytes) G.stackFloor) hpos
    unfold Geometry.stackBase
    omega
  rw [if_neg hwrap, rejectIf_bind_run, Word.sub_eq hbank (by omega)]
  by_cases hstack : addressLimit - G.stackBase requested.heapBytes ≤
      G.slice * requested.fiberCount
  · rw [if_pos hstack, if_neg]
    intro hfits
    have hlt := hfits.memoryEnd_lt
    omega
  rw [if_neg hstack, Word.add_eq (by omega), hend]
  have hentries := planEntries_eq hG (Nat.pos_of_ne_zero hfibers)
    (show G.memoryEnd requested.heapBytes requested.fiberCount < addressLimit by omega) s
  split at hentries
  · rename_i hfits
    have hheap_lt : requested.heapBytes < 2 ^ 32 := by
      have hpage : 2 ^ 12 ≤ G.heapBase := G.page_le_heapBase
      omega
    rw [bind_run_ok hentries, if_pos hfits, Nat.mod_eq_of_lt hheap_lt,
      Nat.mod_eq_of_lt (show G.stackBase requested.heapBytes < 2 ^ 32 by omega),
      Nat.mod_eq_of_lt (show G.memoryEnd requested.heapBytes requested.fiberCount < 2 ^ 32 by omega),
      ← hG.heapBase, ← hG.slice]
    rfl
  · rename_i hfits
    rw [bind_run_error hentries, if_neg hfits]

/-- An accepted plan asked for at least one fiber and no more than compiled, and its layout fits. -/
theorem plan_ok {u : Unit} {s' : PlanState} (hG : G.Describes s.config)
    (h : plan configSize requested s = .ok u s') :
    0 < requested.fiberCount ∧ requested.fiberCount ≤ s.config.maxFibers ∧
      G.Fits requested.heapBytes requested.fiberCount ∧ s' = planned G requested s := by
  have hchecks : requested.fiberCount ≠ 0 ∧ objectConfigSize ≤ configSize ∧
      requested.fiberCount ≤ s.config.maxFibers := by
    unfold plan at h
    rw [get_bind_run, rejectIf_bind_run] at h
    split at h
    · exact (nomatch h)
    rw [rejectIf_bind_run] at h
    split at h
    · exact (nomatch h)
    rw [rejectIf_bind_run] at h
    split at h
    · exact (nomatch h)
    omega
  rw [plan_eq hG hchecks.1 hchecks.2.1 hchecks.2.2] at h
  split at h
  · rename_i hfits
    exact ⟨Nat.pos_of_ne_zero hchecks.1, hchecks.2.2, hfits, (EStateM.Result.ok.inj h).2.symm⟩
  · exact (nomatch h)

theorem laidOut_planned (hG : G.Describes s.config) (hfibers : 0 < requested.fiberCount)
    (hmax : requested.fiberCount ≤ s.config.maxFibers)
    (hfits : G.Fits requested.heapBytes requested.fiberCount) :
    G.LaidOut (planned G requested s).config where
  toDescribes := ⟨hG.heapBase, hG.slice, hG.backend, hG.direct, hG.image, hG.magic, hG.version,
    hG.maxFibers_pos, hG.maxFibers_le⟩
  fiberCount_pos := hfibers
  fiberCount_le := hmax
  stackBase := rfl
  memoryEnd := rfl
  fits := hfits

end BpfCapsule.Host

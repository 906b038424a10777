import BpfCapsule.Plan.Compiler
import BpfCapsule.Plan.Host

/-!
# BpfCapsule — an accepted plan is sound, and the compiler's layout is one

The plan's words never wrap where it accepts, so its record is the integer layout of the object's
geometry. From that layout alone follow the guest's check before the first entry, the host's check
of the loaded object, and that the host reproduces what the compiler baked in.
-/

namespace BpfCapsule.Host

open Check Compiler

/-! ## The guest's check -/

/-- The guest of an object with this record, `entries` of the heap array and a finished
initialization. -/
structure Guest (S : Setup) (o : Object) (c : ObjectRecord) (entries : Nat) : Prop where
  tier : S.tier = o.tier
  maxFibers : S.maxFibers = o.maxFibers
  config : S.config = c.toObjectConfig
  heapArray : ∀ key, S.heapArray key = decide (key < entries)
  hostReady : S.hostReady = true

variable {G : Geometry} {c : ObjectRecord}

/-- The last region of the memory has an entry of the heap array. -/
theorem lastRegion_lt (hG : G.LaidOut c) (htier : G.tier = .fixed) :
    ((c.memoryEnd + 2 ^ 32 - 1) % 2 ^ 32) >>> memoryRegionShift - G.directRegions <
      G.entries c.heapBytes c.fiberCount := by
  have hsum : G.directRegions + G.entries c.heapBytes c.fiberCount =
      (G.memoryEnd c.heapBytes c.fiberCount + memoryRegionSize - 1) / memoryRegionSize :=
    Geometry.direct_add_entries htier hG.fiberCount_pos
  have hpos : 0 < G.entries c.heapBytes c.fiberCount := Geometry.entries_pos hG.fiberCount_pos
  rw [hG.memoryEnd, Nat.shiftRight_eq_div_pow]
  unfold memoryRegionSize memoryRegionShift at hsum
  unfold memoryRegionShift
  omega

theorem planBroken_eq_false {S : Setup} {o : Object} (hG : G.LaidOut c) (htier : o.tier = G.tier)
    (hmax : c.maxFibers = o.maxFibers) (hview : c.memoryViewBase ≠ 0)
    (haligned : c.memoryViewBase % 2 ^ 32 = 0)
    (hS : Guest S o c (G.entries c.heapBytes c.fiberCount)) : S.planBroken = false := by
  have hheap := G.heapEnd_le_stackBase c.heapBytes
  have hlt : G.memoryEnd c.heapBytes c.fiberCount < 2 ^ 32 := hG.fits.memoryEnd_lt
  have hbank : G.stackBase c.heapBytes + G.slice * c.fiberCount =
    G.memoryEnd c.heapBytes c.fiberCount := rfl
  have hheapEnd : (c.heapBase + c.heapBytes) % 2 ^ 32 = c.heapBase + c.heapBytes := by
    rw [hG.heapBase]
    unfold Geometry.heapEnd at hheap
    exact Nat.mod_eq_of_lt (by omega)
  have hfirst : (c.fiberCount == 0) = false := beq_false_of_ne hG.fiberCount_pos.ne'
  have hcount : ¬ o.maxFibers < c.fiberCount := by
    rw [← hmax]
    exact Nat.not_lt.mpr hG.fiberCount_le
  have hslice : (c.stackBytesPerFiber == 0) = false := by
    rw [hG.slice]
    exact beq_false_of_ne G.slice_pos.ne'
  have hdisjoint : ¬ c.stackBase < c.heapBase + c.heapBytes := by
    rw [hG.stackBase, hG.heapBase]
    exact Nat.not_lt.mpr hheap
  have hend : c.memoryEnd = c.stackBase + c.stackBytesPerFiber * c.fiberCount := by
    rw [hG.memoryEnd, hG.stackBase, hG.slice]
    rfl
  have hwindow : (c.memoryViewBase == 0) = false := beq_false_of_ne hview
  unfold Setup.planBroken
  simp only [hS.config, hheapEnd, hfirst, hcount, hslice, hdisjoint, hwindow, hmax,
    hS.maxFibers, ← hend, hG.backend, hS.tier, htier, hG.magic, hG.version, haligned,
    bne_self_eq_false, Nat.not_lt.mpr (Nat.le_add_right c.heapBase c.heapBytes), decide_false,
    Bool.or_false, Bool.false_or]
  cases hfixed : G.tier with
  | arena => rfl
  | fixed =>
    simp only [hS.heapArray, hG.direct, decide_eq_true (lastRegion_lt hG hfixed), hS.hostReady,
      Bool.not_true, Bool.and_false, Bool.or_false]

/-! ## The host's check -/

/-- The window of a mapping the kernel placed inside the address space is a nonzero multiple of
4 GiB with the whole window above it. -/
theorem reserveWindow_spec {raw : Nat} (hraw : 0 < raw) (hend : raw + windowReserve ≤ 2 ^ 64) :
    0 < reserveWindow raw ∧ reserveWindow raw % 2 ^ 32 = 0 ∧
      reserveWindow raw + addressLimit < 2 ^ 64 := by
  unfold windowReserve functionTokenSpan addressLimit at hend
  have hround : reserveWindow raw = (raw + 2 ^ 32 - 1) / 2 ^ 32 * 2 ^ 32 :=
    Word.add_pred_and_not_mask (by omega)
  unfold addressLimit
  omega

/-- The system calls of the preparation succeed, on pages no larger than a region. -/
structure Process.Works (h : Process) : Prop where
  page : ∃ p, h.pageSize = 2 ^ p ∧ p ≤ memoryRegionShift
  regionOpen : ∀ region, h.regionOpen region = true
  mapRegion : ∀ region, h.mapRegion region = none
  protectPage : h.protectPage = none

/-- The object as the kernel loaded it: with its record, and its backing map resized. -/
structure LoadedObject.Loads (l : LoadedObject) (o : Object) (c : ObjectRecord) (entries : Nat) :
    Prop where
  config : l.config = c
  configSize : objectConfigSize ≤ l.configSize
  arena : o.tier = .arena →
    l.arena = some entries ∧ l.arenaMapped = true ∧ l.arenaControl = some arenaControlSize
  fixed : o.tier = .fixed →
    l.arena = none ∧ (∀ region < c.directMemoryRegions, l.memoryRegion region = some memoryRegionSize) ∧
      l.heapArray = some (memoryRegionSize, entries)

theorem recordUsable_of_laidOut (hG : G.LaidOut c) : recordUsable c = true := by
  have hheap := G.heapEnd_le_stackBase c.heapBytes
  have hlt : G.memoryEnd c.heapBytes c.fiberCount < 2 ^ 32 := hG.fits.memoryEnd_lt
  have hbank : G.stackBase c.heapBytes + G.slice * c.fiberCount =
    G.memoryEnd c.heapBytes c.fiberCount := rfl
  unfold Geometry.heapEnd at hheap
  simp only [recordUsable, layoutHeaderValid_of_describes hG.toDescribes, hG.heapBase, hG.slice,
    hG.stackBase, hG.memoryEnd, hG.fiberCount_le, ← hbank, hheap, bne_iff_ne, ne_eq,
    Bool.and_eq_true, decide_eq_true_eq, beq_self_eq_true, true_and, and_true]
  have hpos := hG.fiberCount_pos
  unfold addressLimit
  omega

variable {h : Process} {l : LoadedObject} {o : Object}

theorem prepareArena_ok (hG : G.LaidOut c) (htier : G.tier = .arena) (ho : o.tier = G.tier)
    (hworks : h.Works) (hl : l.Loads o c (G.entries c.heapBytes c.fiberCount)) :
    prepareArena h l = .ok () := by
  obtain ⟨harena, hmapped, hcontrol⟩ := hl.arena (ho.trans htier)
  obtain ⟨p, hpage, hp⟩ := hworks.page
  have hentries : G.entries c.heapBytes c.fiberCount ≤ 2 ^ 20 := hG.fits.pages_le htier
  have hsize : 2 ^ p ≤ 2 ^ 22 := Nat.pow_le_pow_right (by omega) hp
  have hpos := Nat.two_pow_pos p
  have hdiv : 2 ^ 20 ≤ (2 ^ 64 - 1) / 2 ^ p :=
    (Nat.le_div_iff_mul_le hpos).mpr (by omega)
  unfold prepareArena
  rw [harena, hcontrol, hmapped, hpage]
  apply rejectIf_bind_eq_ok.mpr
  refine ⟨by decide, rejectIf_eq_ok.mpr ?_⟩
  rintro (hfalse | hzero | hmany)
  · exact (nomatch hfalse)
  · omega
  · omega

theorem prepareFixed_ok (hG : G.LaidOut c) (htier : G.tier = .fixed) (ho : o.tier = G.tier)
    (hview : 0 < c.memoryViewBase) (haligned : c.memoryViewBase % 2 ^ 32 = 0)
    (hroom : c.memoryViewBase + addressLimit < 2 ^ 64) (hworks : h.Works)
    (hl : l.Loads o c (G.entries c.heapBytes c.fiberCount)) : prepareFixed h l = .ok () := by
  obtain ⟨harena, hregions, harray⟩ := hl.fixed (ho.trans htier)
  obtain ⟨p, hpage, hp⟩ := hworks.page
  have hsum : G.directRegions + G.entries c.heapBytes c.fiberCount =
      (G.memoryEnd c.heapBytes c.fiberCount + memoryRegionSize - 1) / memoryRegionSize :=
    Geometry.direct_add_entries htier hG.fiberCount_pos
  have hlt : G.memoryEnd c.heapBytes c.fiberCount < 2 ^ 32 := hG.fits.memoryEnd_lt
  have hviewPage : c.memoryViewBase &&& (2 ^ p - 1) = 0 := by
    rw [Nat.and_two_pow_sub_one_eq_mod]
    have hdvd : 2 ^ p ∣ 2 ^ 32 := Nat.pow_dvd_pow 2 (Nat.le_trans hp (by decide))
    exact Nat.mod_eq_zero_of_dvd (Nat.dvd_trans hdvd (Nat.dvd_of_mod_eq_zero haligned))
  have hregionPage : memoryRegionSize &&& (2 ^ p - 1) = 0 := by
    rw [Nat.and_two_pow_sub_one_eq_mod]
    exact Nat.mod_eq_zero_of_dvd (Nat.pow_dvd_pow 2 hp)
  have htotal : totalRegions l = G.directRegions + G.entries c.heapBytes c.fiberCount := by
    rw [totalRegions, hl.config, harray, hG.direct]
    rfl
  unfold prepareFixed checkFixed viewRegions
  rw [htotal, hl.config, harena, harray, hpage, hG.direct, hG.backend, htier]
  refine bind_eq_ok.mpr ⟨(), ?_, bind_eq_ok.mpr ⟨(), forM_eq_ok fun region _ => ?_, ?_⟩⟩
  · refine rejectIf_bind_eq_ok.mpr ⟨by simp, bind_eq_ok.mpr ⟨(), forM_eq_ok fun region hregion => ?_,
      rejectIf_bind_eq_ok.mpr ⟨by omega, rejectIf_eq_ok.mpr ?_⟩⟩⟩
    · unfold checkRegion
      rw [hregions region (hG.direct ▸ List.mem_range.mp hregion)]
      exact rejectIf_eq_ok.mpr (by simp)
    · have hpos := Nat.two_pow_pos p
      rw [hG.memoryEnd, hviewPage, hregionPage, Option.getD_some]
      unfold memoryRegionSize memoryRegionShift addressLimit at *
      omega
  · unfold viewRegion
    rw [hworks.mapRegion region]
    exact rejectIf_bind_eq_ok.mpr ⟨by simp [hworks.regionOpen], rfl⟩
  · rw [hworks.protectPage]
    rfl

/-- The host's preparation accepts every record that states its layout. -/
theorem prepareMemory_ok (hG : G.LaidOut c) (ho : o.tier = G.tier) (hwindow : c.memoryViewBase = h.window)
    (hview : 0 < c.memoryViewBase) (haligned : c.memoryViewBase % 2 ^ 32 = 0)
    (hroom : c.memoryViewBase + addressLimit < 2 ^ 64) (hworks : h.Works)
    (hl : l.Loads o c (G.entries c.heapBytes c.fiberCount)) : prepareMemory h l = .ok () := by
  have husable := recordUsable_of_laidOut hG
  refine bind_eq_ok.mpr ⟨(), rejectIf_bind_eq_ok.mpr ⟨Nat.not_lt.mpr hl.configSize,
    rejectIf_bind_eq_ok.mpr ⟨?_, rejectIf_eq_ok.mpr ?_⟩⟩, ?_⟩
  · rw [hl.config]
    exact not_not_intro hwindow
  · rw [hl.config, husable]
    decide
  · rw [hl.config, hG.backend]
    cases htier : G.tier with
    | fixed =>
      exact prepareFixed_ok hG htier ho hview haligned hroom hworks hl
    | arena =>
      exact prepareArena_ok hG htier ho hworks hl

/-! ## Accepted plans -/

def stackRequirement (tier : Tier) (stackBytesPerFiber : Nat) : Nat :=
  match tier with
  | .fixed => memoryRegionSize
  | .arena => max arenaPageSize stackBytesPerFiber

/-- The memory up to `memoryEnd` is backed: on the fixed tier every byte lies in a direct region or
in an entry of the heap array; the arena has the image, the memory and the slack, page by page. -/
def Backed (tier : Tier) (c : ObjectRecord) (entries : Nat) : Prop :=
  match tier with
  | .fixed => ∀ a < c.memoryEnd, a / memoryRegionSize < c.directMemoryRegions + entries
  | .arena =>
    (c.arenaImagePages + sliceSlackPages c.stackBytesPerFiber) * arenaPageSize + c.memoryEnd ≤
      entries * arenaPageSize ∧ entries ≤ maxArenaPages

/-- What an accepted plan of the object guarantees. The layout is stated over the integers, so no
word of it wrapped. -/
structure PlanSound (o : Object) (requested : Requested) (s : PlanState) : Prop where
  written : s.config = { o.record with
    fiberCount := requested.fiberCount
    heapBytes := requested.heapBytes
    stackBase := s.config.stackBase
    memoryEnd := s.config.memoryEnd }
  disjoint : s.config.heapBase + s.config.heapBytes ≤ s.config.stackBase
  aligned : stackRequirement o.tier s.config.stackBytesPerFiber ∣ s.config.stackBase
  slice_aligned : s.config.stackBytesPerFiber ∣ s.config.stackBase
  memoryEnd_eq :
    s.config.memoryEnd = s.config.stackBase + s.config.stackBytesPerFiber * s.config.fiberCount
  memoryEnd_lt : s.config.memoryEnd < addressLimit
  backed : Backed o.tier s.config s.backendEntries
  guest : ∀ raw S, 0 < raw → raw + windowReserve ≤ 2 ^ 64 →
    Guest S o (bakeWindow s.config (reserveWindow raw)) s.backendEntries → S.planBroken = false
  host : ∀ raw h l, 0 < raw → raw + windowReserve ≤ 2 ^ 64 →
    h.window = reserveWindow raw → h.Works →
    l.Loads o (bakeWindow s.config (reserveWindow raw)) s.backendEntries →
    prepareMemory h l = .ok ()

theorem stackRequirement_dvd (hG : G.LaidOut c) :
    stackRequirement G.tier c.stackBytesPerFiber ∣ c.stackBase := by
  have hdvd := G.alignment_dvd_stackBase c.heapBytes
  rw [hG.stackBase, hG.slice]
  unfold stackRequirement
  unfold Geometry.alignLog at hdvd
  cases htier : G.tier with
  | fixed =>
    rw [htier] at hdvd
    exact hdvd
  | arena =>
    rw [htier] at hdvd
    have hmax : max arenaPageSize G.slice = 2 ^ max arenaPageShift G.sliceLog :=
      ((pow_right_mono₀ (by omega) : Monotone (2 ^ · : Nat → Nat)).map_max).symm
    exact hmax ▸ hdvd

theorem backed_of_laidOut (hG : G.LaidOut c) :
    Backed G.tier c (G.entries c.heapBytes c.fiberCount) := by
  cases htier : G.tier with
  | fixed =>
    have hsum : G.directRegions + G.entries c.heapBytes c.fiberCount =
        (G.memoryEnd c.heapBytes c.fiberCount + memoryRegionSize - 1) / memoryRegionSize :=
      Geometry.direct_add_entries htier hG.fiberCount_pos
    intro a ha
    rw [hG.direct, hsum]
    rw [hG.memoryEnd] at ha
    unfold memoryRegionSize memoryRegionShift
    omega
  | arena =>
    refine ⟨?_, hG.fits.pages_le htier⟩
    have hentries : G.entries c.heapBytes c.fiberCount = G.imagePages +
        (G.memoryEnd c.heapBytes c.fiberCount + arenaPageSize - 1) / arenaPageSize +
          sliceSlackPages G.slice := by
      unfold Geometry.entries
      rw [htier]
    rw [hentries, hG.memoryEnd, hG.image, hG.slice]
    unfold arenaPageSize arenaPageShift
    omega

theorem laidOut_bakeWindow (hG : G.LaidOut c) (window : Nat) : G.LaidOut (bakeWindow c window) :=
  ⟨⟨hG.heapBase, hG.slice, hG.backend, hG.direct, hG.image, hG.magic, hG.version, hG.maxFibers_pos,
    hG.maxFibers_le⟩, hG.fiberCount_pos, hG.fiberCount_le, hG.stackBase, hG.memoryEnd, hG.fits⟩

theorem planSound_of_laid {requested : Requested} {entries : Nat} (ho : o.Laid G)
    (hfibers : 0 < requested.fiberCount) (hmax : requested.fiberCount ≤ o.record.maxFibers)
    (hfits : G.Fits requested.heapBytes requested.fiberCount) :
    PlanSound o requested (planned G requested ⟨o.record, entries⟩) := by
  have hG : G.LaidOut (planned G requested ⟨o.record, entries⟩).config :=
    laidOut_planned ho.record.toDescribes hfibers hmax hfits
  have hheap := G.heapEnd_le_stackBase requested.heapBytes
  constructor
  case written => rfl
  case disjoint =>
    rw [hG.heapBase]
    exact hheap
  case aligned =>
    rw [ho.tier]
    exact stackRequirement_dvd hG
  case slice_aligned =>
    rw [hG.slice]
    exact G.slice_dvd_stackBase requested.heapBytes
  case memoryEnd_eq =>
    rw [hG.slice]
    rfl
  case memoryEnd_lt => exact hfits.memoryEnd_lt
  case backed =>
    rw [ho.tier]
    exact backed_of_laidOut hG
  case guest =>
    intro raw S hraw hend hS
    obtain ⟨hpos, haligned, -⟩ := reserveWindow_spec hraw hend
    exact planBroken_eq_false (laidOut_bakeWindow hG _) ho.tier ho.maxFibers hpos.ne' haligned hS
  case host =>
    intro raw h l hraw hend hwindow hworks hl
    obtain ⟨hpos, haligned, hroom⟩ := reserveWindow_spec hraw hend
    exact prepareMemory_ok (laidOut_bakeWindow hG _) ho.tier hwindow.symm hpos haligned hroom hworks hl

/-- Whatever an object's record is asked to hold, an accepted plan is sound and a rejected one wrote
nothing. -/
theorem host_plan_sound (m : LinkedModule) (o : Object) (hm : compile m = .ok o) (configSize : Nat)
    (requested : Requested) (entries : Nat) :
    match plan configSize requested ⟨o.record, entries⟩ with
    | .ok _ s => PlanSound o requested s
    | .error _ s => s = ⟨o.record, entries⟩ := by
  obtain ⟨G, -, ho⟩ := compile_ok hm
  cases hplan : plan configSize requested ⟨o.record, entries⟩ with
  | ok u s =>
    obtain ⟨hfibers, hmax, hfits, rfl⟩ := plan_ok ho.record.toDescribes hplan
    exact planSound_of_laid ho hfibers hmax hfits
  | error e s => exact restores_plan configSize requested _ e s hplan

def runtimeRecord (tier : Tier) : ObjectRecord where
  heapBase := 0
  heapBytes := 4 * 2 ^ 20
  stackBase := 0
  memoryEnd := 0
  fiberCount := 1
  stackBytesPerFiber := 0
  maxFibers := 512
  memoryBackend := tier.memoryBackend
  directMemoryRegions := 0
  abiMagic := BpfCapsule.abiMagic
  abiVersion := BpfCapsule.abiVersion
  memoryViewBase := 0
  arenaImagePages := 0

def sampleModule (tier : Tier) : LinkedModule where
  tier
  declared := runtimeRecord tier
  fiberControls := 512
  fiberStackBytes := 256 * 1024
  globals := [⟨"table", 8, 8, 1000, true, false⟩, ⟨"buffer", 16, 1, 100000, false, false⟩]
  mapGlobals := 4
  dataSections := 3
  directMapRegions := none

/-- The object of `sampleModule .fixed`. -/
def sampleObject : Object where
  tier := .fixed
  maxFibers := 512
  record := { runtimeRecord .fixed with
    heapBase := 105104
    stackBase := 32 * 2 ^ 22
    memoryEnd := 32 * 2 ^ 22 + 256 * 1024
    stackBytesPerFiber := 256 * 1024
    directMemoryRegions := 32 }
  backendEntries := 1

def sampleRequest : Requested := ⟨8, 200 * 2 ^ 20, by decide, by decide⟩

/-- Eight fibers and a heap of 200 MiB on the fixed tier. -/
theorem host_plan_sound_sample :
    compile (sampleModule .fixed) = .ok sampleObject ∧
      ∃ s, plan objectConfigSize sampleRequest ⟨sampleObject.record, 0⟩ = .ok () s ∧
        PlanSound sampleObject sampleRequest s := by
  have hm : compile (sampleModule .fixed) = .ok sampleObject := by decide
  have hsound := host_plan_sound _ _ hm objectConfigSize sampleRequest 0
  have haccepted :
      (plan objectConfigSize sampleRequest ⟨sampleObject.record, 0⟩ matches .ok ..) = true := by decide
  refine ⟨hm, ?_⟩
  cases hplan : plan objectConfigSize sampleRequest ⟨sampleObject.record, 0⟩ with
  | ok u s =>
    rw [hplan] at hsound
    exact ⟨s, rfl, hsound⟩
  | error e s =>
    rw [hplan] at haccepted
    exact (nomatch haccepted)

def defaults (c : ObjectRecord) : Requested :=
  ⟨c.fiberCount % 2 ^ 32, c.heapBytes % 2 ^ 32, Nat.mod_lt _ (by decide),
    Nat.lt_of_lt_of_le (Nat.mod_lt _ (by decide)) (by decide)⟩

/-- Planned with the object's own defaults, the record stays as the compiler wrote it, and the map
keeps the entries the compiler gave it. -/
theorem host_plan_reproduces (m : LinkedModule) (o : Object) (hm : compile m = .ok o)
    (entries : Nat) :
    plan objectConfigSize (defaults o.record) ⟨o.record, entries⟩ =
      .ok () ⟨o.record, o.backendEntries⟩ := by
  obtain ⟨G, -, ho⟩ := compile_ok hm
  have hlt : G.memoryEnd o.record.heapBytes o.record.fiberCount < 2 ^ 32 :=
    ho.record.fits.memoryEnd_lt
  have hmax : o.record.maxFibers ≤ 65535 := ho.record.maxFibers_le
  have hcount := ho.record.fiberCount_le
  have hheap := G.heapEnd_le_stackBase o.record.heapBytes
  have hbytes : (defaults o.record).heapBytes = o.record.heapBytes := by
    unfold Geometry.heapEnd at hheap
    unfold Geometry.memoryEnd at hlt
    exact Nat.mod_eq_of_lt (by omega)
  have hfibers : (defaults o.record).fiberCount = o.record.fiberCount :=
    Nat.mod_eq_of_lt (by omega)
  have hpos := ho.record.fiberCount_pos
  rw [plan_eq ho.record.toDescribes (by omega) (Nat.le_refl _) (hfibers ▸ hcount), hbytes, hfibers,
    if_pos ho.record.fits]
  unfold planned
  rw [hbytes, hfibers, ← ho.record.stackBase, ← ho.record.memoryEnd, ← ho.entries]

/-- The fixed sample, planned with the values its record declares. -/
theorem host_plan_reproduces_sample :
    compile (sampleModule .fixed) = .ok sampleObject ∧
      plan objectConfigSize (defaults sampleObject.record) ⟨sampleObject.record, 0⟩ =
        .ok () ⟨sampleObject.record, sampleObject.backendEntries⟩ :=
  ⟨by decide, host_plan_reproduces (sampleModule .fixed) sampleObject (by decide) 0⟩

end BpfCapsule.Host

import BpfCapsule.Lib.Balance
import BpfCapsule.Stackify.RegionGraph
import BpfCapsule.Stackify.Regions

/-!
# BpfCapsule — allocation units and physical roots

The regions of a source function stay together as one allocation unit, unless they are too large
together: then they are spread over several. Units are scalar or borrowed-context, sorted by size, and
spread over the physical roots of their class, whose numbers the root policy chooses within the
kernel's limit on functions.

`ManagedModule.form` is the pass from the staging functions to the units and their roots.
`regions_partitioned` is what it guarantees, for every module it accepts.
-/

namespace BpfCapsule.Stackify

open scoped List

/-! ## Source units -/

def maxUnitLoad : Nat := 3500

def maxBpfFunctions : Nat := 256

structure SourceUnit where
  owner : Nat
  regions : List Region
  size : Nat
  borrowed : Bool

def SourceUnit.ofRegions (owner : Nat) (regions : List Region) : SourceUnit where
  owner := owner
  regions := regions
  size := (regions.map Region.size).sum
  borrowed := regions.any Region.borrowed

def SourceUnit.split (source : SourceUnit) : List SourceUnit :=
  if source.size ≤ maxUnitLoad ∨ source.regions.length ≤ 1 then [source]
  else
    let parts := min source.regions.length ((source.size + maxUnitLoad - 1) / maxUnitLoad)
    let sorted := source.regions.insertionSort fun a b => b.size ≤ a.size
    let placed := sorted.zip (Balance.greedy (List.replicate parts 0) (sorted.map Region.size))
    (List.range parts).map fun part =>
      let regions := (placed.filter (·.2 == part)).map Prod.fst
      { source with regions := regions, size := (regions.map Region.size).sum }

/-! ## The pass -/

/-- What the pass is given: the staging functions, with the provisional region IDs a counter handed
out; whether a scalar driver is needed, and how many functions are taken. -/
structure ManagedModule where
  stages : List Stage
  scalarDriver : Bool
  fixedMemory : Bool
  reservedFunctions : Nat
  ids_nodup : ((stages.flatMap Stage.states).map fun s => s.id).Nodup

/-- A unit of `CreateAllocationUnits` with what was placed in it. -/
structure PlacedUnit where
  source : SourceUnit
  borrowed : Bool
  outputRoot : Nat

def PlacedUnit.states (u : PlacedUnit) : List StageState := u.source.regions.flatMap Region.states

structure Partition where
  regions : List Region
  units : List PlacedUnit
  scalarRoots : Nat
  borrowedRoots : Nat

def largestFirst (sources : List SourceUnit) : List SourceUnit :=
  sources.insertionSort fun a b => b.size ≤ a.size

/-- `addRootClass`: a class without units has no roots. -/
def rootClass (sources : List SourceUnit) : List RootClass :=
  if sources.isEmpty then [] else [⟨sources.length, (sources.map SourceUnit.size).sum, 1⟩]

/-- The number of scalar and of borrowed-context roots. Every round of `splitRoots` spends part of the
budget, so the budget is fuel enough. -/
def rootCounts (budget : Nat) (scalar borrowed : List SourceUnit) : Option (Nat × Nat) :=
  let classes := rootClass scalar ++ rootClass borrowed
  if budget < classes.length then none
  else
    let left := budget - classes.length
    let counts := (splitRoots left left classes).map RootClass.roots
    some (if scalar.isEmpty then 0 else counts.headD 0, if borrowed.isEmpty then 0 else counts.getLastD 0)

/-- `placeSource` and `assignRoots`. -/
def placeUnits (borrowed : Bool) (roots : Nat) (sources : List SourceUnit) : List PlacedUnit :=
  (sources.zip (Balance.greedy (List.replicate roots 0) (sources.map SourceUnit.size))).map
    fun (source, root) => ⟨source, borrowed, root⟩

namespace ManagedModule

variable (m : ManagedModule)

def sources (regions : List (List Region)) : List SourceUnit :=
  ((regions.zipIdx.map fun (rs, owner) => SourceUnit.ofRegions owner rs).flatMap SourceUnit.split).map
    fun source => if m.scalarDriver then source else { source with borrowed := true }

def laterFunctions (scalar borrowed : List SourceUnit) : Nat :=
  (if scalar.isEmpty then 0 else 1) + (if borrowed.isEmpty then 0 else 1) +
    if m.fixedMemory then 8 else 2

/-- `FormRegionsAndCreateAllocationUnits` up to `PackRegionIds`, unless a fatal error stops it. -/
def form : Option Partition :=
  match formAll 0 m.stages with
  | none => none
  | some regions =>
    let sources := m.sources regions
    let scalar := largestFirst (sources.filter (!·.borrowed))
    let borrowed := largestFirst (sources.filter (·.borrowed))
    let taken := m.reservedFunctions + m.laterFunctions scalar borrowed
    if regions.flatten.isEmpty ∨ sources.any (·.regions.isEmpty) ∨ maxBpfFunctions < taken then none
    else
      (rootCounts (maxBpfFunctions - taken) scalar borrowed).map fun (scalarRoots, borrowedRoots) =>
        { regions := regions.flatten
          units := placeUnits false scalarRoots scalar ++ placeUnits true borrowedRoots borrowed
          scalarRoots := scalarRoots
          borrowedRoots := borrowedRoots }

/-- The class of a source function: borrowed-context if one of its regions uses the context, or if
there is no scalar driver. -/
def borrows (P : Partition) (owner : Nat) : Bool :=
  !m.scalarDriver || P.regions.any fun r => r.owner == owner && r.borrowed

end ManagedModule

/-! ## Units keep their regions -/

theorem SourceUnit.split_regions (source : SourceUnit) :
    source.split.flatMap SourceUnit.regions ~ source.regions := by
  unfold SourceUnit.split
  split
  · rw [List.flatMap_singleton]
  · rename_i hlarge
    simp only [List.flatMap_map]
    generalize hsorted : source.regions.insertionSort (fun a b => b.size ≤ a.size) = sorted
    have hperm : sorted ~ source.regions := by
      rw [← hsorted]
      exact List.perm_insertionSort _ _
    generalize hparts : min source.regions.length ((source.size + maxUnitLoad - 1) / maxUnitLoad) = parts
    have hpos : 0 < parts := by
      unfold maxUnitLoad at hparts hlarge
      omega
    have hlength : sorted.length ≤
        (Balance.greedy (List.replicate parts 0) (sorted.map Region.size)).length := by
      rw [Balance.length_greedy, List.length_map]
    have hkeys : ∀ x ∈ sorted.zip (Balance.greedy (List.replicate parts 0) (sorted.map Region.size)),
        x.2 < parts := by
      intro x hx
      have hbin := Balance.greedy_lt (by rw [List.length_replicate]; exact hpos) x.2
        (List.of_mem_zip hx).2
      rw [List.length_replicate] at hbin
      exact hbin
    have hall := (Balance.perm_of_keys Prod.snd hkeys).map Prod.fst
    rw [List.map_flatMap, List.map_fst_zip hlength] at hall
    exact hall.trans hperm

theorem SourceUnit.mem_split {source part : SourceUnit} (hpart : part ∈ source.split)
    (hsize : source.size = (source.regions.map Region.size).sum) :
    part.borrowed = source.borrowed ∧ part.size = (part.regions.map Region.size).sum := by
  unfold SourceUnit.split at hpart
  split at hpart
  · rw [List.mem_singleton] at hpart
    subst hpart
    exact ⟨rfl, hsize⟩
  · obtain ⟨index, -, rfl⟩ := List.mem_map.mp hpart
    exact ⟨rfl, rfl⟩

namespace ManagedModule

variable {m : ManagedModule} {all : List (List Region)}

theorem sources_regions : (m.sources all).flatMap SourceUnit.regions ~ all.flatten := by
  have hclass : ∀ source : SourceUnit,
      (if m.scalarDriver then source else { source with borrowed := true }).regions = source.regions := by
    intro source
    split <;> rfl
  have hsplit : ∀ sources : List SourceUnit,
      (sources.flatMap SourceUnit.split).flatMap SourceUnit.regions ~
        sources.flatMap SourceUnit.regions := by
    intro sources
    rw [List.flatMap_assoc]
    exact List.Perm.flatMap_left _ fun source _ => source.split_regions
  unfold sources
  rw [List.flatMap_map]
  simp only [hclass]
  refine (hsplit _).trans ?_
  rw [List.flatMap_map]
  show all.zipIdx.flatMap Prod.fst ~ all.flatten
  rw [List.flatMap_def, List.zipIdx_map_fst]

/-- Every source unit comes from one function: its regions, its class and its load. -/
theorem mem_sources {source : SourceUnit} (hsource : source ∈ m.sources all) :
    ∃ (f : Nat) (regions : List Region), all[f]? = some regions ∧
      source.borrowed = (!m.scalarDriver || regions.any Region.borrowed) ∧
      (∀ r ∈ source.regions, r ∈ regions) ∧
      source.size = (source.regions.map Region.size).sum := by
  obtain ⟨part, hpart, rfl⟩ := List.mem_map.mp hsource
  obtain ⟨whole, hwhole, hsplit⟩ := List.mem_flatMap.mp hpart
  obtain ⟨⟨regions, f⟩, hzip, rfl⟩ := List.mem_map.mp hwhole
  obtain ⟨hborrowed, hsize⟩ := SourceUnit.mem_split hsplit rfl
  have hregions : ∀ r ∈ part.regions, r ∈ regions := fun r hr =>
    (SourceUnit.split_regions _).subset (List.mem_flatMap.mpr ⟨part, hsplit, hr⟩)
  refine ⟨f, regions, List.mem_zipIdx_iff_getElem?.mp hzip, ?_, ?_, ?_⟩
  · cases m.scalarDriver with
    | true => exact hborrowed
    | false => rfl
  · cases m.scalarDriver with
    | true => exact hregions
    | false => exact hregions
  · cases m.scalarDriver with
    | true => exact hsize
    | false => exact hsize

end ManagedModule

/-! ## Roots -/

theorem placeUnits_source (borrowed : Bool) (roots : Nat) (sources : List SourceUnit) :
    (placeUnits borrowed roots sources).map PlacedUnit.source = sources := by
  unfold placeUnits
  rw [List.map_map]
  apply List.map_fst_zip
  rw [Balance.length_greedy, List.length_map]

variable {sources : List SourceUnit}

theorem mem_placeUnits {borrowed : Bool} {roots : Nat} {u : PlacedUnit}
    (hu : u ∈ placeUnits borrowed roots sources) (hroots : 0 < roots) :
    u.source ∈ sources ∧ u.borrowed = borrowed ∧ u.outputRoot < roots := by
  obtain ⟨⟨source, root⟩, hzip, rfl⟩ := List.mem_map.mp hu
  obtain ⟨hsource, hroot⟩ := List.of_mem_zip hzip
  have hlt := Balance.greedy_lt (by rw [List.length_replicate]; exact hroots) root hroot
  rw [List.length_replicate] at hlt
  exact ⟨hsource, rfl, hlt⟩

/-- With positive loads and no more roots than units, every root gets a unit. -/
theorem exists_placeUnits (borrowed : Bool) {roots root : Nat}
    (hloads : ∀ source ∈ sources, 0 < source.size) (hcount : roots ≤ sources.length)
    (hroot : root < roots) : ∃ u ∈ placeUnits borrowed roots sources, u.outputRoot = root := by
  have hmem : root ∈ Balance.greedy (List.replicate roots 0) (sources.map SourceUnit.size) := by
    refine Balance.greedy_covers ?_ ?_ hroot
    · intro weight hweight
      obtain ⟨source, hsource, rfl⟩ := List.mem_map.mp hweight
      exact hloads source hsource
    · rw [List.length_map]
      exact hcount
  obtain ⟨i, hi⟩ := List.mem_iff_getElem?.mp hmem
  have hlt : i < sources.length := by
    obtain ⟨hlt, -⟩ := List.getElem?_eq_some_iff.mp hi
    rw [Balance.length_greedy, List.length_map] at hlt
    exact hlt
  have hzip : (sources[i], root) ∈ sources.zip
      (Balance.greedy (List.replicate roots 0) (sources.map SourceUnit.size)) := by
    apply List.mem_of_getElem?
    rw [List.getElem?_zip_eq_some]
    exact ⟨List.getElem?_eq_getElem hlt, hi⟩
  exact ⟨_, List.mem_map_of_mem hzip, rfl⟩

/-- What the root policy gives a class: none without units, otherwise at least one, at most one for
each unit, and at most the cap. -/
structure RootsFit (roots : Nat) (sources : List SourceUnit) : Prop where
  pos : sources ≠ [] → 0 < roots
  le_units : roots ≤ sources.length
  le_cap : roots ≤ maxMergeRoots

theorem RootClass.Balanced.rootsFit {c : RootClass} (h : c.Balanced) (hne : sources ≠ [])
    (hunits : c.units = sources.length) : RootsFit c.roots sources := by
  have hpos := List.length_pos_iff.mpr hne
  have hdesired := desiredRoots_le_units c (by omega)
  have hcap := h.le
  obtain ⟨k, hroots, hle⟩ := h
  have hpow : 0 < 2 ^ k := Nat.two_pow_pos k
  exact ⟨fun _ => by omega, by omega, hcap⟩

theorem RootsFit.dispatcher_le {roots : Nat} (h : RootsFit roots sources) :
    min roots 1 ≤ if sources.isEmpty then 0 else 1 := by
  have hle := h.le_units
  cases sources with
  | nil => exact Nat.le_trans (Nat.min_le_left ..) hle
  | cons _ _ => exact Nat.min_le_right ..

theorem rootsFit_nil : RootsFit 0 [] := ⟨fun h => absurd rfl h, Nat.le_refl _, Nat.zero_le _⟩

theorem rootClass_of_ne_nil (hne : sources ≠ []) :
    rootClass sources = [⟨sources.length, (sources.map SourceUnit.size).sum, 1⟩] := by
  unfold rootClass
  rw [if_neg (by simpa using hne)]

theorem rootCounts_spec {budget scalarRoots borrowedRoots : Nat} {scalar borrowed : List SourceUnit}
    (h : rootCounts budget scalar borrowed = some (scalarRoots, borrowedRoots)) :
    RootsFit scalarRoots scalar ∧ RootsFit borrowedRoots borrowed ∧
      scalarRoots + borrowedRoots ≤ budget := by
  unfold rootCounts at h
  simp only at h
  split at h
  · cases h
  rename_i hbudget
  generalize hclasses : rootClass scalar ++ rootClass borrowed = classes at h hbudget
  generalize hout : splitRoots (budget - classes.length) (budget - classes.length) classes = out at h
  cases h
  have hstart : ∀ c ∈ classes, c.roots = 1 := by
    intro c hc
    rw [← hclasses] at hc
    unfold rootClass at hc
    rcases List.mem_append.mp hc with hc | hc
    all_goals
      split at hc
      · cases hc
      · rw [List.mem_singleton] at hc
        rw [hc]
  have hbalanced : ∀ c ∈ out, c.Balanced := hout ▸ splitRoots_balanced (balanced_of_start hstart)
  have hunits := splitRoots_units (budget - classes.length) (budget - classes.length) classes
  obtain ⟨left, -, hsum⟩ := splitRoots_spent hstart (budget - classes.length)
  rw [hout] at hunits hsum
  subst hclasses
  -- one case for each choice of classes that have units
  by_cases hscalar : scalar = []
  · subst hscalar
    by_cases hborrowed : borrowed = []
    · subst hborrowed
      exact ⟨rootsFit_nil, rootsFit_nil, Nat.zero_le _⟩
    · rw [rootClass_of_ne_nil hborrowed] at hunits hsum hbudget
      obtain ⟨c, rfl, hc⟩ := List.map_eq_singleton_iff.mp hunits
      have hfit := (hbalanced c List.mem_cons_self).rootsFit hborrowed hc
      simp only [List.isEmpty_nil, if_true, List.isEmpty_eq_false_iff.mpr hborrowed,
        Bool.false_eq_true, if_false]
      refine ⟨rootsFit_nil, hfit, ?_⟩
      simp [rootClass] at hsum hbudget ⊢
      omega
  · rw [rootClass_of_ne_nil hscalar] at hunits hsum hbudget
    by_cases hborrowed : borrowed = []
    · subst hborrowed
      obtain ⟨c, rfl, hc⟩ := List.map_eq_singleton_iff.mp hunits
      have hfit := (hbalanced c List.mem_cons_self).rootsFit hscalar hc
      simp only [List.isEmpty_nil, if_true, List.isEmpty_eq_false_iff.mpr hscalar,
        Bool.false_eq_true, if_false]
      refine ⟨hfit, rootsFit_nil, ?_⟩
      simp [rootClass] at hsum hbudget ⊢
      omega
    · rw [rootClass_of_ne_nil hborrowed] at hunits hsum hbudget
      obtain ⟨c, rest, rfl, hc, hrest⟩ := List.map_eq_cons_iff.mp hunits
      obtain ⟨d, rfl, hd⟩ := List.map_eq_singleton_iff.mp hrest
      have hfit := (hbalanced c List.mem_cons_self).rootsFit hscalar hc
      have hfit' := (hbalanced d (List.mem_cons_of_mem c List.mem_cons_self)).rootsFit hborrowed hd
      simp only [List.isEmpty_eq_false_iff.mpr hscalar, List.isEmpty_eq_false_iff.mpr hborrowed,
        Bool.false_eq_true, if_false]
      refine ⟨hfit, hfit', ?_⟩
      simp at hsum hbudget ⊢
      omega

/-! ## The partition -/

section Formed

variable {stages : List Stage} {all : List (List Region)} (h : formAll 0 stages = some all)

include h

theorem formed_of_stage {f : Nat} {g : Stage} (hg : stages[f]? = some g) :
    ∃ regions, all[f]? = some regions ∧ g.Formed f regions := by
  obtain ⟨regions, hregions, hformed⟩ := (formAll_spec h).2 f g hg
  rw [Nat.zero_add] at hformed
  exact ⟨regions, hregions, hformed⟩

theorem formed_of_regions {f : Nat} {regions : List Region} (hregions : all[f]? = some regions) :
    ∃ g, stages[f]? = some g ∧ g.Formed f regions := by
  obtain ⟨hlt, -⟩ := List.getElem?_eq_some_iff.mp hregions
  rw [(formAll_spec h).1] at hlt
  obtain ⟨found, hfound, hformed⟩ := formed_of_stage h (List.getElem?_eq_getElem hlt)
  rw [hregions] at hfound
  cases hfound
  exact ⟨_, List.getElem?_eq_getElem hlt, hformed⟩

/-- A region is among those of its owner. -/
theorem formed_of_mem {r : Region} (hr : r ∈ all.flatten) : ∃ g regions, stages[r.owner]? = some g ∧
    all[r.owner]? = some regions ∧ g.Formed r.owner regions ∧ r ∈ regions := by
  obtain ⟨regions, hregions, hmem⟩ := List.mem_flatten.mp hr
  obtain ⟨f, hf⟩ := List.mem_iff_getElem?.mp hregions
  obtain ⟨g, hg, hformed⟩ := formed_of_regions h hf
  have howner := hformed.owner_eq r hmem
  rw [howner]
  exact ⟨g, regions, hg, hf, hformed, hmem⟩

theorem mem_flatten_of_formed {f : Nat} {regions : List Region} (hregions : all[f]? = some regions)
    {r : Region} : r ∈ all.flatten ∧ r.owner = f ↔ r ∈ regions := by
  constructor
  · intro ⟨hr, howner⟩
    obtain ⟨g, found, -, hfound, -, hmem⟩ := formed_of_mem h hr
    rw [howner, hregions] at hfound
    cases hfound
    exact hmem
  · intro hr
    obtain ⟨g, -, hformed⟩ := formed_of_regions h hregions
    exact ⟨List.mem_flatten.mpr ⟨regions, List.mem_of_getElem? hregions, hr⟩, hformed.owner_eq r hr⟩

theorem nodup_regions : all.flatten.Nodup := by
  rw [List.nodup_flatten]
  constructor
  · intro regions hregions
    obtain ⟨f, hf⟩ := List.mem_iff_getElem?.mp hregions
    obtain ⟨g, -, hformed⟩ := formed_of_regions h hf
    exact hformed.nodup
  · -- regions of different functions have different owners
    rw [List.pairwise_iff_getElem]
    intro i j hi hj hij r hr hr'
    have howner := (mem_flatten_of_formed h (List.getElem?_eq_getElem hi)).mpr hr
    have howner' := (mem_flatten_of_formed h (List.getElem?_eq_getElem hj)).mpr hr'
    omega

end Formed

namespace ManagedModule

variable {m : ManagedModule} {P : Partition}

structure Forms (m : ManagedModule) (P : Partition) (all : List (List Region))
    (scalar borrowed : List SourceUnit) : Prop where
  formed : formAll 0 m.stages = some all
  regions : P.regions = all.flatten
  scalar_perm : scalar ~ (m.sources all).filter (!·.borrowed)
  borrowed_perm : borrowed ~ (m.sources all).filter (·.borrowed)
  nonempty : ∀ source ∈ m.sources all, source.regions ≠ []
  taken : m.reservedFunctions + m.laterFunctions scalar borrowed + P.scalarRoots + P.borrowedRoots ≤
    maxBpfFunctions
  scalarRoots : RootsFit P.scalarRoots scalar
  borrowedRoots : RootsFit P.borrowedRoots borrowed
  units : P.units = placeUnits false P.scalarRoots scalar ++ placeUnits true P.borrowedRoots borrowed

theorem forms (h : m.form = some P) : ∃ all scalar borrowed, m.Forms P all scalar borrowed := by
  unfold form at h
  split at h
  · cases h
  rename_i all hformed
  simp only at h
  split at h
  · cases h
  rename_i hchecks
  simp only [not_or] at hchecks
  obtain ⟨⟨scalarRoots, borrowedRoots⟩, hroots, rfl⟩ := Option.map_eq_some_iff.mp h
  obtain ⟨hscalar, hborrowed, hbudget⟩ := rootCounts_spec hroots
  refine ⟨all, largestFirst _, largestFirst _, hformed, rfl, List.perm_insertionSort _ _,
    List.perm_insertionSort _ _, ?_, ?_, hscalar, hborrowed, rfl⟩
  · intro source hsource hempty
    refine hchecks.2.1 (List.any_eq_true.mpr ⟨source, hsource, ?_⟩)
    rw [hempty]
    rfl
  · show _ + scalarRoots + borrowedRoots ≤ maxBpfFunctions
    omega

namespace Forms

variable {all : List (List Region)} {scalar borrowed : List SourceUnit}
  (h : m.Forms P all scalar borrowed)

include h

/-- The units hold the regions, each once. -/
theorem units_regions : P.units.flatMap (·.source.regions) ~ P.regions := by
  have hsources : scalar ++ borrowed ~ m.sources all :=
    (h.scalar_perm.append h.borrowed_perm).trans (by
      have hperm := List.filter_append_perm (fun s : SourceUnit => !s.borrowed) (m.sources all)
      simpa using hperm)
  have hmap : P.units.map PlacedUnit.source = scalar ++ borrowed := by
    rw [h.units, List.map_append, placeUnits_source, placeUnits_source]
  have hflat : P.units.flatMap (·.source.regions) = (P.units.map PlacedUnit.source).flatMap
      SourceUnit.regions := by
    rw [List.flatMap_map]
  rw [hflat, hmap, h.regions]
  exact (hsources.flatMap_right SourceUnit.regions).trans sources_regions

theorem nodup_units : (P.units.flatMap (·.source.regions)).Nodup := by
  rw [h.units_regions.nodup_iff, h.regions]
  exact nodup_regions h.formed

/-- A unit has the class of its source unit and one of the roots of that class. -/
theorem mem_units {u : PlacedUnit} (hu : u ∈ P.units) : u.source ∈ m.sources all ∧
    u.borrowed = u.source.borrowed ∧
    u.outputRoot < if u.borrowed then P.borrowedRoots else P.scalarRoots := by
  rw [h.units] at hu
  rcases List.mem_append.mp hu with hu | hu
  · have hne : scalar ≠ [] := by
      rw [← placeUnits_source false P.scalarRoots scalar]
      exact List.ne_nil_of_mem (List.mem_map_of_mem hu)
    obtain ⟨hsource, hclass, hroot⟩ := mem_placeUnits hu (h.scalarRoots.pos hne)
    have hmem := List.mem_filter.mp (h.scalar_perm.subset hsource)
    rw [hclass]
    refine ⟨hmem.1, ?_, hroot⟩
    simpa using hmem.2
  · have hne : borrowed ≠ [] := by
      rw [← placeUnits_source true P.borrowedRoots borrowed]
      exact List.ne_nil_of_mem (List.mem_map_of_mem hu)
    obtain ⟨hsource, hclass, hroot⟩ := mem_placeUnits hu (h.borrowedRoots.pos hne)
    have hmem := List.mem_filter.mp (h.borrowed_perm.subset hsource)
    rw [hclass]
    exact ⟨hmem.1, hmem.2.symm, hroot⟩

theorem size_pos {source : SourceUnit} (hsource : source ∈ m.sources all) : 0 < source.size := by
  obtain ⟨f, regions, hregions, -, hsub, hsize⟩ := mem_sources hsource
  obtain ⟨g, -, hformed⟩ := formed_of_regions h.formed hregions
  rw [hsize]
  apply List.sum_pos
  · intro size hmem
    obtain ⟨r, hr, rfl⟩ := List.mem_map.mp hmem
    exact hformed.size_pos r (hsub r hr)
  · rw [ne_eq, List.map_eq_nil_iff]
    exact h.nonempty source hsource

theorem root_used (cls : Bool) {root : Nat}
    (hroot : root < if cls then P.borrowedRoots else P.scalarRoots) :
    ∃ u ∈ P.units, u.borrowed = cls ∧ u.outputRoot = root := by
  rw [h.units]
  cases cls with
  | false =>
    obtain ⟨u, hu, hout⟩ := exists_placeUnits false
      (fun s hs => h.size_pos (List.mem_filter.mp (h.scalar_perm.subset hs)).1) h.scalarRoots.le_units hroot
    obtain ⟨-, hclass, -⟩ := mem_placeUnits hu (Nat.zero_lt_of_lt hroot)
    exact ⟨u, List.mem_append_left _ hu, hclass, hout⟩
  | true =>
    obtain ⟨u, hu, hout⟩ := exists_placeUnits true
      (fun s hs => h.size_pos (List.mem_filter.mp (h.borrowed_perm.subset hs)).1)
      h.borrowedRoots.le_units hroot
    obtain ⟨-, hclass, -⟩ := mem_placeUnits hu (Nat.zero_lt_of_lt hroot)
    exact ⟨u, List.mem_append_right _ hu, hclass, hout⟩

theorem borrowed_eq {u : PlacedUnit} (hu : u ∈ P.units) {r : Region} (hr : r ∈ u.source.regions) :
    u.borrowed = m.borrows P r.owner := by
  obtain ⟨hsource, hclass, -⟩ := h.mem_units hu
  obtain ⟨f, regions, hregions, hborrowed, hsub, -⟩ := mem_sources hsource
  have howner := ((mem_flatten_of_formed h.formed hregions).mpr (hsub r hr)).2
  have hany : (P.regions.any fun r => r.owner == f && r.borrowed) = regions.any Region.borrowed := by
    rw [Bool.eq_iff_iff, List.any_eq_true, List.any_eq_true, h.regions]
    constructor
    · intro ⟨x, hx, hcond⟩
      rw [Bool.and_eq_true, beq_iff_eq] at hcond
      exact ⟨x, (mem_flatten_of_formed h.formed hregions).mp ⟨hx, hcond.1⟩, hcond.2⟩
    · intro ⟨x, hx, hcond⟩
      have hflat := (mem_flatten_of_formed h.formed hregions).mpr hx
      exact ⟨x, hflat.1, by rw [hflat.2, hcond]; simp⟩
  unfold borrows
  rw [hclass, hborrowed, howner, hany]

end Forms

structure Partitioned (m : ManagedModule) (P : Partition) : Prop where
  block_region : ∀ (f : Nat) g, m.stages[f]? = some g → ∀ b, g.Reachable b →
    ∃! r, r ∈ P.regions ∧ r.owner = f ∧ b ∈ r.blocks
  region_unit : ∀ r ∈ P.regions, ∃! i : Nat, ∃ u, P.units[i]? = some u ∧ r ∈ u.source.regions
  unit_region : ∀ u ∈ P.units, u.source.regions ≠ [] ∧ ∀ r ∈ u.source.regions, r ∈ P.regions
  branch : ∀ r ∈ P.regions, ∀ g, m.stages[r.owner]? = some g →
    ∀ b ∈ r.blocks, ∀ c ∈ g.successors b, c ∈ r.blocks
  state_region : ∀ (f : Nat) g, m.stages[f]? = some g → ∀ s ∈ g.states,
    ∃! r, r ∈ P.regions ∧ s ∈ r.states ∧ r.owner = f ∧ s.root ∈ r.blocks
  state_unit : ∀ (f : Nat) g, m.stages[f]? = some g → ∀ s ∈ g.states,
    ∃! i : Nat, ∃ u, P.units[i]? = some u ∧ s ∈ u.states
  /-- A unit has one class, that of the functions of all its regions. -/
  unit_class : ∀ u ∈ P.units, ∀ r ∈ u.source.regions,
    u.borrowed = m.borrows P r.owner ∧ (r.borrowed = true → u.borrowed = true)
  /-- The roots fit next to the functions that are there or will be; a class with roots gets a
  dispatcher besides. -/
  roots_le : m.reservedFunctions + (if m.fixedMemory then 8 else 2) + (P.scalarRoots +
      min P.scalarRoots 1) + (P.borrowedRoots + min P.borrowedRoots 1) ≤ maxBpfFunctions ∧
    P.scalarRoots ≤ maxMergeRoots ∧ P.borrowedRoots ≤ maxMergeRoots
  root_lt : ∀ u ∈ P.units, u.outputRoot < if u.borrowed then P.borrowedRoots else P.scalarRoots
  root_used : ∀ cls root, (root < if cls then P.borrowedRoots else P.scalarRoots) →
    ∃ u ∈ P.units, u.borrowed = cls ∧ u.outputRoot = root

/-- A state belongs to one function. -/
theorem stage_unique {f f' : Nat} {g g' : Stage} {s : StageState} (hg : m.stages[f]? = some g)
    (hg' : m.stages[f']? = some g') (hs : s ∈ g.states) (hs' : s ∈ g'.states) : f = f' := by
  have hmem : s ∈ m.stages.flatMap Stage.states :=
    List.mem_flatMap.mpr ⟨g, List.mem_of_getElem? hg, hs⟩
  have hunique := Balance.existsUnique_bin (m.ids_nodup.of_map _) hmem
  exact hunique.unique ⟨g, hg, hs⟩ ⟨g', hg', hs'⟩

/-- **Regions and units partition the module.** Whenever the pass gets through: every reachable block
is in one region and every region in one unit, no branch leaves its region, every state is in one
region, with its root, and in one unit, a unit has one class, and the physical roots respect their
limits and all have a unit. -/
theorem regions_partitioned (m : ManagedModule) (P : Partition) (h : m.form = some P) :
    m.Partitioned P := by
  obtain ⟨all, scalar, borrowed, h⟩ := forms h
  have hunits := h.units_regions
  have hnodup := h.nodup_units
  have hflat := h.regions
  -- a state's region, and that there is no other
  have hstate : ∀ (f : Nat) g, m.stages[f]? = some g → ∀ s ∈ g.states,
      ∃! r, r ∈ P.regions ∧ s ∈ r.states ∧ r.owner = f ∧ s.root ∈ r.blocks := by
    intro f g hg s hs
    obtain ⟨regions, hregions, hformed⟩ := formed_of_stage h.formed hg
    obtain ⟨r, hr, hsr⟩ := hformed.state s hs
    have hroot := (hformed.state_root r hr s hsr).2
    have hmem := (mem_flatten_of_formed h.formed hregions).mpr hr
    rw [hflat]
    refine ⟨r, ⟨hmem.1, hsr, hmem.2, hroot⟩, fun r' ⟨hr', _, howner, hroot'⟩ => ?_⟩
    have hr' := (mem_flatten_of_formed h.formed hregions).mp ⟨hr', howner⟩
    exact hformed.block_unique r' hr' r hr _ hroot' hroot
  have hregionUnit : ∀ r ∈ P.regions, ∃! i : Nat, ∃ u, P.units[i]? = some u ∧
      r ∈ u.source.regions := fun r hr =>
    Balance.existsUnique_bin hnodup (hunits.mem_iff.mpr hr)
  have hunitRegion : ∀ u ∈ P.units, ∀ r ∈ u.source.regions, r ∈ P.regions := fun u hu r hr =>
    hunits.subset (List.mem_flatMap.mpr ⟨u, hu, hr⟩)
  constructor
  case block_region =>
    intro f g hg b hb
    obtain ⟨regions, hregions, hformed⟩ := formed_of_stage h.formed hg
    obtain ⟨r, hr, hbr⟩ := hformed.reachable b hb
    have hmem := (mem_flatten_of_formed h.formed hregions).mpr hr
    rw [hflat]
    refine ⟨r, ⟨hmem.1, hmem.2, hbr⟩, fun r' ⟨hr', howner, hbr'⟩ => ?_⟩
    have hr' := (mem_flatten_of_formed h.formed hregions).mp ⟨hr', howner⟩
    exact hformed.block_unique r' hr' r hr b hbr' hbr
  case region_unit => exact hregionUnit
  case unit_region =>
    intro u hu
    exact ⟨h.nonempty _ (h.mem_units hu).1, hunitRegion u hu⟩
  case branch =>
    intro r hr g hg b hb c hc
    rw [hflat] at hr
    obtain ⟨g', regions, hg', -, hformed, hmem⟩ := formed_of_mem h.formed hr
    rw [hg] at hg'
    cases hg'
    exact hformed.branch r hmem b hb c hc
  case state_region => exact hstate
  case state_unit =>
    intro f g hg s hs
    obtain ⟨r, ⟨hr, hsr, -, -⟩, hrunique⟩ := hstate f g hg s hs
    obtain ⟨i, ⟨u, hu, hru⟩, hiunique⟩ := hregionUnit r hr
    refine ⟨i, ⟨u, hu, List.mem_flatMap.mpr ⟨r, hru, hsr⟩⟩, ?_⟩
    rintro j ⟨u', hu', hs'⟩
    obtain ⟨r', hr', hsr'⟩ := List.mem_flatMap.mp hs'
    have hmem := hunitRegion u' (List.mem_of_getElem? hu') r' hr'
    -- the state tells the function and its root tells the region
    have heq : r' = r := by
      have hflat' := hmem
      rw [hflat] at hflat'
      obtain ⟨g', regions, hg', -, hformed, hin⟩ := formed_of_mem h.formed hflat'
      obtain ⟨hsg, hroot⟩ := hformed.state_root r' hin s hsr'
      exact hrunique r' ⟨hmem, hsr', stage_unique hg' hg hsg hs, hroot⟩
    exact hiunique j ⟨u', hu', heq ▸ hr'⟩
  case unit_class =>
    intro u hu r hr
    have hclass := h.borrowed_eq hu hr
    refine ⟨hclass, fun hborrowed => ?_⟩
    rw [hclass, borrows, Bool.or_eq_true]
    refine .inr (List.any_eq_true.mpr ⟨r, hunitRegion u hu r hr, ?_⟩)
    rw [hborrowed]
    simp
  case roots_le =>
    have htaken := h.taken
    have hscalar := h.scalarRoots.dispatcher_le
    have hborrowed := h.borrowedRoots.dispatcher_le
    unfold laterFunctions at htaken
    exact ⟨by omega, h.scalarRoots.le_cap, h.borrowedRoots.le_cap⟩
  case root_lt => exact fun u hu => (h.mem_units hu).2.2
  case root_used => exact fun cls root hroot => h.root_used cls hroot

end ManagedModule

def twoFunctions : ManagedModule where
  stages := [
    { entry := 0
      blocks := [⟨1, [2], false, false, [], by decide⟩, ⟨2, [2], false, false, [0], Nat.two_pos⟩,
        ⟨3, [], false, false, [0], by decide⟩, ⟨1, [4], false, false, [0], by decide⟩,
        ⟨2, [], false, false, [3], Nat.two_pos⟩, ⟨1, [], false, false, [], by decide⟩]
      states := [⟨⟨1, .entry⟩, 1⟩, ⟨⟨3, .call⟩, 3⟩]
      successors_lt := by simp
      entry_unreached := by simp },
    { entry := 0
      blocks := [⟨1, [1], false, false, [], by decide⟩, ⟨4, [], true, false, [0], by decide⟩]
      states := [⟨⟨2, .entry⟩, 1⟩]
      successors_lt := by simp
      entry_unreached := by simp }]
  scalarDriver := true
  fixedMemory := false
  reservedFunctions := 10
  ids_nodup := by decide

/-- The first function is cut at its resume state, the second is one region. -/
theorem regions_partitioned_twoFunctions : ∃ P, twoFunctions.form = some P ∧
    P.regions.map Region.blocks = [[1, 2], [3, 4], [1]] ∧ P.units.length = 2 ∧
    twoFunctions.Partitioned P :=
  ⟨_, rfl, by decide, by decide, ManagedModule.regions_partitioned twoFunctions _ rfl⟩

end BpfCapsule.Stackify

import BpfCapsule.Lib.Components
import BpfCapsule.Stackify.Dispatch
import Mathlib.Algebra.Order.BigOperators.Group.List
import Mathlib.Algebra.Order.Ring.Nat

/-!
# BpfCapsule — forming regions

After its suspension points have become returns, a managed function is a staging function whose blocks
fall apart into pieces that no branch connects. `FormRegionsAndCreateAllocationUnits` collects the
pieces, gives every state to the piece with its root and deletes the pieces without a state.

`Stage.formRegions` is that part of the pass for one function, `formAll` for all of them.
`FormedRegions` says what comes out: no branch leaves a region, no block is in two, every state has
its region, and every reachable block is still there.
-/

namespace BpfCapsule.Stackify

open Components

/-! ## Staging functions -/

/-- A block of a staging function: its instruction count, where it branches to, whether it calls the
borrowed-context intrinsic, whether its address is taken, and the blocks whose instructions it uses,
native helper allocas apart. -/
structure StageBlock where
  size : Nat
  successors : List Nat
  usesContext : Bool
  addressTaken : Bool
  operands : List Nat
  size_pos : 0 < size

/-- `ManagedFunction::State`. -/
structure StageState extends RegionState where
  root : Nat
  deriving DecidableEq, Repr

/-- `ManagedFunction` with its body in the staging function. A block is named by its position; `entry`
is the temporary frame setup block, the entry block of the function, so nothing branches to it. -/
structure Stage where
  entry : Nat
  blocks : List StageBlock
  states : List StageState
  successors_lt : ∀ block ∈ blocks, ∀ b ∈ block.successors, b < blocks.length
  entry_unreached : ∀ block ∈ blocks, entry ∉ block.successors

/-- `Region`; its unit is chosen later. -/
structure Region where
  owner : Nat
  blocks : List Nat
  size : Nat
  borrowed : Bool
  states : List StageState
  deriving DecidableEq

namespace Stage

variable (g : Stage)

def successors (b : Nat) : List Nat := (g.blocks[b]?.map StageBlock.successors).getD []

def predecessors (b : Nat) : List Nat :=
  (List.range g.blocks.length).filter fun p => g.successors p |>.contains b

def adjacent (b : Nat) : List Nat :=
  (g.successors b ++ g.predecessors b).filter (· ≠ g.entry)

def body : List Nat := (List.range g.blocks.length).filter (· ≠ g.entry)

def pieces : List (List Nat) := components g.adjacent g.body.length g.body

def region (owner : Nat) (piece : List Nat) : Region where
  owner := owner
  blocks := piece
  size := (piece.map fun b => (g.blocks[b]?.map StageBlock.size).getD 0).sum
  borrowed := piece.any fun b => (g.blocks[b]?.map StageBlock.usesContext).getD false
  states := g.states.filter fun s => piece.contains s.root

def crosses (regions : List Region) : Bool :=
  regions.any fun r => r.blocks.any fun b =>
    ((g.blocks[b]?.map StageBlock.operands).getD []).any fun d =>
      d ≠ g.entry && regions.any fun definer => definer.blocks.contains d && definer != r

/-- The regions of one function, unless a fatal error stops the pass: a state without a region, an
address taken in a piece to be deleted, or a value that crosses regions. -/
def formRegions (owner : Nat) : Option (List Region) :=
  let regions := g.pieces.map (g.region owner)
  let dead := regions.filter (·.states.isEmpty)
  let dispatchable := regions.filter (!·.states.isEmpty)
  if g.states.any fun s => !g.pieces.any (·.contains s.root) then none
  else if dead.any fun r => r.blocks.any fun b =>
      (g.blocks[b]?.map StageBlock.addressTaken).getD false then none
  else if g.crosses dispatchable then none
  else some dispatchable

/-- What can run: the roots of the states and where they branch to. -/
inductive Reachable : Nat → Prop where
  | root {s : StageState} (hs : s ∈ g.states) : Reachable s.root
  | branch {b c : Nat} (hb : Reachable b) (hc : c ∈ g.successors b) : Reachable c

variable {g}

/-! ## The pieces of a function -/

theorem mem_successors {b c : Nat} (hc : c ∈ g.successors b) :
    b < g.blocks.length ∧ c < g.blocks.length ∧ c ≠ g.entry := by
  unfold successors at hc
  cases hb : g.blocks[b]? with
  | none =>
    rw [hb] at hc
    cases hc
  | some block =>
    rw [hb] at hc
    have hmem := List.mem_of_getElem? hb
    refine ⟨(List.getElem?_eq_some_iff.mp hb).1, g.successors_lt block hmem c hc, ?_⟩
    rintro rfl
    exact g.entry_unreached block hmem hc

theorem mem_body {b : Nat} : b ∈ g.body ↔ b < g.blocks.length ∧ b ≠ g.entry := by
  simp [body]

theorem nodup_body : g.body.Nodup := List.nodup_range.filter _

theorem mem_predecessors {a b : Nat} : a ∈ g.predecessors b ↔ b ∈ g.successors a := by
  simp only [predecessors, List.mem_filter, List.mem_range, List.contains_iff_mem]
  exact ⟨fun h => h.2, fun h => ⟨(mem_successors h).1, h⟩⟩

/-- Two blocks of the body are adjacent when one branches to the other. -/
theorem mem_adjacent {a b : Nat} (ha : a ∈ g.body) :
    a ∈ g.adjacent b ↔ a ∈ g.successors b ∨ b ∈ g.successors a := by
  simp only [adjacent, List.mem_filter, List.mem_append, mem_predecessors, decide_eq_true_eq]
  exact ⟨fun h => h.1, fun h => ⟨h, (mem_body.mp ha).2⟩⟩

theorem pieces_spec : Pieces g.adjacent g.body g.pieces :=
  components_spec nodup_body (Nat.le_refl _)

variable {piece : List Nat}

theorem successor_mem_piece {b c : Nat} (hpiece : piece ∈ g.pieces) (hb : b ∈ piece)
    (hc : c ∈ g.successors b) : c ∈ piece := by
  obtain ⟨-, hlt, hne⟩ := mem_successors hc
  have hbody : c ∈ g.body := mem_body.mpr ⟨hlt, hne⟩
  refine pieces_spec.mem_of_adj ?_ hpiece hb ((mem_adjacent hbody).mpr (.inl hc)) hbody
  intro a ha b hb hab
  rw [mem_adjacent hb]
  exact ((mem_adjacent ha).mp hab).symm

/-! ## The regions of a function -/

variable {owner : Nat} {regions : List Region}

/-- What a function's regions are when no fatal error stops the pass. -/
theorem formRegions_eq (h : g.formRegions owner = some regions) :
    regions = (g.pieces.map (g.region owner)).filter (!·.states.isEmpty) ∧
      ∀ s ∈ g.states, ∃ piece ∈ g.pieces, s.root ∈ piece := by
  unfold formRegions at h
  simp only at h
  split at h
  · cases h
  rename_i hstates
  split at h
  · cases h
  split at h
  · cases h
  cases h
  refine ⟨rfl, fun s hs => ?_⟩
  simp only [List.any_eq_true, not_exists, not_and, Bool.not_eq_true, Bool.not_eq_false',
    List.contains_iff_mem] at hstates
  exact hstates s hs

theorem mem_formRegions (h : g.formRegions owner = some regions) {r : Region} :
    r ∈ regions ↔ ∃ piece ∈ g.pieces, r = g.region owner piece ∧ r.states ≠ [] := by
  rw [(formRegions_eq h).1, List.mem_filter, List.mem_map]
  simp only [Bool.not_eq_true', List.isEmpty_eq_false_iff]
  constructor
  · rintro ⟨⟨piece, hpiece, rfl⟩, hstates⟩
    exact ⟨piece, hpiece, rfl, hstates⟩
  · rintro ⟨piece, hpiece, rfl, hstates⟩
    exact ⟨⟨piece, hpiece, rfl⟩, hstates⟩

theorem mem_region_states {s : StageState} :
    s ∈ (g.region owner piece).states ↔ s ∈ g.states ∧ s.root ∈ piece := by
  simp [region]

structure Formed (g : Stage) (owner : Nat) (regions : List Region) : Prop where
  nodup : regions.Nodup
  owner_eq : ∀ r ∈ regions, r.owner = owner
  block_unique : ∀ r ∈ regions, ∀ r' ∈ regions, ∀ b ∈ r.blocks, b ∈ r'.blocks → r = r'
  branch : ∀ r ∈ regions, ∀ b ∈ r.blocks, ∀ c ∈ g.successors b, c ∈ r.blocks
  reachable : ∀ b, g.Reachable b → ∃ r ∈ regions, b ∈ r.blocks
  state : ∀ s ∈ g.states, ∃ r ∈ regions, s ∈ r.states
  state_root : ∀ r ∈ regions, ∀ s ∈ r.states, s ∈ g.states ∧ s.root ∈ r.blocks
  size_pos : ∀ r ∈ regions, 0 < r.size

theorem region_size_pos (hpiece : piece ∈ g.pieces) : 0 < (g.region owner piece).size := by
  obtain ⟨b, hb⟩ := List.exists_mem_of_ne_nil piece (pieces_spec.nonempty piece hpiece)
  obtain ⟨hlt, -⟩ := mem_body.mp (pieces_spec.mem_iff.mpr ⟨piece, hpiece, hb⟩)
  have hsize : 0 < (g.blocks[b]?.map StageBlock.size).getD 0 := by
    rw [List.getElem?_eq_getElem hlt]
    exact g.blocks[b].size_pos
  have hle : (g.blocks[b]?.map StageBlock.size).getD 0 ≤ (g.region owner piece).size :=
    List.le_sum_of_mem (List.mem_map_of_mem hb)
  omega

theorem formed (h : g.formRegions owner = some regions) : Formed g owner regions := by
  have hmem := fun r => mem_formRegions h (r := r)
  have hspec := g.pieces_spec
  -- a state's region is kept, as it has that state
  have hstate : ∀ s ∈ g.states, ∃ r ∈ regions, s ∈ r.states ∧ s.root ∈ r.blocks := by
    intro s hs
    obtain ⟨piece, hpiece, hroot⟩ := (formRegions_eq h).2 s hs
    have hs' : s ∈ (g.region owner piece).states := mem_region_states.mpr ⟨hs, hroot⟩
    exact ⟨_, (hmem _).mpr ⟨piece, hpiece, rfl, List.ne_nil_of_mem hs'⟩, hs', hroot⟩
  have hbranch : ∀ r ∈ regions, ∀ b ∈ r.blocks, ∀ c ∈ g.successors b, c ∈ r.blocks := by
    intro r hr b hb c hc
    obtain ⟨piece, hpiece, rfl, -⟩ := (hmem r).mp hr
    exact successor_mem_piece hpiece hb hc
  constructor
  case nodup =>
    rw [(formRegions_eq h).1]
    refine List.Nodup.filter _ (List.Nodup.map_on ?_ (hspec.nodup nodup_body))
    intro piece _ piece' _ heq
    exact congrArg Region.blocks heq
  case owner_eq =>
    intro r hr
    obtain ⟨piece, -, rfl, -⟩ := (hmem r).mp hr
    rfl
  case block_unique =>
    intro r hr r' hr' b hb hb'
    obtain ⟨piece, hpiece, rfl, -⟩ := (hmem r).mp hr
    obtain ⟨piece', hpiece', rfl, -⟩ := (hmem r').mp hr'
    rw [hspec.eq_of_mem nodup_body hpiece hpiece' hb hb']
  case branch => exact hbranch
  case reachable =>
    intro b hb
    induction hb with
    | root hs =>
      obtain ⟨r, hr, -, hroot⟩ := hstate _ hs
      exact ⟨r, hr, hroot⟩
    | branch _ hc ih =>
      obtain ⟨r, hr, hb⟩ := ih
      exact ⟨r, hr, hbranch r hr _ hb _ hc⟩
  case state =>
    intro s hs
    obtain ⟨r, hr, hs, -⟩ := hstate s hs
    exact ⟨r, hr, hs⟩
  case state_root =>
    intro r hr s hs
    obtain ⟨piece, -, rfl, -⟩ := (hmem r).mp hr
    exact mem_region_states.mp hs
  case size_pos =>
    intro r hr
    obtain ⟨piece, hpiece, rfl, -⟩ := (hmem r).mp hr
    exact region_size_pos hpiece

end Stage

/-! ## All functions -/

/-- The regions of every function, from the function at `owner` on. -/
def formAll : (owner : Nat) → List Stage → Option (List (List Region))
  | _, [] => some []
  | owner, g :: stages =>
    match g.formRegions owner, formAll (owner + 1) stages with
    | some regions, some rest => some (regions :: rest)
    | _, _ => none

theorem formAll_spec {owner : Nat} {stages : List Stage} {all : List (List Region)}
    (h : formAll owner stages = some all) : all.length = stages.length ∧
      ∀ (f : Nat) (g : Stage), stages[f]? = some g →
        ∃ regions, all[f]? = some regions ∧ g.Formed (owner + f) regions := by
  induction stages generalizing owner all with
  | nil =>
    cases h
    exact ⟨rfl, fun f g hg => by cases hg⟩
  | cons g stages ih =>
    unfold formAll at h
    split at h
    · rename_i regions rest hregions hrest
      cases h
      obtain ⟨hlength, hformed⟩ := ih hrest
      refine ⟨by rw [List.length_cons, List.length_cons, hlength], fun f g' hg => ?_⟩
      cases f with
      | zero =>
        cases hg
        exact ⟨regions, rfl, Stage.formed hregions⟩
      | succ f =>
        obtain ⟨found, hfound, hform⟩ := hformed f g' hg
        rw [Nat.add_assoc, Nat.add_comm 1 f] at hform
        exact ⟨found, hfound, hform⟩
    · cases h

end BpfCapsule.Stackify

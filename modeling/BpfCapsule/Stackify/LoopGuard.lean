import BpfCapsule.Abi
import BpfCapsule.Ir.Flow
import Mathlib.Data.List.Induction

/-!
# BpfCapsule — guards of native loops

`GuardNativeLoop` gives a loop that stays native a bound the kernel can see: a counter in its header, a
guard block on its backedge that counts and compares, and one block per function that aborts when the
bound is passed. The pass runs over the loops of a function one by one; `guardNativeLoops_perm` is what
the function looks like after all of them.
-/

namespace BpfCapsule.LoopGuard

open BpfCapsule.Flow
open scoped List

/-- The blocks of the function and those the pass creates: `<header>.bound` and
`bpf.loop.bound.fail`. -/
inductive Label where
  | source (block : Nat)
  | bound (header : Nat)
  | fail
  deriving DecidableEq

/-- The registers of the function and those of the guard of a loop. -/
inductive Reg where
  | source (register : Nat)
  | iter (header : Nat)
  | iterNext (header : Nat)
  | iterVisible (header : Nat)
  | more (header : Nat)
  deriving DecidableEq

/-- A loop to be guarded; `ClassifyLoops` offers none without a bound. -/
structure GuardCandidate where
  header : Nat
  latch : Nat
  preheader : Nat
  trips : Nat
  trips_pos : 0 < trips
  trips_lt : trips < 2 ^ 32

abbrev SourceBlocks (X σ : Type) := Blocks Nat Nat X σ

abbrev GuardedBlocks (X σ : Type) := Blocks Reg Label X σ

variable {X σ : Type}

/-! ## The pass -/

def failBlock (null : Option (Value X)) : Block Reg Label X σ where
  phis := []
  body := [.outcome (outcomeValue (BitVec.ofInt 32 CapsuleError.intrinsicGuard))]
  term := .ret (null.map .const)

/-- `Instruction::replaceSuccessorWith`. -/
def replaceSuccessor (old new : Label) : Term Reg Label X → Term Reg Label X
  | .jump uses choose successors =>
    .jump uses choose (successors.map fun target => if target = old then new else target)
  | .ret value => .ret value

/-- `PHINode::replaceIncomingBlockWith`. -/
def replaceIncomingBlock (old new : Label) (phi : Phi Reg Label X) : Phi Reg Label X :=
  { phi with incoming := phi.incoming.map fun entry => (if entry.1 = old then new else entry.1, entry.2) }

/-- `BasicBlock::Create` with a block to stand before. -/
def insertBefore (label : Label) (entry : Label × Block Reg Label X σ) :
    GuardedBlocks X σ → GuardedBlocks X σ
  | [] => [entry]
  | e :: blocks => if e.1 = label then entry :: e :: blocks else e :: insertBefore label entry blocks

namespace GuardCandidate

variable (loop : GuardCandidate)

def counter : Phi Reg Label X where
  dest := .iter loop.header
  incoming := [(.source loop.preheader, .const (.int 32 0)),
    (.bound loop.header, .reg (.iterNext loop.header))]

def guardBlock : Block Reg Label X σ where
  phis := []
  body :=
    [.add (.iterNext loop.header) (.reg (.iter loop.header)) (.const (.int 32 1)),
      .identity (.iterVisible loop.header) (.reg (.iterNext loop.header)),
      .icmpUlt (.more loop.header) (.reg (.iterVisible loop.header))
        (.const (.int 32 (BitVec.ofNat 32 loop.trips)))]
  term := .condBr (.reg (.more loop.header)) (.source loop.header) .fail

def rewireHeader (block : Block Reg Label X σ) : Block Reg Label X σ :=
  { block with
    phis := loop.counter ::
      block.phis.map (replaceIncomingBlock (.source loop.latch) (.bound loop.header)) }

def rewireLatch (block : Block Reg Label X σ) : Block Reg Label X σ :=
  { block with term := replaceSuccessor (.source loop.header) (.bound loop.header) block.term }

def rewire (entry : Label × Block Reg Label X σ) : Label × Block Reg Label X σ :=
  let block := if entry.1 = .source loop.header then loop.rewireHeader entry.2 else entry.2
  (entry.1, if entry.1 = .source loop.latch then loop.rewireLatch block else block)

end GuardCandidate

def withFail (null : Option (Value X)) (blocks : GuardedBlocks X σ) : GuardedBlocks X σ :=
  if blocks.any fun entry => entry.1 = .fail then blocks else blocks ++ [(.fail, failBlock null)]

def guardNativeLoop (null : Option (Value X)) (blocks : GuardedBlocks X σ) (loop : GuardCandidate) :
    GuardedBlocks X σ :=
  insertBefore .fail (.bound loop.header, loop.guardBlock) ((withFail null blocks).map loop.rewire)

def embed (blocks : SourceBlocks X σ) : GuardedBlocks X σ :=
  blocks.map fun entry => (.source entry.1, entry.2.rename .source .source .source)

def guardNativeLoops (null : Option (Value X)) (loops : List GuardCandidate)
    (blocks : SourceBlocks X σ) : GuardedBlocks X σ :=
  loops.foldl (guardNativeLoop null) (embed blocks)

/-! ## The guarded function -/

section

variable (loops : List GuardCandidate)

/-- What a PHI of block `b` calls its predecessor `p`: the backedge comes from the guard. -/
def predLabel (b p : Nat) : Label :=
  if loops.any fun loop => loop.header = b ∧ loop.latch = p then .bound b else .source p

/-- Where the edge from `b` to `t` leads. -/
def succLabel (b t : Nat) : Label :=
  if loops.any fun loop => loop.latch = b ∧ loop.header = t then .bound t else .source t

def counters (b : Nat) : List (Phi Reg Label X) :=
  ((loops.find? fun loop => loop.header = b).map GuardCandidate.counter).toList

def guardedBlock (b : Nat) (block : Block Nat Nat X σ) : Block Reg Label X σ where
  phis := counters loops b ++ block.phis.map (Phi.rename .source (predLabel loops b))
  body := block.body.map (Inst.rename .source)
  term := block.term.rename .source (succLabel loops b)

def guardedSources (blocks : SourceBlocks X σ) : GuardedBlocks X σ :=
  blocks.map fun entry => (.source entry.1, guardedBlock loops entry.1 entry.2)

def guardBlocks : GuardedBlocks X σ := loops.map fun loop => (.bound loop.header, loop.guardBlock)

def guarded (null : Option (Value X)) (blocks : SourceBlocks X σ) : GuardedBlocks X σ :=
  guardedSources loops blocks ++ guardBlocks loops ++ [(.fail, failBlock null)]

end

/-! ## One guard more -/

theorem insertBefore_perm (label : Label) (entry : Label × Block Reg Label X σ)
    (blocks : GuardedBlocks X σ) : insertBefore label entry blocks ~ entry :: blocks := by
  induction blocks with
  | nil => exact .refl _
  | cons e blocks ih =>
    unfold insertBefore
    split
    · exact .refl _
    · exact (ih.cons e).trans (.swap entry e blocks)

theorem withFail_perm {blocks blocks' : GuardedBlocks X σ} (null : Option (Value X))
    (h : blocks ~ blocks') : withFail null blocks ~ withFail null blocks' := by
  unfold withFail
  rw [h.any_eq]
  split
  · exact h
  · exact h.append_right _

variable {loops : List GuardCandidate} {loop : GuardCandidate}

theorem predLabel_concat (b p : Nat) : predLabel (loops ++ [loop]) b p =
    if loop.header = b ∧ loop.latch = p then .bound b else predLabel loops b p := by
  unfold predLabel
  by_cases h : loop.header = b ∧ loop.latch = p <;> simp [h]

theorem succLabel_concat (b t : Nat) : succLabel (loops ++ [loop]) b t =
    if loop.latch = b ∧ loop.header = t then .bound t else succLabel loops b t := by
  unfold succLabel
  by_cases h : loop.latch = b ∧ loop.header = t <;> simp [h]

theorem predLabel_of_not_mem {b : Nat} (h : b ∉ loops.map GuardCandidate.header) (p : Nat) :
    predLabel loops b p = .source p := by
  refine if_neg ?_
  simp only [List.any_eq_true, decide_eq_true_iff, not_exists, not_and]
  intro loop hmem hheader
  exact absurd (hheader ▸ List.mem_map_of_mem hmem) h

theorem succLabel_of_not_mem {t : Nat} (h : t ∉ loops.map GuardCandidate.header) (b : Nat) :
    succLabel loops b t = .source t := by
  refine if_neg ?_
  simp only [List.any_eq_true, decide_eq_true_iff, not_exists, not_and]
  intro loop hmem _ hheader
  exact h (hheader ▸ List.mem_map_of_mem hmem)

theorem succLabel_eq_source_iff {b t s : Nat} (h : s ∉ loops.map GuardCandidate.header) :
    succLabel loops b t = .source s ↔ t = s := by
  constructor
  · unfold succLabel
    split
    · nofun
    · intro heq
      exact Label.source.inj heq
  · rintro rfl
    exact succLabel_of_not_mem h b

theorem counters_concat (b : Nat) (h : loop.header ∉ loops.map GuardCandidate.header) :
    (counters (loops ++ [loop]) b : List (Phi Reg Label X)) =
      if loop.header = b then [loop.counter] else counters loops b := by
  unfold counters
  split
  · rename_i heq
    have hnone : loops.find? (fun l => l.header = b) = none := by
      rw [List.find?_eq_none]
      intro l hl hlb
      apply h
      rw [heq, ← of_decide_eq_true hlb]
      exact List.mem_map_of_mem hl
    simp [hnone, heq]
  · rename_i hne
    simp [hne]

/-- A guard more, for a source block. -/
theorem rewire_guardedBlock (h : loop.header ∉ loops.map GuardCandidate.header) (b : Nat)
    (block : Block Nat Nat X σ) :
    loop.rewire (.source b, guardedBlock loops b block) =
      (.source b, guardedBlock (loops ++ [loop]) b block) := by
  -- the back edge now goes from the latch to the bound and from there to the header
  have hphis : ∀ phi : Phi Nat Nat X, Phi.rename Reg.source (predLabel (loops ++ [loop]) b) phi =
      if loop.header = b
      then replaceIncomingBlock (.source loop.latch) (.bound loop.header)
        (Phi.rename Reg.source (predLabel loops b) phi)
      else Phi.rename Reg.source (predLabel loops b) phi := by
    intro phi
    have hlabel : predLabel (loops ++ [loop]) b = fun p =>
        if loop.header = b ∧ loop.latch = p then .bound b else predLabel loops b p :=
      funext (predLabel_concat b)
    rw [hlabel]
    by_cases hb : loop.header = b
    · subst hb
      simp only [Phi.rename, replaceIncomingBlock, List.map_map, true_and, if_true,
        Function.comp_def, predLabel_of_not_mem h, Label.source.injEq, eq_comm]
    · simp only [hb, false_and, if_false]
  have hterm : block.term.rename Reg.source (succLabel (loops ++ [loop]) b) =
      if loop.latch = b
      then replaceSuccessor (.source loop.header) (.bound loop.header)
        (block.term.rename Reg.source (succLabel loops b))
      else block.term.rename Reg.source (succLabel loops b) := by
    have hlabel : succLabel (loops ++ [loop]) b = fun t =>
        if loop.latch = b ∧ loop.header = t then .bound t else succLabel loops b t :=
      funext (succLabel_concat b)
    rw [hlabel]
    by_cases hb : loop.latch = b
    · cases block.term with
      | ret value => simp [Term.rename, replaceSuccessor]
      | jump uses choose successors =>
        simp only [Term.rename, replaceSuccessor, List.map_map, hb, true_and, if_true,
          Function.comp_def, succLabel_eq_source_iff h]
        congr 2
        funext t
        by_cases ht : loop.header = t
        · simp [ht]
        · simp [ht, Ne.symm ht]
    · simp only [hb, false_and, if_false]
  have hcounters := counters_concat (X := X) b h
  unfold GuardCandidate.rewire guardedBlock
  simp only [Label.source.injEq, hcounters, hterm, funext hphis, eq_comm (a := b)]
  by_cases hheader : loop.header = b
  · have hnone : (counters loops b : List (Phi Reg Label X)) = [] := by
      rw [← hheader]
      unfold counters
      simpa using h
    by_cases hlatch : loop.latch = b <;>
      simp [hheader, hlatch, hnone, GuardCandidate.rewireHeader, GuardCandidate.rewireLatch]
  · by_cases hlatch : loop.latch = b <;> simp [hheader, hlatch, GuardCandidate.rewireLatch]

theorem withFail_embed (null : Option (Value X)) (blocks : SourceBlocks X σ) :
    withFail null (embed blocks) = guarded [] null blocks := by
  rw [withFail, if_neg (by simp [embed])]
  show embed blocks ++ _ = guardedSources [] blocks ++ [] ++ _
  rw [List.append_nil]
  rfl

theorem withFail_guarded (null : Option (Value X)) (blocks : SourceBlocks X σ) :
    withFail null (guarded loops null blocks) = guarded loops null blocks := by
  refine if_pos (List.any_eq_true.mpr ⟨(.fail, failBlock null), ?_, rfl⟩)
  exact List.mem_append_right _ (List.mem_singleton_self _)

/-- What one guard more makes of the guarded function. -/
theorem guardNativeLoop_perm (null : Option (Value X)) (blocks : SourceBlocks X σ)
    (h : loop.header ∉ loops.map GuardCandidate.header) :
    guardNativeLoop null (guarded loops null blocks) loop ~ guarded (loops ++ [loop]) null blocks := by
  have hsources : (guardedSources loops blocks).map loop.rewire =
      guardedSources (loops ++ [loop]) blocks := by
    unfold guardedSources
    rw [List.map_map]
    exact List.map_congr_left fun entry _ => rewire_guardedBlock h entry.1 entry.2
  -- the guards of other loops and the failure block stay as they are
  have hguards : (guardBlocks loops : GuardedBlocks X σ).map loop.rewire = guardBlocks loops := by
    unfold guardBlocks
    rw [List.map_map]
    exact List.map_congr_left fun other _ => rfl
  refine (insertBefore_perm _ _ _).trans ?_
  rw [withFail_guarded, guarded, List.map_append, List.map_append, hsources, hguards, guarded]
  have hconcat : (guardBlocks (loops ++ [loop]) : GuardedBlocks X σ) =
      guardBlocks loops ++ [(.bound loop.header, loop.guardBlock)] := List.map_append
  rw [hconcat]
  simp only [List.append_assoc, List.map_cons, List.map_nil, List.singleton_append]
  rw [← List.append_assoc, ← List.append_assoc]
  exact List.perm_middle.symm

theorem guardNativeLoop_congr {blocks blocks' : GuardedBlocks X σ} (null : Option (Value X))
    (h : blocks ~ blocks') : guardNativeLoop null blocks loop ~ guardNativeLoop null blocks' loop :=
  (insertBefore_perm _ _ _).trans
    ((((withFail_perm null h).map _).cons _).trans (insertBefore_perm _ _ _).symm)

/-- The function after the pass, whatever the number of loops. -/
theorem guardNativeLoops_perm (null : Option (Value X)) (blocks : SourceBlocks X σ)
    (hne : loops ≠ []) (hheaders : (loops.map GuardCandidate.header).Nodup) :
    guardNativeLoops null loops blocks ~ guarded loops null blocks := by
  induction loops using List.reverseRecOn with
  | nil => exact absurd rfl hne
  | append_singleton loops loop ih =>
    rw [List.map_append, List.nodup_append] at hheaders
    have hnew : loop.header ∉ loops.map GuardCandidate.header := fun hmem =>
      hheaders.2.2 _ hmem _ (List.mem_singleton_self _) rfl
    have hlast : guardNativeLoops null (loops ++ [loop]) blocks =
        guardNativeLoop null (guardNativeLoops null loops blocks) loop :=
      List.foldl_concat _ _ _ _
    rw [hlast]
    refine .trans ?_ (guardNativeLoop_perm null blocks hnew)
    by_cases hnil : loops = []
    · subst hnil
      show guardNativeLoop null (embed blocks) loop ~ _
      unfold guardNativeLoop
      rw [withFail_embed, withFail_guarded]
    · exact guardNativeLoop_congr null (ih hnil hheaders.1)

/-! ## Its blocks -/

section

variable {null : Option (Value X)} {blocks : SourceBlocks X σ}

theorem guarded_nodup (hheaders : (loops.map GuardCandidate.header).Nodup)
    (hblocks : (blocks.map Prod.fst).Nodup) : ((guarded loops null blocks).map Prod.fst).Nodup := by
  have hlabels : (guarded loops null blocks).map Prod.fst =
      (blocks.map Prod.fst).map Label.source ++ (loops.map GuardCandidate.header).map Label.bound ++
        [.fail] := by
    simp [guarded, guardedSources, guardBlocks, Function.comp_def]
  rw [hlabels, List.append_assoc, List.nodup_append, List.nodup_append]
  refine ⟨hblocks.map fun _ _ => Label.source.inj,
    ⟨hheaders.map fun _ _ => Label.bound.inj, List.nodup_singleton _, ?_⟩, ?_⟩
  all_goals
    aesop

theorem guardedBlocks_nodup (hne : loops ≠ []) (hheaders : (loops.map GuardCandidate.header).Nodup)
    (hblocks : (blocks.map Prod.fst).Nodup) :
    ((guardNativeLoops null loops blocks).map Prod.fst).Nodup :=
  ((guardNativeLoops_perm null blocks hne hheaders).map _).nodup_iff.mpr
    (guarded_nodup hheaders hblocks)

variable (hne : loops ≠ []) (hheaders : (loops.map GuardCandidate.header).Nodup)
  (hblocks : (blocks.map Prod.fst).Nodup)

include hne hheaders hblocks

theorem block?_guardNativeLoops {label : Label} {block : Block Reg Label X σ} :
    (guardNativeLoops null loops blocks).block? label = some block ↔
      (label, block) ∈ guarded loops null blocks := by
  rw [Blocks.block?_eq_some_iff (guardedBlocks_nodup hne hheaders hblocks)]
  exact (guardNativeLoops_perm null blocks hne hheaders).mem_iff

theorem block?_source (b : Nat) : (guardNativeLoops null loops blocks).block? (.source b) =
    (blocks.block? b).map (guardedBlock loops b) := by
  apply Option.ext
  intro block
  rw [block?_guardNativeLoops hne hheaders hblocks, Option.map_eq_some_iff]
  simp only [Blocks.block?_eq_some_iff hblocks]
  simp [guarded, guardedSources, guardBlocks]

theorem block?_bound (hloop : loop ∈ loops) :
    (guardNativeLoops null loops blocks).block? (.bound loop.header) = some loop.guardBlock := by
  rw [block?_guardNativeLoops hne hheaders hblocks]
  refine List.mem_append_left _ (List.mem_append_right _ ?_)
  exact List.mem_map_of_mem hloop

theorem block?_fail : (guardNativeLoops null loops blocks).block? .fail = some (failBlock null) := by
  rw [block?_guardNativeLoops hne hheaders hblocks]
  exact List.mem_append_right _ (List.mem_singleton_self _)

end

end BpfCapsule.LoopGuard

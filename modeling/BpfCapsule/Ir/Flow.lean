import Mathlib.Data.List.Nodup
import Mathlib.Data.Nat.Init
import Mathlib.Data.List.Perm.Basic
import Mathlib.Tactic.Common

/-!
# BpfCapsule — functions as they run

LLVM functions with a meaning: blocks with PHIs, instructions and a terminator, over names `R` of
registers and `L` of blocks. The PHIs of a block are read as one parallel assignment on the edge that
is taken. Of the instructions only the ones the passes insert are spelled out; every other one is an
`Inst.op`: what it does is a function of the values it uses and of the world.

A pass that adds registers and blocks is stated over larger types of names, so what it adds is new by
construction; `Block.rename` carries a block over.
-/

namespace BpfCapsule.Flow

open Function (update update_of_ne)

/-- A value: an integer, or something of another type. -/
inductive Value (X : Type) where
  | int (width : Nat) (bits : BitVec width)
  | other (x : X)

/-- What is outside of the registers: the fiber's outcome word and everything else. -/
structure World (σ : Type) where
  outcome : BitVec 64
  rest : σ

inductive Operand (R X : Type) where
  | reg (r : R)
  | const (v : Value X)

structure Phi (R L X : Type) where
  dest : R
  incoming : List (L × Operand R X)

inductive Inst (R X σ : Type) where
  | op (dest : Option R) (uses : List (Operand R X))
      (run : List (Value X) → World σ → Option (Value X × World σ))
  | add (dest : R) (x y : Operand R X)
  | icmpUlt (dest : R) (x y : Operand R X)
  /-- The empty inline assembly of `BuildVerifierOpaqueIdentity`. -/
  | identity (dest : R) (x : Operand R X)
  | outcome (value : BitVec 64)

inductive Term (R L X : Type) where
  /-- A branch or a switch: the values it uses choose one of its edges. -/
  | jump (uses : List (Operand R X)) (choose : List (Value X) → Option Nat) (successors : List L)
  | ret (value : Option (Operand R X))

structure Block (R L X σ : Type) where
  phis : List (Phi R L X)
  body : List (Inst R X σ)
  term : Term R L X

abbrev Blocks (R L X σ : Type) := List (L × Block R L X σ)

variable {R L X σ : Type}

def Term.successors : Term R L X → List L
  | .jump _ _ successors => successors
  | .ret _ => []

/-- `br i1`. -/
def Term.condBr (cond : Operand R X) (ifTrue ifFalse : L) : Term R L X :=
  .jump [cond] (fun | [.int 1 bit] => some (if bit = 1 then 0 else 1) | _ => none) [ifTrue, ifFalse]

section

variable [DecidableEq L]

def Blocks.block? (blocks : Blocks R L X σ) (label : L) : Option (Block R L X σ) :=
  (blocks.find? fun entry => entry.1 = label).map Prod.snd

def Blocks.predecessors (blocks : Blocks R L X σ) (label : L) : List L :=
  blocks.flatMap fun entry => (entry.2.term.successors.filter (· = label)).map fun _ => entry.1

/-- `isValid` of PHIs: each has one input for every edge into its block. -/
def Blocks.PhisComplete (blocks : Blocks R L X σ) : Prop :=
  ∀ entry ∈ blocks, ∀ phi ∈ entry.2.phis,
    (phi.incoming.map Prod.fst).Perm (blocks.predecessors entry.1)

end

/-! ## Execution -/

def Operand.eval (regs : R → Value X) : Operand R X → Value X
  | .reg r => regs r
  | .const v => v

section

variable [DecidableEq R]

def Inst.run (regs : R → Value X) (world : World σ) : Inst R X σ → Option ((R → Value X) × World σ)
  | .op dest uses run =>
    (run (uses.map (Operand.eval regs)) world).map fun result =>
      (match dest with
        | some r => update regs r result.1
        | none => regs, result.2)
  | .add dest x y =>
    match x.eval regs, y.eval regs with
    | .int 32 a, .int 32 b => some (update regs dest (.int 32 (a + b)), world)
    | _, _ => none
  | .icmpUlt dest x y =>
    match x.eval regs, y.eval regs with
    | .int 32 a, .int 32 b =>
      some (update regs dest (.int 1 (if a < b then 1 else 0)), world)
    | _, _ => none
  | .identity dest x => some (update regs dest (x.eval regs), world)
  | .outcome value => some (regs, { world with outcome := value })

def runBody : List (Inst R X σ) → (R → Value X) → World σ → Option ((R → Value X) × World σ)
  | [], regs, world => some (regs, world)
  | inst :: body, regs, world =>
    (inst.run regs world).bind fun next => runBody body next.1 next.2

variable [DecidableEq L]

def Phi.incomingFor (phi : Phi R L X) (pred : L) : Option (Operand R X) :=
  (phi.incoming.find? fun entry => entry.1 = pred).map Prod.snd

/-- The values of the PHIs on the edge from `pred`, all from the registers before it. -/
def phiValues (pred : Option L) (regs : R → Value X) : List (Phi R L X) → Option (List (R × Value X))
  | [] => some []
  | phi :: phis =>
    (pred.bind phi.incomingFor).bind fun operand =>
      (phiValues pred regs phis).map ((phi.dest, operand.eval regs) :: ·)

def assign (regs : R → Value X) (values : List (R × Value X)) : R → Value X :=
  values.foldl (fun regs entry => update regs entry.1 entry.2) regs

/-- About to enter `block` over the edge from `pred`. -/
structure State (R L X σ : Type) where
  block : L
  pred : Option L
  regs : R → Value X
  world : World σ

inductive Next (R L X σ : Type) where
  | goto (state : State R L X σ)
  | done (value : Option (Value X)) (world : World σ)

def Term.next (label : L) (regs : R → Value X) (world : World σ) :
    Term R L X → Option (Next R L X σ)
  | .jump uses choose successors =>
    (choose (uses.map (Operand.eval regs))).bind fun i =>
      successors[i]?.map fun target => .goto ⟨target, some label, regs, world⟩
  | .ret value => some (.done (value.map (Operand.eval regs)) world)

/-- One block is executed: `none` where the program has no meaning. -/
def Blocks.step (blocks : Blocks R L X σ) (s : State R L X σ) : Option (Next R L X σ) :=
  (blocks.block? s.block).bind fun block =>
    (phiValues s.pred s.regs block.phis).bind fun values =>
      (runBody block.body (assign s.regs values) s.world).bind fun after =>
        block.term.next s.block after.1 after.2

inductive Blocks.Reaches (blocks : Blocks R L X σ) (start : State R L X σ) : State R L X σ → Prop
  | refl : Reaches blocks start start
  | step {s t : State R L X σ} : Reaches blocks start s → blocks.step s = some (.goto t) →
      Reaches blocks start t

theorem Blocks.Reaches.trans {blocks : Blocks R L X σ} {s t u : State R L X σ}
    (h : blocks.Reaches s t) (h' : blocks.Reaches t u) : blocks.Reaches s u := by
  induction h' with
  | refl => exact h
  | step _ hstep ih => exact .step ih hstep

end

/-! ## Names -/

section

variable {R' L' : Type} (reg : R → R')

def Operand.rename : Operand R X → Operand R' X
  | .reg r => .reg (reg r)
  | .const v => .const v

def Phi.rename (incoming : L → L') (phi : Phi R L X) : Phi R' L' X :=
  ⟨reg phi.dest, phi.incoming.map fun entry => (incoming entry.1, entry.2.rename reg)⟩

def Inst.rename : Inst R X σ → Inst R' X σ
  | .op dest uses run => .op (dest.map reg) (uses.map (Operand.rename reg)) run
  | .add dest x y => .add (reg dest) (x.rename reg) (y.rename reg)
  | .icmpUlt dest x y => .icmpUlt (reg dest) (x.rename reg) (y.rename reg)
  | .identity dest x => .identity (reg dest) (x.rename reg)
  | .outcome value => .outcome value

def Term.rename (target : L → L') : Term R L X → Term R' L' X
  | .jump uses choose successors =>
    .jump (uses.map (Operand.rename reg)) choose (successors.map target)
  | .ret value => .ret (value.map (Operand.rename reg))

/-- A block under other names; PHI inputs and targets may be renamed differently. -/
def Block.rename (incoming target : L → L') (block : Block R L X σ) : Block R' L' X σ :=
  ⟨block.phis.map (Phi.rename reg incoming), block.body.map (Inst.rename reg),
    block.term.rename reg target⟩

@[simp] theorem Term.successors_rename (target : L → L') (term : Term R L X) :
    (term.rename reg target).successors = term.successors.map target := by
  cases term <;> rfl

variable {reg} {regs : R' → Value X}

@[simp] theorem Operand.eval_rename (operand : Operand R X) :
    (operand.rename reg).eval regs = operand.eval (regs ∘ reg) := by
  cases operand <;> rfl

theorem map_eval_rename (operands : List (Operand R X)) :
    (operands.map (Operand.rename reg)).map (Operand.eval regs) =
      operands.map (Operand.eval (regs ∘ reg)) := by
  rw [List.map_map]
  exact List.map_congr_left fun operand _ => operand.eval_rename

variable [DecidableEq R] [DecidableEq R'] (hreg : Function.Injective reg)

include hreg

/-- A register of the renamed code is written as the original is, and no other one. -/
theorem update_comp (regs : R' → Value X) (r : R) (v : Value X) :
    update regs (reg r) v ∘ reg = update (regs ∘ reg) r v ∧
      ∀ q, (∀ r, q ≠ reg r) → update regs (reg r) v q = regs q := by
  constructor
  · exact Function.update_comp_eq_of_injective regs hreg r v
  · intro q hq
    exact update_of_ne (hq r) v regs

/-- The renamed code does what the original does and leaves the new registers alone. -/
structure Follows (reg : R → R') (regs : R' → Value X)
    (before : Option ((R → Value X) × World σ)) (after : Option ((R' → Value X) × World σ)) : Prop where
  stuck : before = none → after = none
  runs : ∀ regs₁ world₁, before = some (regs₁, world₁) →
    ∃ regs₁', after = some (regs₁', world₁) ∧ regs₁' ∘ reg = regs₁ ∧
      ∀ q, (∀ r, q ≠ reg r) → regs₁' q = regs q

theorem follows_update (r : R) (v : Value X) (world : World σ) :
    Follows reg regs (some (update (regs ∘ reg) r v, world))
      (some (update regs (reg r) v, world)) := by
  refine ⟨nofun, fun regs₁ world₁ h => ?_⟩
  cases h
  obtain ⟨hcomp, hnew⟩ := update_comp hreg regs r v
  exact ⟨_, rfl, hcomp, hnew⟩

theorem Inst.run_rename (inst : Inst R X σ) (world : World σ) :
    Follows reg regs (inst.run (regs ∘ reg) world) ((inst.rename reg).run regs world) := by
  cases inst with
  | op dest uses run =>
    simp only [Inst.rename, Inst.run, map_eval_rename]
    cases run (uses.map (Operand.eval (regs ∘ reg))) world with
    | none => exact ⟨fun _ => rfl, nofun⟩
    | some result =>
      cases dest with
      | none =>
        refine ⟨nofun, fun regs₁ world₁ h => ?_⟩
        cases h
        exact ⟨regs, rfl, rfl, fun _ _ => rfl⟩
      | some r => exact follows_update hreg r result.1 result.2
  | add dest x y =>
    simp only [Inst.rename, Inst.run, Operand.eval_rename]
    split
    · exact follows_update hreg dest _ world
    · exact ⟨fun _ => rfl, nofun⟩
  | icmpUlt dest x y =>
    simp only [Inst.rename, Inst.run, Operand.eval_rename]
    split
    · exact follows_update hreg dest _ world
    · exact ⟨fun _ => rfl, nofun⟩
  | identity dest x =>
    simp only [Inst.rename, Inst.run, Operand.eval_rename]
    exact follows_update hreg dest _ world
  | outcome value =>
    refine ⟨nofun, fun regs₁ world₁ h => ?_⟩
    cases h
    exact ⟨regs, rfl, rfl, fun _ _ => rfl⟩

theorem runBody_rename (body : List (Inst R X σ)) (world : World σ) :
    Follows reg regs (runBody body (regs ∘ reg) world)
      (runBody (body.map (Inst.rename reg)) regs world) := by
  induction body generalizing regs world with
  | nil =>
    refine ⟨nofun, fun regs₁ world₁ h => ?_⟩
    cases h
    exact ⟨regs, rfl, rfl, fun _ _ => rfl⟩
  | cons inst body ih =>
    have hinst : Follows reg regs _ _ := inst.run_rename hreg world
    rw [List.map_cons, runBody, runBody]
    cases hrun : inst.run (regs ∘ reg) world with
    | none =>
      rw [hinst.stuck hrun]
      exact ⟨fun _ => rfl, nofun⟩
    | some next =>
      obtain ⟨regs₁, world₁⟩ := next
      obtain ⟨regs₁', hrun', hcomp, hnew⟩ := hinst.runs regs₁ world₁ hrun
      rw [hrun']
      subst hcomp
      have hrest : Follows reg regs₁' _ _ := ih world₁
      refine ⟨hrest.stuck, fun regs₂ world₂ h => ?_⟩
      obtain ⟨regs₂', hrun₂, hcomp₂, hnew₂⟩ := hrest.runs regs₂ world₂ h
      exact ⟨regs₂', hrun₂, hcomp₂, fun q hq => (hnew₂ q hq).trans (hnew q hq)⟩

theorem assign_rename (regs : R' → Value X) (values : List (R × Value X)) :
    assign regs (values.map fun entry => (reg entry.1, entry.2)) ∘ reg = assign (regs ∘ reg) values ∧
      ∀ q, (∀ r, q ≠ reg r) →
        assign regs (values.map fun entry => (reg entry.1, entry.2)) q = regs q := by
  induction values generalizing regs with
  | nil => exact ⟨rfl, fun _ _ => rfl⟩
  | cons entry values ih =>
    obtain ⟨hcomp, hnew⟩ := update_comp hreg regs entry.1 entry.2
    obtain ⟨hcomps, hnews⟩ := ih (update regs (reg entry.1) entry.2)
    rw [hcomp] at hcomps
    exact ⟨hcomps, fun q hq => (hnews q hq).trans (hnew q hq)⟩

omit hreg [DecidableEq R] [DecidableEq R']

variable [DecidableEq L] [DecidableEq L'] {incoming : L → L'} (hincoming : Function.Injective incoming)

include hincoming

theorem Phi.incomingFor_rename (phi : Phi R L X) (pred : L) :
    (phi.rename reg incoming).incomingFor (incoming pred) =
      (phi.incomingFor pred).map (Operand.rename reg) := by
  unfold Phi.incomingFor Phi.rename
  rw [List.find?_map, Option.map_map, Option.map_map]
  have hsame : ((fun entry : L' × Operand R' X => decide (entry.1 = incoming pred)) ∘
      fun entry : L × Operand R X => (incoming entry.1, entry.2.rename reg)) =
      fun entry => decide (entry.1 = pred) := by
    funext entry
    simp [hincoming.eq_iff]
  rw [hsame]
  rfl

/-- The PHIs of a renamed block read the same values. -/
theorem phiValues_rename (phis : List (Phi R L X)) (pred : Option L) :
    phiValues (pred.map incoming) regs (phis.map (Phi.rename reg incoming)) =
      (phiValues pred (regs ∘ reg) phis).map (List.map fun entry => (reg entry.1, entry.2)) := by
  induction phis with
  | nil => rfl
  | cons phi phis ih =>
    have hin : (pred.map incoming).bind (phi.rename reg incoming).incomingFor =
        (pred.bind phi.incomingFor).map (Operand.rename reg) := by
      cases pred with
      | none => rfl
      | some p => exact phi.incomingFor_rename hincoming p
    rw [List.map_cons, phiValues, phiValues, hin, ih]
    cases pred.bind phi.incomingFor with
    | none => rfl
    | some operand =>
      cases phiValues pred (regs ∘ reg) phis with
      | none => rfl
      | some values => simp [Phi.rename]

end

def Next.rename {R' L' : Type} (target : L → L') (label : L') (regs : R' → Value X) :
    Next R L X σ → Next R' L' X σ
  | .goto state => .goto ⟨target state.block, some label, regs, state.world⟩
  | .done value world => .done value world

theorem Term.next_rename {R' L' : Type} {reg : R → R'} (target : L → L') (label : L) (label' : L')
    (regs : R' → Value X) (world : World σ) (term : Term R L X) :
    (term.rename reg target).next label' regs world =
      (term.next label (regs ∘ reg) world).map (Next.rename target label' regs) := by
  cases term with
  | jump uses choose successors =>
    simp only [Term.rename, Term.next, map_eval_rename, List.getElem?_map]
    cases choose (uses.map (Operand.eval (regs ∘ reg))) with
    | none => rfl
    | some i => cases h : successors[i]? <;> simp [h, Next.rename]
  | ret value =>
    cases value <;> simp [Term.rename, Term.next, Next.rename]

theorem Term.next_goto {label : L} {regs : R → Value X} {world : World σ} {term : Term R L X}
    {t : State R L X σ} (h : term.next label regs world = some (.goto t)) :
    t.block ∈ term.successors ∧ t = ⟨t.block, some label, regs, world⟩ := by
  cases term with
  | ret value => cases h
  | jump uses choose successors =>
    obtain ⟨i, -, h⟩ := Option.bind_eq_some_iff.mp h
    obtain ⟨target, htarget, h⟩ := Option.map_eq_some_iff.mp h
    cases h
    exact ⟨List.mem_of_getElem? htarget, rfl⟩

/-! ## Lookup -/

theorem Blocks.block?_eq_some_iff [DecidableEq L] {blocks : Blocks R L X σ}
    (hnodup : (blocks.map Prod.fst).Nodup) {label : L} {block : Block R L X σ} :
    blocks.block? label = some block ↔ (label, block) ∈ blocks := by
  unfold Blocks.block?
  rw [Option.map_eq_some_iff]
  constructor
  · intro ⟨entry, hfind, hblock⟩
    have hlabel : entry.1 = label := by simpa using List.find?_some hfind
    rw [← hlabel, ← hblock]
    exact List.mem_of_find?_eq_some hfind
  · intro hmem
    cases hfind : blocks.find? fun entry => entry.1 = label with
    | none => simpa using List.find?_eq_none.mp hfind _ hmem
    | some entry =>
      have hlabel : entry.1 = label := by simpa using List.find?_some hfind
      have hsame : entry = (label, block) :=
        List.inj_on_of_nodup_map hnodup (List.mem_of_find?_eq_some hfind) hmem hlabel
      exact ⟨entry, rfl, by rw [hsame]⟩

end BpfCapsule.Flow

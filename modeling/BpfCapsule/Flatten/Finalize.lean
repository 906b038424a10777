import BpfCapsule.Flatten.Repair

/-!
# BpfCapsule — the finalization of flattened functions

`runOnMachineFunction` relaxes the branches of a flattened function, repairs its layout for the old
verifier, and relaxes again, since the jumps of the repair lengthen what crosses them; an allocation
unit of its own is only repaired. `Goes` is one block of a run. A relaxed function goes where the
original one goes, with relays between (`Relayed.runs`), and the repair changes nothing.
-/

namespace BpfCapsule.Flatten

open Relation MachineFunction

variable {σ : Type}

inductive Kind where
  | flattened
  | allocationUnit
  | other
deriving DecidableEq, Repr

def runOnMachineFunction (llvm : FallThrough σ) (config : Config) (fuel : Nat) (kind : Kind)
    (f : MachineFunction σ) : Except Failure (MachineFunction σ) :=
  match kind with
  | .other => .ok f
  | .allocationUnit => .ok (repairV3VerifierCycles config f)
  | .flattened => do
    let relaxed ← relaxFlattenedBranches llvm config fuel f
    relaxFlattenedBranches llvm config fuel (repairV3VerifierCycles config relaxed)

/-! ## Runs -/

def MachineFunction.Goes (f : MachineFunction σ) (p q : Id × σ) : Prop := f.exit p.1 p.2 = .goto q.1 q.2

section

variable {f g : MachineFunction σ}

theorem Leads.goes {old : List Id} {x t : Id} (h : Leads g old x t) (s : σ) :
    ReflTransGen g.Goes (x, s) (t, s) := by
  induction h with
  | here _ => exact .refl
  | @relay x n t blk rest _ hblk hjmp _ ih =>
    have hstep : g.Goes (x, s) (n, s) := by
      show g.exit x s = .goto n s
      unfold exit
      rw [hblk]
      simp only [hjmp]
      rfl
    exact .head hstep ih

theorem Relayed.goes_of_goes (h : Relayed f g) {p q : Id × σ} (hp : p.1 ∈ f.ids) (hgo : f.Goes p q) :
    q.1 ∈ f.ids ∧ ReflTransGen g.Goes p q := by
  have hsame := h.exit_same hp p.2
  rw [show f.exit p.1 p.2 = _ from hgo] at hsame
  generalize hexit : g.exit p.1 p.2 = e at hsame
  cases hsame with
  | @goto _ x _ hx => exact ⟨hx.mem_old, .head (b := (x, q.2)) hexit (hx.goes q.2)⟩

/-- A run of the relayed function between old blocks is one of the function. -/
theorem Relayed.goes_back (h : Relayed f g) {p q : Id × σ} (hpath : ReflTransGen g.Goes p q)
    (hq : q.1 ∈ f.ids) : ∀ u, Leads g f.ids p.1 u → ReflTransGen f.Goes (u, p.2) q := by
  induction hpath using ReflTransGen.head_induction_on with
  | refl =>
    intro u hu
    rw [← hu.eq_of_mem hq]
  | @head p r hgo _ ih =>
    intro u hu
    have hexit : g.exit p.1 p.2 = .goto r.1 r.2 := hgo
    cases hu with
    | here hp =>
      have hsame := h.exit_same hp p.2
      rw [hexit] at hsame
      generalize hfexit : f.exit p.1 p.2 = e at hsame
      cases hsame with
      | @goto v _ _ hv => exact .head (b := (v, r.2)) hfexit (ih v hv)
    | @relay _ n _ blk rest _ hblk hjmp hn =>
      -- A relay jumps on in the state it was entered with.
      unfold exit at hexit
      rw [hblk] at hexit
      simp only [hjmp, run, Exit.goto.injEq] at hexit
      have := ih u (hexit.1 ▸ hn)
      rwa [← hexit.2] at this

/-- Between blocks of the source, relays neither add nor remove a path. -/
theorem Relayed.runs (h : Relayed f g) {p q : Id × σ} (hp : p.1 ∈ f.ids) (hq : q.1 ∈ f.ids) :
    ReflTransGen g.Goes p q ↔ ReflTransGen f.Goes p q := by
  constructor
  · intro hpath
    exact h.goes_back hpath hq p.1 (.here hp)
  · intro hpath
    induction hpath using ReflTransGen.head_induction_on with
    | refl => exact .refl
    | head hgo _ ih =>
      obtain ⟨hr, hfirst⟩ := h.goes_of_goes hp hgo
      exact hfirst.trans (ih hr)

end

/-! ## Functions from code generation -/

/-- A function as code generation and the joining of units leave it. -/
structure WellFormed (f : MachineFunction σ) : Prop where
  nodup : f.ids.Nodup
  nonempty : f ≠ []
  targets : f.Targets
  /-- The successor list of a block names the blocks it may leave to, each once. -/
  succ_nodup : ∀ b blk, f.block? b = some blk → blk.succs.Nodup
  succ_iff : ∀ b t, f.Succ b t ↔ f.Edge b t
  succ_mem : ∀ b t, f.Succ b t → t ∈ f.ids
  falls : ∀ b blk, f.block? b = some blk → Open blk.instrs = true → f.layoutNext b ≠ none
  last : ∀ b blk pre c t post, f.block? b = some blk → blk.instrs = pre ++ .cond c t :: post →
    ∀ i ∈ post, i = .debug ∨ ∃ u, i = .jmp u
  /-- `removeUnreachableBlocks`. -/
  reached : ∀ b ∈ f.ids, ∃ entry, f.ids.head? = some entry ∧ ReflTransGen f.Succ entry b

theorem mem_edges_of_open {is : List (Inst σ)} (hopen : Open is = true) (n : Id) :
    n ∈ edges (some n) is := by
  induction is with
  | nil => simp [edges]
  | cons i is ih =>
    cases i with
    | plain d exec => exact ih hopen
    | debug => exact ih hopen
    | cond c t => exact List.mem_cons_of_mem _ (ih hopen)
    | _ => cases hopen

/-- What comes before a conditional branch adds nothing, if it has none itself. -/
theorem edges_append_of_open {pre is : List (Inst σ)} (hopen : Open (pre ++ is) = true)
    (hcond : ∀ i ∈ pre, i.isConditionalBranch = false) (next : Option Id) :
    edges next (pre ++ is) = edges next is := by
  induction pre with
  | nil => rfl
  | cons i pre ih =>
    have ih' := fun h => ih h fun j hj => hcond j (List.mem_cons_of_mem i hj)
    cases i with
    | plain d exec => exact ih' hopen
    | debug => exact ih' hopen
    | cond c t => cases hcond _ List.mem_cons_self
    | _ => cases hopen

namespace WellFormed

variable {f g : MachineFunction σ} (hf : WellFormed f)

include hf

theorem falls_succ : f.Falls := by
  intro b blk hblk hopen
  obtain ⟨n, hn⟩ := Option.ne_none_iff_exists'.mp (hf.falls b blk hblk hopen)
  have hedge : f.Edge b n := ⟨blk, hblk, by rw [hn]; exact mem_edges_of_open hopen n⟩
  obtain ⟨blk', hblk', hmem⟩ := (hf.succ_iff b n).mpr hedge
  rw [hblk] at hblk'
  cases hblk'
  exact ⟨n, hmem, hn⟩

/-- In a block that falls through the conditional branch stands last, and alone. -/
theorem cond_last {b : Id} {blk : Block σ} {c : σ → Bool} {t : Id}
    (hblk : f.block? b = some blk) (hopen : Open blk.instrs = true) (hmem : .cond c t ∈ blk.instrs) :
    ∃ pre post, blk.instrs = pre ++ .cond c t :: post ∧
      (∀ i ∈ pre, i.isConditionalBranch = false) ∧ ∀ i ∈ post, i = .debug := by
  obtain ⟨pre, post, hsplit⟩ := List.append_of_mem hmem
  refine ⟨pre, post, hsplit, fun i hi => ?_, fun i hi => ?_⟩
  · cases i with
    | cond c' t' =>
      -- One before it would have it among what follows.
      obtain ⟨p, q, hpre⟩ := List.append_of_mem hi
      have hsplit' : blk.instrs = p ++ .cond c' t' :: (q ++ .cond c t :: post) := by
        rw [hsplit, hpre]
        simp
      rcases hf.last b blk p c' t' _ hblk hsplit' (.cond c t) (by simp) with h | ⟨u, h⟩
      · cases h
      · cases h
    | _ => rfl
  · rcases hf.last b blk pre c t post hblk hsplit i hi with rfl | ⟨u, rfl⟩
    · rfl
    · rw [open_eq_false_of_jmp (t := u) (by simp [hsplit, hi])] at hopen
      cases hopen

theorem own : f.Own := by
  intro b blk c t hblk hopen hlast ht
  have hmem : .cond c t ∈ blk.instrs := by
    obtain ⟨_, _, hsplit, _, _⟩ := lastReal_eq_some hlast
    simp [hsplit]
  obtain ⟨pre, post, hsplit, hpre, hpost⟩ := hf.cond_last hblk hopen hmem
  have hedges : edges (some t) blk.instrs = [t, t] := by
    rw [hsplit] at hopen ⊢
    rw [edges_append_of_open hopen hpre]
    show t :: edges (some t) post = [t, t]
    rw [SameBlock.edges_debug hpost]
    rfl
  have hsucc : ∀ u, u ∈ blk.succs ↔ u = t := by
    intro u
    have hiff := hf.succ_iff b u
    simp only [Succ, Edge, hblk, Option.some.injEq, exists_eq_left', ht,
      hedges] at hiff
    simpa using hiff
  have hnodup := hf.succ_nodup b blk hblk
  have hperm : blk.succs.Perm [t] :=
    (List.perm_ext_iff_of_nodup hnodup (List.nodup_singleton t)).mpr fun u => by
      rw [hsucc, List.mem_singleton]
  exact List.perm_singleton.mp hperm

theorem ready : Ready f where
  nodup := hf.nodup
  nonempty := hf.nonempty
  edges b t h := hf.succ_mem b t ((hf.succ_iff b t).mpr h)
  targets := hf.targets
  falls := hf.falls_succ
  own := hf.own

/-- With relays it can be repaired: its open blocks are those of `f`, and lie where they lay. -/
theorem repairable (hg : Ready g) (hfg : Relayed f g) : Repairable g where
  toReady := hg
  last b blk c t hblk hopen hmem := hf.cond_last (hfg.falls b blk hblk hopen).1 hopen hmem
  reached b blk hblk hopen := by
    have hb : b ∈ f.ids := mem_of_block? (hfg.falls b blk hblk hopen).1
    obtain ⟨entry, hentry, hpath⟩ := hf.reached b hb
    exact ⟨entry, hfg.entry.trans hentry, reflTransGen_closed hfg.succs _ _ hpath⟩
  back b blk t hblk hopen ht hpath := by
    rw [(hfg.falls b blk hblk hopen).2] at ht
    have hmem := Sequence.mem_of_next ht
    have hedges : ReflTransGen f.Edge t b := hfg.path hpath hmem.1 t (.here hmem.2)
    have hsuccs : ReflTransGen f.Succ t b :=
      ReflTransGen.mono (fun x y => (hf.succ_iff x y).mpr) _ _ hedges
    exact reflTransGen_closed hfg.succs _ _ hsuccs

end WellFormed

/-! ## The passes -/

/-- What relaxing `f` into `g` is to achieve. -/
structure Relaxed (config : Config) (f g : MachineFunction σ) : Prop where
  relayed : Relayed f g
  /-- Leaving an old block, under the same conditions, for relays that lead to the same block, -/
  exit : ∀ b ∈ f.ids, ∀ s, Exit.Same (fun t x => Leads g f.ids x t) (f.exit b s) (g.exit b s)
  /-- so that old blocks follow each other in the same states. -/
  runs : ∀ p q : Id × σ, p.1 ∈ f.ids → q.1 ∈ f.ids →
    (ReflTransGen g.Goes p q ↔ ReflTransGen f.Goes p q)
  spans : Spans config g

/-- What repairing `f` into `g` is to achieve. -/
structure RepairedFrom (config : Config) (f g : MachineFunction σ) : Prop where
  flow : SameFlow f g
  repaired : config.v4 = false → Repaired g

section

variable {llvm : FallThrough σ} {config : Config} {f g : MachineFunction σ}

theorem relaxed_of_ready (hf : Ready f) {fuel : Nat}
    (h : relaxFlattenedBranches llvm config fuel f = .ok g) : Ready g ∧ Relaxed config f g := by
  obtain ⟨hg, hrelayed, hspans⟩ := relax_spec hf h
  exact ⟨hg, hrelayed, fun b hb s => hrelayed.exit_same hb s,
    fun p q hp hq => hrelayed.runs hp hq, hspans⟩

theorem repaired_of_repairable (config : Config) (hf : Repairable f) :
    Ready (repairV3VerifierCycles config f) ∧
      RepairedFrom config f (repairV3VerifierCycles config f) := by
  cases hv4 : config.v4 with
  | true =>
    have hsame : repairV3VerifierCycles config f = f := by simp [repairV3VerifierCycles, hv4]
    rw [hsame]
    refine ⟨hf.toReady, ⟨rfl, fun _ _ => rfl, fun _ _ => Iff.rfl, fun _ _ => Iff.rfl⟩, ?_⟩
    intro hv3
    rw [hv4] at hv3
    cases hv3
  | false =>
    have hsame : repairV3VerifierCycles config f = repairBlocks f := by
      simp [repairV3VerifierCycles, repairBlocks, hv4]
    rw [hsame]
    exact ⟨ready_repairBlocks hf, sameFlow_repairBlocks f, fun _ => repaired_repairBlocks hf⟩

theorem SameFlow.runs (h : SameFlow f g) (p q : Id × σ) :
    ReflTransGen g.Goes p q ↔ ReflTransGen f.Goes p q := by
  have hgoes : g.Goes = f.Goes := by
    funext p q
    exact congrArg (· = Exit.goto q.1 q.2) (h.exit p.1 p.2)
  rw [hgoes]

/-- The whole pass keeps the runs between the blocks that it is given. -/
theorem runOnMachineFunction_runs (hf : WellFormed f) {fuel : Nat} {kind : Kind}
    (h : runOnMachineFunction llvm config fuel kind f = .ok g) {p q : Id × σ} (hp : p.1 ∈ f.ids)
    (hq : q.1 ∈ f.ids) : ReflTransGen g.Goes p q ↔ ReflTransGen f.Goes p q := by
  cases kind with
  | other =>
    cases h
    exact Iff.rfl
  | allocationUnit =>
    cases h
    exact (repaired_of_repairable config (hf.repairable hf.ready (.refl hf.ready.edges))).2.flow.runs p q
  | flattened =>
    obtain ⟨relaxed, hrelax, hrelax'⟩ := Check.bind_eq_ok.mp h
    obtain ⟨hready, hfirst⟩ := relaxed_of_ready hf.ready hrelax
    obtain ⟨hready', hrepair⟩ :=
      repaired_of_repairable config (hf.repairable hready hfirst.relayed)
    obtain ⟨_, hsecond⟩ := relaxed_of_ready hready' hrelax'
    have hids : ∀ b ∈ f.ids, b ∈ (repairV3VerifierCycles config relaxed).ids :=
      fun b hb => hrepair.flow.ids ▸ hfirst.relayed.subset b hb
    calc ReflTransGen g.Goes p q
      _ ↔ ReflTransGen (repairV3VerifierCycles config relaxed).Goes p q :=
        hsecond.runs p q (hids _ hp) (hids _ hq)
      _ ↔ ReflTransGen relaxed.Goes p q := hrepair.flow.runs p q
      _ ↔ ReflTransGen f.Goes p q := hfirst.runs p q hp hq

end

/-- Wherever relaxation returns, it keeps the control flow and puts every branch within its limit, no
conditional one backwards. The repair, of a relaxed function or of one as it was generated, changes no
control flow and leaves a layout for the old verifier, which relaxing again keeps. -/
theorem finalize_keeps_flow (llvm : FallThrough σ) (config : Config) (f : MachineFunction σ) (hf : WellFormed f) :
    RepairedFrom config f (repairV3VerifierCycles config f) ∧
    ∀ fuel g, relaxFlattenedBranches llvm config fuel f = .ok g →
      Relaxed config f g ∧
      RepairedFrom config g (repairV3VerifierCycles config g) ∧
      ∀ fuel' h, relaxFlattenedBranches llvm config fuel' (repairV3VerifierCycles config g) = .ok h →
        Relaxed config (repairV3VerifierCycles config g) h ∧ (config.v4 = false → Repaired h) := by
  constructor
  · exact (repaired_of_repairable config (hf.repairable hf.ready (.refl hf.ready.edges))).2
  · intro fuel g hg
    obtain ⟨hready, hrelaxed⟩ := relaxed_of_ready hf.ready hg
    obtain ⟨hready', hrepaired⟩ :=
      repaired_of_repairable config (hf.repairable hready hrelaxed.relayed)
    refine ⟨hrelaxed, hrepaired, fun fuel' h hh => ?_⟩
    obtain ⟨_, hrelaxed'⟩ := relaxed_of_ready hready' hh
    exact ⟨hrelaxed', fun hv3 => hrelaxed'.relayed.repaired (hrepaired.repaired hv3)⟩

namespace Loop

def loop : MachineFunction Bool :=
  [⟨1, [.plain ⟨false, false, 8⟩ id], [2]⟩, ⟨2, [.plain ⟨false, false, 8⟩ not], [3]⟩,
    ⟨3, [.cond id 2], [2, 4]⟩, ⟨4, [.ret], []⟩]

def relayed : MachineFunction Bool :=
  [⟨1, [.plain ⟨false, false, 8⟩ id], [2]⟩, ⟨2, [.plain ⟨false, false, 8⟩ not], [3]⟩,
    ⟨3, [.cond id 5, .jmp 4], [5, 4]⟩, ⟨5, [.jmp 2], [2]⟩, ⟨4, [.ret], []⟩]

def config : Config := ⟨false, 8192, 30000, 26000⟩

/-- An answer as a target gives it that understands no branch: by the end of the block alone. -/
def fallThrough : FallThrough Bool where
  can f blk := Open blk.instrs && (f.layoutNext blk.id).all blk.succs.contains
  succ f blk n h hn := by simpa [hn] using (Bool.and_eq_true_iff.mp h).2
  of_open f blk n hopen hn hsucc := by simp [hopen, hn, hsucc]

theorem block_cases {P : Block Bool → Prop} (h : ∀ blk ∈ loop, P blk) {b : Id} {blk : Block Bool}
    (hblk : loop.block? b = some blk) : P blk :=
  h blk (List.mem_of_find?_eq_some hblk)

theorem succ_iff_edge (b t : Id) : loop.Succ b t ↔ loop.Edge b t := by
  refine exists_congr fun blk => and_congr_right fun hblk => ?_
  rw [← id_of_block? hblk]
  refine block_cases (P := fun blk => t ∈ blk.succs ↔ t ∈ edges (loop.layoutNext blk.id) blk.instrs) ?_ hblk
  simp [loop, edges, layoutNext, Sequence.next, ids]

theorem wellFormed_loop : WellFormed loop where
  nodup := by decide
  nonempty := by decide
  targets b blk i t hblk hi ht := by
    revert i
    refine block_cases (P := fun blk => ∀ i ∈ blk.instrs, i.target? = some t → t ∈ loop.ids) ?_ hblk
    simp +contextual [loop, ids, Inst.target?, eq_comm]
  succ_nodup b blk := block_cases (P := fun blk => blk.succs.Nodup) (by simp [loop])
  succ_iff := succ_iff_edge
  succ_mem b t := by
    rintro ⟨blk, hblk, ht⟩
    revert ht
    refine block_cases (P := fun blk => t ∈ blk.succs → t ∈ loop.ids) ?_ hblk
    simp only [loop, ids, List.forall_mem_cons, List.map_cons]
    grind
  falls b blk hblk := by
    rw [← id_of_block? hblk]
    refine block_cases (P := fun blk => Open blk.instrs = true → loop.layoutNext blk.id ≠ none) ?_ hblk
    simp [loop, layoutNext, Sequence.next, ids, Open]
  last b blk pre c t post hblk hsplit := by
    have hlast : blk.instrs.length = 1 :=
      block_cases (P := fun blk => blk.instrs.length = 1) (by simp [loop]) hblk
    rw [hsplit, List.length_append, List.length_cons] at hlast
    have hpost : post = [] := List.length_eq_zero_iff.mp (by omega)
    simp [hpost]
  reached b hb := by
    refine ⟨1, rfl, ?_⟩
    have h12 : loop.Succ 1 2 := ⟨_, rfl, by simp⟩
    have h23 : loop.Succ 2 3 := ⟨_, rfl, by simp⟩
    have h34 : loop.Succ 3 4 := ⟨_, rfl, by simp⟩
    have hcases : b = 1 ∨ b = 2 ∨ b = 3 ∨ b = 4 := by simpa [ids, loop] using hb
    rcases hcases with rfl | rfl | rfl | rfl
    · exact .refl
    · exact .single h12
    · exact .tail (.single h12) h23
    · exact .tail (.tail (.single h12) h23) h34

end Loop

/-- A loop whose back edge is out of reach, so it goes over a relay. -/
theorem finalize_keeps_flow_loop :
    WellFormed Loop.loop ∧ relaxFlattenedBranches Loop.fallThrough Loop.config 9 Loop.loop = .ok Loop.relayed ∧
      Relaxed Loop.config Loop.loop Loop.relayed ∧
      Repaired (repairV3VerifierCycles Loop.config Loop.relayed) := by
  have hrelax : relaxFlattenedBranches Loop.fallThrough Loop.config 9 Loop.loop = .ok Loop.relayed := rfl
  have hkeeps := (finalize_keeps_flow Loop.fallThrough Loop.config Loop.loop Loop.wellFormed_loop).2 9 _ hrelax
  exact ⟨Loop.wellFormed_loop, hrelax, hkeeps.1, hkeeps.2.1.repaired rfl⟩

/-- The flattened loop still goes round once and comes back to its header. -/
theorem runOnMachineFunction_runs_loop :
    ∃ g, runOnMachineFunction Loop.fallThrough Loop.config 9 .flattened Loop.loop = .ok g ∧
      ReflTransGen g.Goes (1, false) (2, true) := by
  obtain ⟨g, hg⟩ : ∃ g, runOnMachineFunction Loop.fallThrough Loop.config 9 .flattened Loop.loop = .ok g := ⟨_, rfl⟩
  refine ⟨g, hg, (runOnMachineFunction_runs Loop.wellFormed_loop hg (by decide) (by decide)).mpr ?_⟩
  have hstart : Loop.loop.Goes (1, false) (2, false) := rfl
  have hround : Loop.loop.Goes (2, false) (3, true) := rfl
  exact .tail (.tail (.single hstart) hround) rfl

end BpfCapsule.Flatten

import BpfCapsule.Stackify.LoopGuard

/-!
# BpfCapsule — guarded loops at work

The runs of a function and of the same function with guards. A run of the source counts the rounds of
every loop since it was last entered. As long as all loops keep to their bounds, the guarded function
does the same steps with the same registers and the same world, with the guards between them; where a
loop would go round once more than its bound, the guarded function aborts.

The tie between the two is that inside a loop the inserted counter is the number of rounds, less one.
-/

namespace BpfCapsule.LoopGuard

open BpfCapsule.Flow
open GuardCandidate
open scoped List

/-! ## Functions with native loops -/

/-- A function and the loops of it to guard, with what `LoopInfo` knows of a simplified loop with a
preheader and one latch: two edges lead to its header and none to its other blocks from outside. -/
structure NativeLoops (X σ : Type) where
  blocks : SourceBlocks X σ
  entry : Nat
  null : Option (Value X)
  loops : List GuardCandidate
  body : GuardCandidate → Nat → Prop
  blocks_nodup : (blocks.map Prod.fst).Nodup
  loops_ne : loops ≠ []
  headers_nodup : (loops.map header).Nodup
  entry_outside : ∀ loop ∈ loops, ¬ body loop entry
  header_inside : ∀ loop ∈ loops, body loop loop.header
  latch_inside : ∀ loop ∈ loops, body loop loop.latch
  preheader_outside : ∀ loop ∈ loops, ¬ body loop loop.preheader
  two_edges : ∀ loop ∈ loops, blocks.predecessors loop.header ~ [loop.preheader, loop.latch]
  through_header : ∀ loop ∈ loops, ∀ a b, body loop b → b ≠ loop.header →
    a ∈ blocks.predecessors b → body loop a

variable {X σ : Type}

namespace NativeLoops

variable (f : NativeLoops X σ)

def guardedBlocks : GuardedBlocks X σ := guardNativeLoops f.null f.loops f.blocks

/-- The edge from `a` to `b` goes round a loop. -/
def goesRound (a b : Nat) : Bool := f.loops.any fun loop => loop.header = b ∧ loop.latch = a

/-- The rounds of each loop, by its header, after the edge from `a` to `b`. -/
def roundsAfter (rounds : Nat → Nat) (a b h : Nat) : Nat :=
  if b = h then if f.goesRound a b then rounds h + 1 else 1 else rounds h

def Within (rounds : Nat → Nat) : Prop := ∀ loop ∈ f.loops, rounds loop.header ≤ loop.trips

instance (rounds : Nat → Nat) : Decidable (f.Within rounds) :=
  inferInstanceAs (Decidable (∀ loop ∈ f.loops, rounds loop.header ≤ loop.trips))

/-- A run of the source within the bounds, with its rounds. -/
inductive Run (start : State Nat Nat X σ) : State Nat Nat X σ → (Nat → Nat) → Prop
  | start : Run start start fun _ => 0
  | step {s t : State Nat Nat X σ} {rounds : Nat → Nat} : Run start s rounds →
      f.blocks.step s = some (.goto t) → f.Within (f.roundsAfter rounds s.block t.block) →
      Run start t (f.roundsAfter rounds s.block t.block)

variable {f}

variable {loop : GuardCandidate} {a b : Nat}

theorem loop_ext {loop' : GuardCandidate} (h : loop ∈ f.loops) (h' : loop' ∈ f.loops)
    (hheader : loop.header = loop'.header) : loop = loop' :=
  List.inj_on_of_nodup_map f.headers_nodup h h' hheader

theorem latch_ne_preheader (h : loop ∈ f.loops) : loop.latch ≠ loop.preheader := fun heq =>
  f.preheader_outside loop h (heq ▸ f.latch_inside loop h)

theorem goesRound_iff :
    f.goesRound a b = true ↔ ∃ loop ∈ f.loops, loop.header = b ∧ loop.latch = a := by
  simp [goesRound]

theorem goesRound_of_mem (h : loop ∈ f.loops) :
    f.goesRound loop.latch loop.header = true := goesRound_iff.mpr ⟨loop, h, rfl, rfl⟩

theorem goesRound_preheader (h : loop ∈ f.loops) :
    f.goesRound loop.preheader loop.header = false := by
  rw [Bool.eq_false_iff]
  intro hround
  obtain ⟨loop', hloop', hheader, hlatch⟩ := goesRound_iff.mp hround
  rw [loop_ext hloop' h hheader] at hlatch
  exact latch_ne_preheader h hlatch

theorem predLabel_eq (a b : Nat) :
    predLabel f.loops b a = if f.goesRound a b then .bound b else .source a := rfl

theorem succLabel_eq (a b : Nat) :
    succLabel f.loops a b = if f.goesRound a b then .bound b else .source b := by
  unfold succLabel goesRound
  simp only [and_comm]

theorem predLabel_injective (b : Nat) : Function.Injective (predLabel f.loops b) := by
  intro p q h
  rw [predLabel_eq, predLabel_eq] at h
  by_cases hp : f.goesRound p b = true
  · by_cases hq : f.goesRound q b = true
    · obtain ⟨loop, hloop, hheader, rfl⟩ := goesRound_iff.mp hp
      obtain ⟨loop', hloop', hheader', rfl⟩ := goesRound_iff.mp hq
      rw [loop_ext hloop hloop' (hheader.trans hheader'.symm)]
    · rw [if_pos hp, if_neg hq] at h
      cases h
  · by_cases hq : f.goesRound q b = true
    · rw [if_neg hp, if_pos hq] at h
      cases h
    · rw [if_neg hp, if_neg hq] at h
      exact Label.source.inj h

/-- The edge that a step takes. -/
theorem mem_predecessors_of_step {s t : State Nat Nat X σ} (h : f.blocks.step s = some (.goto t)) :
    s.block ∈ f.blocks.predecessors t.block ∧ t.pred = some s.block := by
  obtain ⟨block, hblock, h⟩ := Option.bind_eq_some_iff.mp h
  obtain ⟨values, -, h⟩ := Option.bind_eq_some_iff.mp h
  obtain ⟨after, -, h⟩ := Option.bind_eq_some_iff.mp h
  have hmem := (Blocks.block?_eq_some_iff f.blocks_nodup).mp hblock
  obtain ⟨hsucc, ht⟩ := Term.next_goto h
  refine ⟨List.mem_flatMap.mpr ⟨_, hmem, List.mem_map.mpr ⟨t.block, ?_, rfl⟩⟩, by rw [ht]⟩
  exact List.mem_filter.mpr ⟨hsucc, decide_eq_true rfl⟩

theorem eq_of_edge_to_header (hloop : loop ∈ f.loops) (h : a ∈ f.blocks.predecessors loop.header) :
    a = loop.preheader ∨ a = loop.latch := by
  simpa using (f.two_edges loop hloop).mem_iff.mp h

/-! ## States of the two functions -/

/-- The counter of a loop in its `n`th round. -/
def IsCounter (rounds : Nat) (v : Value X) : Prop :=
  1 ≤ rounds ∧ v = .int 32 (BitVec.ofNat 32 (rounds - 1))

variable (f)

/-- A state of the source and the state of the guarded function at the same point. -/
structure Related (s : State Nat Nat X σ) (rounds : Nat → Nat) (s' : State Reg Label X σ) : Prop where
  block : s'.block = .source s.block
  pred : s'.pred = s.pred.map (predLabel f.loops s.block)
  regs : s'.regs ∘ Reg.source = s.regs
  world : s'.world = s.world
  entering : ∀ loop ∈ f.loops, s.block = loop.header →
    s.pred = some loop.preheader ∧ rounds loop.header = 1 ∨
      s.pred = some loop.latch ∧ IsCounter (rounds loop.header) (s'.regs (.iterNext loop.header))
  inside : ∀ loop ∈ f.loops, f.body loop s.block → s.block ≠ loop.header →
    IsCounter (rounds loop.header) (s'.regs (.iter loop.header))

variable {f} {s t : State Nat Nat X σ} {rounds : Nat → Nat} {s' : State Reg Label X σ}

/-- The value the counter of a header takes. -/
theorem Related.counter_value (h : f.Related s rounds s') (hloop : loop ∈ f.loops)
    (hheader : s.block = loop.header) :
    ∃ operand, s'.pred.bind (loop.counter : Phi Reg Label X).incomingFor = some operand ∧
      IsCounter (rounds loop.header) (operand.eval s'.regs) := by
  rcases h.entering loop hloop hheader with ⟨hpred, hone⟩ | ⟨hpred, hcounter⟩
  · refine ⟨.const (.int 32 0), ?_, ?_⟩
    · rw [h.pred, hpred, hheader, Option.map_some, predLabel_eq, goesRound_preheader hloop]
      simp [Phi.incomingFor, counter]
    · rw [hone]
      exact ⟨Nat.le_refl 1, rfl⟩
  · refine ⟨.reg (.iterNext loop.header), ?_, hcounter⟩
    rw [h.pred, hpred, hheader, Option.map_some, predLabel_eq, goesRound_of_mem hloop]
    simp [Phi.incomingFor, counter]

/-- The values of the PHIs of the guarded block: the counter of the loop it heads, if it does, and
those of the source. -/
theorem Related.phiValues (h : f.Related s rounds s') (phis : List (Phi Nat Nat X)) :
    ∃ news : List (Reg × Value X),
      Flow.phiValues s'.pred s'.regs
          (counters f.loops s.block ++ phis.map (Phi.rename .source (predLabel f.loops s.block))) =
        (Flow.phiValues s.pred s.regs phis).map
          (fun values => news ++ values.map fun entry => (Reg.source entry.1, entry.2)) ∧
      (∀ r, assign s'.regs news (.source r) = s'.regs (.source r)) ∧
      ∀ loop ∈ f.loops, f.body loop s.block →
        IsCounter (rounds loop.header) (assign s'.regs news (.iter loop.header)) := by
  have hold : Flow.phiValues (s.pred.map (predLabel f.loops s.block)) s'.regs
      (phis.map (Phi.rename .source (predLabel f.loops s.block))) = _ :=
    phiValues_rename (predLabel_injective s.block) phis s.pred
  rw [← h.pred, h.regs] at hold
  cases hfind : f.loops.find? fun loop => loop.header = s.block with
  | none =>
    have hnone : (counters f.loops s.block : List (Phi Reg Label X)) = [] := by
      rw [counters, hfind]
      rfl
    refine ⟨[], ?_, fun _ => rfl, fun loop hloop hbody => ?_⟩
    · rw [hnone, List.nil_append, hold]
      rfl
    · apply h.inside loop hloop hbody
      intro heq
      simpa [heq] using List.find?_eq_none.mp hfind loop hloop
  | some loop =>
    have hloop := List.mem_of_find?_eq_some hfind
    have hheader : loop.header = s.block := by simpa using List.find?_some hfind
    have hone : (counters f.loops s.block : List (Phi Reg Label X)) = [loop.counter] := by
      rw [counters, hfind]
      rfl
    obtain ⟨operand, hoperand, hcounter⟩ := h.counter_value hloop hheader.symm
    refine ⟨[(.iter loop.header, operand.eval s'.regs)], ?_, fun r => ?_, fun other hother hbody => ?_⟩
    · rw [hone, List.singleton_append, Flow.phiValues, hoperand, hold, Option.bind_some, Option.map_map]
      rfl
    · simp [assign]
    · -- the PHI sets the counter of the loop entered here; the others keep theirs
      by_cases heq : other.header = loop.header
      · rw [loop_ext hother hloop heq]
        show IsCounter _ (Function.update s'.regs _ _ _)
        rw [Function.update_self]
        exact hcounter
      · have hne : s.block ≠ other.header := fun hb => heq (hb.symm.trans hheader.symm)
        show IsCounter _ (Function.update s'.regs _ _ _)
        rw [Function.update_of_ne (by simpa using heq)]
        exact h.inside other hother hbody hne

/-! ## One block -/

/-- The guarded function executes the block of the source: it stops where the source does, and goes
where the source goes, over a guard if the edge goes round. The counters of the loops around the block
are in place. -/
theorem Related.step (h : f.Related s rounds s') :
    (f.blocks.step s = none → f.guardedBlocks.step s' = none) ∧
      (∀ value world, f.blocks.step s = some (.done value world) →
        f.guardedBlocks.step s' = some (.done value world)) ∧
      ∀ t, f.blocks.step s = some (.goto t) → ∃ regs' : Reg → Value X,
        f.guardedBlocks.step s' =
            some (.goto ⟨succLabel f.loops s.block t.block, some (.source s.block), regs', t.world⟩) ∧
          regs' ∘ Reg.source = t.regs ∧
          ∀ loop ∈ f.loops, f.body loop s.block →
            IsCounter (rounds loop.header) (regs' (.iter loop.header)) := by
  have hblock' : f.guardedBlocks.block? s'.block =
      (f.blocks.block? s.block).map (guardedBlock f.loops s.block) := by
    rw [h.block]
    exact block?_source f.loops_ne f.headers_nodup f.blocks_nodup s.block
  unfold Blocks.step
  rw [hblock']
  cases hblock : f.blocks.block? s.block with
  | none => exact ⟨fun _ => rfl, nofun, nofun⟩
  | some block =>
    obtain ⟨news, hphis, hsource, hcounters⟩ := h.phiValues block.phis
    rw [Option.map_some, Option.bind_some, Option.bind_some]
    show _ ∧ _
    rw [guardedBlock, hphis]
    cases hvalues : Flow.phiValues s.pred s.regs block.phis with
    | none => exact ⟨fun _ => rfl, nofun, nofun⟩
    | some values =>
      rw [Option.map_some, Option.bind_some, Option.bind_some]
      -- the registers after the PHIs
      generalize hregs : assign s'.regs (news ++ values.map fun entry => (Reg.source entry.1, entry.2)) =
        regs₀
      have hassign : regs₀ = assign (assign s'.regs news)
          (values.map fun entry => (Reg.source entry.1, entry.2)) := by
        rw [← hregs]
        exact List.foldl_append
      obtain ⟨hcomp, hnew⟩ := assign_rename (fun _ _ => Reg.source.inj) (assign s'.regs news) values
      rw [← hassign] at hcomp hnew
      have hsame : assign s'.regs news ∘ Reg.source = s.regs := by
        rw [← h.regs]
        exact funext hsource
      rw [hsame] at hcomp
      have hrun : Follows Reg.source regs₀ _ _ :=
        runBody_rename (fun _ _ => Reg.source.inj) block.body s.world
      rw [hcomp] at hrun
      rw [h.world]
      cases hbody : runBody block.body (assign s.regs values) s.world with
      | none =>
        show _ ∧ _
        rw [hrun.stuck hbody]
        exact ⟨fun _ => rfl, nofun, nofun⟩
      | some after =>
        obtain ⟨regs₁', hbody', hcomp₁, hnew₁⟩ := hrun.runs after.1 after.2 hbody
        rw [hbody', Option.bind_some, Option.bind_some, h.block,
          Term.next_rename (succLabel f.loops s.block) s.block, hcomp₁]
        have hiter : ∀ loop ∈ f.loops, f.body loop s.block →
            IsCounter (rounds loop.header) (regs₁' (.iter loop.header)) := by
          intro loop hloop hinside
          rw [hnew₁ (.iter loop.header) fun _ => nofun, hnew (.iter loop.header) fun _ => nofun]
          exact hcounters loop hloop hinside
        cases hnext : block.term.next s.block after.1 after.2 with
        | none => exact ⟨fun _ => rfl, nofun, nofun⟩
        | some next =>
          refine ⟨nofun, fun value world hdone => ?_, fun t hgoto => ?_⟩
          · cases hdone
            rfl
          · cases hgoto
            obtain ⟨-, ht⟩ := Term.next_goto hnext
            rw [ht]
            exact ⟨regs₁', rfl, hcomp₁, hiter⟩

/-! ## The guard -/

theorem step_guard (hloop : loop ∈ f.loops) {n : Nat} (hn : n ≤ loop.trips) {regs : Reg → Value X}
    (hcounter : IsCounter n (regs (.iter loop.header))) (pred : Option Label) (world : World σ) :
    ∃ regs' : Reg → Value X,
      f.guardedBlocks.step ⟨.bound loop.header, pred, regs, world⟩ =
          some (.goto ⟨if n < loop.trips then .source loop.header else .fail,
            some (.bound loop.header), regs', world⟩) ∧
        regs' ∘ Reg.source = regs ∘ Reg.source ∧
        regs' (.iterNext loop.header) = .int 32 (BitVec.ofNat 32 n) ∧
        ∀ h, regs' (.iter h) = regs (.iter h) := by
  obtain ⟨hpos, hiter⟩ := hcounter
  have hblock : f.guardedBlocks.block? (.bound loop.header) = some loop.guardBlock :=
    block?_bound f.loops_ne f.headers_nodup f.blocks_nodup hloop
  have hnext : BitVec.ofNat 32 (n - 1) + 1 = BitVec.ofNat 32 n := by
    apply BitVec.eq_of_toNat_eq
    simp
    omega
  have hless : BitVec.ofNat 32 n < BitVec.ofNat 32 loop.trips ↔ n < loop.trips := by
    have hlt := loop.trips_lt
    rw [BitVec.lt_def, BitVec.toNat_ofNat, BitVec.toNat_ofNat, Nat.mod_eq_of_lt (by omega),
      Nat.mod_eq_of_lt (by omega)]
  refine ⟨Function.update (Function.update (Function.update regs (.iterNext loop.header)
      (.int 32 (BitVec.ofNat 32 n))) (.iterVisible loop.header) (.int 32 (BitVec.ofNat 32 n)))
      (.more loop.header) (.int 1 (if n < loop.trips then 1 else 0)), ?_, ?_, ?_, ?_⟩
  · unfold Blocks.step
    rw [hblock, Option.bind_some]
    simp only [guardBlock, Flow.phiValues, assign, List.foldl_nil, Option.bind_some,
      runBody, Inst.run, Operand.eval, hiter, hnext, Function.update_self, hless, Term.condBr,
      Term.next, List.map_cons, List.map_nil]
    split <;> rfl
  · funext r
    simp
  · simp
  · simp

/-! ## Runs -/

theorem roundsAfter_of_ne {h : Nat} (hne : b ≠ h) :
    f.roundsAfter rounds a b h = rounds h := if_neg hne

/-- The counters of the loops around the target of an edge, its headers apart. -/
theorem inside_after (hstep : f.blocks.step s = some (.goto t)) {regs : Reg → Value X}
    (hcounters : ∀ loop ∈ f.loops, f.body loop s.block → IsCounter (rounds loop.header) (regs (.iter loop.header)))
    (hloop : loop ∈ f.loops) (hinside : f.body loop t.block) (hne : t.block ≠ loop.header) :
    IsCounter (f.roundsAfter rounds s.block t.block loop.header) (regs (.iter loop.header)) := by
  rw [roundsAfter_of_ne hne]
  apply hcounters loop hloop
  exact f.through_header loop hloop _ _ hinside hne (mem_predecessors_of_step hstep).1

theorem Related.next_plain (h : f.Related s rounds s') (hstep : f.blocks.step s = some (.goto t))
    (hplain : f.goesRound s.block t.block = false) :
    ∃ t', f.guardedBlocks.Reaches s' t' ∧ f.Related t (f.roundsAfter rounds s.block t.block) t' := by
  obtain ⟨regs', hstep', hregs, hcounters⟩ := h.step.2.2 t hstep
  obtain ⟨hedge, hpred⟩ := mem_predecessors_of_step hstep
  refine ⟨_, .step .refl hstep', ?_, ?_, hregs, rfl, fun loop hloop hheader => ?_, ?_⟩
  · rw [succLabel_eq, hplain]
    rfl
  · rw [hpred, Option.map_some, predLabel_eq, hplain]
    rfl
  · -- the header is entered from the preheader
    rw [hheader] at hedge hplain
    have hfrom : s.block = loop.preheader := by
      refine (eq_of_edge_to_header hloop hedge).resolve_right fun hlatch => ?_
      rw [hlatch, goesRound_of_mem hloop] at hplain
      cases hplain
    refine .inl ⟨by rw [hpred, hfrom], ?_⟩
    rw [roundsAfter, if_pos hheader, hheader, hplain]
    rfl
  · intro loop hloop hinside hne
    exact inside_after hstep hcounters hloop hinside hne

theorem within_plain (hwithin : f.Within rounds) (hplain : f.goesRound a b = false) :
    f.Within (f.roundsAfter rounds a b) := by
  intro loop hloop
  unfold roundsAfter
  rw [hplain]
  split
  · exact loop.trips_pos
  · exact hwithin loop hloop

theorem within_round (hloop : loop ∈ f.loops) (hwithin : f.Within rounds) :
    f.Within (f.roundsAfter rounds loop.latch loop.header) ↔ rounds loop.header < loop.trips := by
  have hself : f.roundsAfter rounds loop.latch loop.header loop.header = rounds loop.header + 1 := by
    rw [roundsAfter, if_pos rfl, goesRound_of_mem hloop]
    rfl
  constructor
  · intro h
    have := h loop hloop
    omega
  · intro hlt other hother
    by_cases heq : loop.header = other.header
    · rw [← loop_ext hloop hother heq, hself]
      exact hlt
    · rw [roundsAfter_of_ne heq]
      exact hwithin other hother

/-- An edge that goes round a loop passes its guard, below the bound; at the bound it fails. -/
theorem Related.next_round (h : f.Related s rounds s') (hwithin : f.Within rounds)
    (hstep : f.blocks.step s = some (.goto t)) (hloop : loop ∈ f.loops)
    (hlatch : s.block = loop.latch) (hheader : t.block = loop.header) :
    ∃ t', f.guardedBlocks.Reaches s' t' ∧ t'.world = t.world ∧
      (rounds loop.header < loop.trips → f.Related t (f.roundsAfter rounds s.block t.block) t') ∧
      (loop.trips ≤ rounds loop.header → t'.block = .fail) := by
  obtain ⟨regs₁, hstep', hregs, hcounters⟩ := h.step.2.2 t hstep
  obtain ⟨-, hpred⟩ := mem_predecessors_of_step hstep
  have hcounter := hcounters loop hloop (hlatch ▸ f.latch_inside loop hloop)
  have hlabel : succLabel f.loops s.block t.block = .bound loop.header := by
    rw [succLabel_eq, hlatch, hheader, goesRound_of_mem hloop]
    rfl
  rw [hlabel] at hstep'
  obtain ⟨regs₂, hguard, hsource, hnext, hiter⟩ :=
    step_guard hloop (hwithin loop hloop) hcounter (some (.source s.block)) t.world
  refine ⟨_, .step (.step .refl hstep') hguard, rfl, fun hlt => ?_, fun hle => ?_⟩
  · refine ⟨?_, ?_, hsource.trans hregs, rfl, fun other hother hother' => ?_, ?_⟩
    · rw [if_pos hlt, hheader]
    · rw [hpred, Option.map_some, predLabel_eq, hlatch, hheader, goesRound_of_mem hloop]
      rfl
    · have hsame : other = loop := loop_ext hother hloop (hother'.symm.trans hheader)
      refine .inr ⟨by rw [hpred, hlatch, hsame], ?_⟩
      rw [hsame, hlatch, hheader, roundsAfter, if_pos rfl, goesRound_of_mem hloop]
      exact ⟨Nat.succ_pos _, hnext⟩
    · intro other hother hinside hne
      show IsCounter _ (regs₂ (.iter other.header))
      rw [hiter]
      exact inside_after hstep hcounters hother hinside hne
  · exact if_neg (Nat.not_lt.mpr hle)

theorem Run.related {start : State Nat Nat X σ} {start' : State Reg Label X σ}
    (hstart : f.Related start (fun _ => 0) start') (hrun : f.Run start s rounds) :
    f.Within rounds ∧ ∃ s', f.guardedBlocks.Reaches start' s' ∧ f.Related s rounds s' := by
  induction hrun with
  | start => exact ⟨fun _ _ => Nat.zero_le _, start', .refl, hstart⟩
  | @step s t rounds _ hstep hwithin' ih =>
    obtain ⟨hwithin, s', hreach, hrelated⟩ := ih
    refine ⟨hwithin', ?_⟩
    cases hround : f.goesRound s.block t.block with
    | false =>
      obtain ⟨t', hreach', hrelated'⟩ := hrelated.next_plain hstep hround
      exact ⟨t', hreach.trans hreach', hrelated'⟩
    | true =>
      obtain ⟨loop, hloop, hheader, hlatch⟩ := goesRound_iff.mp hround
      rw [← hheader, ← hlatch] at hwithin'
      obtain ⟨t', hreach', -, hrelated', -⟩ :=
        hrelated.next_round hwithin hstep hloop hlatch.symm hheader.symm
      exact ⟨t', hreach.trans hreach', hrelated' ((within_round hloop hwithin).mp hwithin')⟩

/-! ## The inputs of the PHIs -/

variable (f) in
/-- The predecessors of a block in the guarded function, those over a guard and the others. -/
theorem predecessors_guarded (b : Nat) :
    (guarded f.loops f.null f.blocks).predecessors (.source b) =
      ((f.blocks.predecessors b).filter fun a => !f.goesRound a b).map Label.source ++
        (f.loops.filter fun loop => loop.header = b).map fun loop => Label.bound loop.header := by
  have hsources : (guardedSources f.loops f.blocks).predecessors (.source b) =
      ((f.blocks.predecessors b).filter fun a => !f.goesRound a b).map Label.source := by
    unfold guardedSources Blocks.predecessors
    rw [List.flatMap_map, List.filter_flatMap, List.map_flatMap]
    congr 1
    funext entry
    simp only [guardedBlock, Term.successors_rename, List.filter_map, List.map_map]
    -- an edge to the block is kept unless it goes round
    have hkeep : ((fun label => decide (label = Label.source b)) ∘ succLabel f.loops entry.1) =
        fun t => decide (t = b) && !f.goesRound entry.1 b := by
      funext t
      by_cases ht : t = b
      · subst ht
        cases hround : f.goesRound entry.1 t <;> simp [succLabel_eq, hround]
      · simp only [Function.comp_apply, succLabel_eq, ht, decide_false, Bool.false_and]
        split <;> simp [ht]
    rw [hkeep]
    cases hround : f.goesRound entry.1 b <;> simp [hround, Function.comp_def]
  have hguards : ∀ loops : List GuardCandidate,
      (guardBlocks loops : GuardedBlocks X σ).predecessors (.source b) =
        (loops.filter fun loop => loop.header = b).map fun loop => Label.bound loop.header := by
    intro loops
    induction loops with
    | nil => rfl
    | cons loop loops ih =>
      have hcons : (guardBlocks (loop :: loops) : GuardedBlocks X σ).predecessors (.source b) =
          ([Label.source loop.header, .fail].filter (· = .source b)).map (fun _ => .bound loop.header) ++
            (guardBlocks loops : GuardedBlocks X σ).predecessors (.source b) := rfl
      rw [hcons, ih]
      by_cases hb : loop.header = b <;> simp [hb]
  have happend : (guarded f.loops f.null f.blocks).predecessors (.source b) =
      (guardedSources f.loops f.blocks).predecessors (.source b) ++
        (guardBlocks f.loops : GuardedBlocks X σ).predecessors (.source b) := by
    unfold guarded Blocks.predecessors
    rw [List.flatMap_append, List.flatMap_append]
    exact List.append_nil _
  rw [happend, hsources, hguards]

/-- The names a PHI of the block now has for its predecessors are its predecessors. -/
theorem map_predLabel_perm (b : Nat) :
    (f.blocks.predecessors b).map (predLabel f.loops b) ~
      (guarded f.loops f.null f.blocks).predecessors (.source b) := by
  rw [predecessors_guarded]
  cases hfind : f.loops.find? fun loop => loop.header = b with
  | none =>
    have hno : ∀ a, f.goesRound a b = false := by
      intro a
      rw [Bool.eq_false_iff]
      intro hround
      obtain ⟨loop, hloop, hheader, -⟩ := goesRound_iff.mp hround
      simpa [hheader] using List.find?_eq_none.mp hfind loop hloop
    have hnone : (f.loops.filter fun loop => loop.header = b) = [] :=
      List.filter_eq_nil_iff.mpr (List.find?_eq_none.mp hfind)
    simp [hno, hnone, funext (fun a => predLabel_eq (f := f) a b)]
  | some loop =>
    have hloop := List.mem_of_find?_eq_some hfind
    have hheader : loop.header = b := by simpa using List.find?_some hfind
    subst hheader
    have hedges := f.two_edges loop hloop
    have hguard : (f.loops.filter fun l => l.header = loop.header).map (fun l => Label.bound l.header) =
        [.bound loop.header] := by
      have hmap : (f.loops.filter fun l => l.header = loop.header).map header =
          (f.loops.map header).filter (· = loop.header) := by
        rw [List.filter_map]
        rfl
      have hcount := List.count_eq_one_of_mem f.headers_nodup (List.mem_map_of_mem hloop)
      have hfilter : (f.loops.map header).filter (· = loop.header) = [loop.header] := by
        have := List.filter_eq (l := f.loops.map header) loop.header
        rw [hcount] at this
        exact this
      have := congrArg (List.map Label.bound) (hmap.trans hfilter)
      rwa [List.map_map] at this
    rw [hguard]
    refine (hedges.map _).trans (.trans ?_ (((hedges.filter _).map _).append_right _).symm)
    simp [predLabel_eq, goesRound_preheader hloop, goesRound_of_mem hloop]

/-- Every PHI of the guarded function has one input for every edge into its block. -/
theorem phisComplete_guardedBlocks (h : f.blocks.PhisComplete) : f.guardedBlocks.PhisComplete := by
  have hperm : f.guardedBlocks ~ guarded f.loops f.null f.blocks :=
    guardNativeLoops_perm f.null f.blocks f.loops_ne f.headers_nodup
  have hpreds : ∀ label, f.guardedBlocks.predecessors label ~
      (guarded f.loops f.null f.blocks).predecessors label := fun label => hperm.flatMap_right _
  intro entry hentry phi hphi
  refine .trans ?_ (hpreds entry.1).symm
  have hentry := hperm.mem_iff.mp hentry
  simp only [guarded, guardedSources, guardBlocks, List.mem_append, List.mem_map,
    List.mem_singleton] at hentry
  rcases hentry with (⟨⟨b, block⟩, hblock, rfl⟩ | ⟨loop, -, rfl⟩) | rfl
  · refine .trans ?_ (map_predLabel_perm b)
    rcases List.mem_append.mp hphi with hcounter | hold
    · -- the counter has the two edges of the loop
      obtain ⟨loop, hfind, rfl⟩ := Option.map_eq_some_iff.mp (Option.mem_toList.mp hcounter)
      have hloop := List.mem_of_find?_eq_some hfind
      have hheader : loop.header = b := by simpa using List.find?_some hfind
      subst hheader
      refine .trans ?_ ((f.two_edges loop hloop).map _).symm
      simp [counter, predLabel_eq, goesRound_preheader hloop, goesRound_of_mem hloop]
    · obtain ⟨phi, hmem, rfl⟩ := List.mem_map.mp hold
      have hnames : (phi.rename Reg.source (predLabel f.loops b)).incoming.map Prod.fst =
          (phi.incoming.map Prod.fst).map (predLabel f.loops b) := by
        simp [Phi.rename, Function.comp_def]
      rw [hnames]
      exact (h _ hblock phi hmem).map _
  · cases hphi
  · cases hphi

/-! ## The pass is sound -/

/-- The two functions are at one point: the same block is next, with the same registers and world. -/
structure Agrees (s : State Nat Nat X σ) (s' : State Reg Label X σ) : Prop where
  block : s'.block = .source s.block
  regs : s'.regs ∘ Reg.source = s.regs
  world : s'.world = s.world

def aborted (world : World σ) : World σ :=
  { world with outcome := outcomeValue (BitVec.ofInt 32 CapsuleError.intrinsicGuard) }

theorem step_fail (h : s'.block = .fail) :
    f.guardedBlocks.step s' = some (.done f.null (aborted s'.world)) := by
  have hblock : f.guardedBlocks.block? .fail = some (failBlock f.null) :=
    block?_fail f.loops_ne f.headers_nodup f.blocks_nodup
  unfold Blocks.step
  rw [h, hblock]
  cases f.null <;> rfl

variable (f) in
/-- What a guarded function is to its source, from the start of a run. -/
structure Sound (start : State Nat Nat X σ) (start' : State Reg Label X σ) : Prop where
  unchanged : ∀ s rounds, f.Run start s rounds → ∃ s', f.guardedBlocks.Reaches start' s' ∧ Agrees s s' ∧
    (f.blocks.step s = none → f.guardedBlocks.step s' = none) ∧
    ∀ value world, f.blocks.step s = some (.done value world) →
      f.guardedBlocks.step s' = some (.done value world)
  /-- A step that would pass the bound of a loop aborts, after as many rounds as the bound is. -/
  bounded : ∀ s rounds t, f.Run start s rounds → f.blocks.step s = some (.goto t) →
    ¬ f.Within (f.roundsAfter rounds s.block t.block) →
    (∃ loop ∈ f.loops, s.block = loop.latch ∧ t.block = loop.header ∧
        rounds loop.header = loop.trips) ∧
      ∃ s', f.guardedBlocks.Reaches start' s' ∧
        f.guardedBlocks.step s' = some (.done f.null (aborted t.world))

/-- **The guards change no run within their bounds and end every other one.** -/
theorem guardNativeLoops_sound (f : NativeLoops X σ) (regs : Reg → Value X) (world : World σ) :
    f.Sound ⟨f.entry, none, regs ∘ Reg.source, world⟩ ⟨.source f.entry, none, regs, world⟩ ∧
      (f.blocks.PhisComplete → f.guardedBlocks.PhisComplete) := by
  have hstart : f.Related ⟨f.entry, none, regs ∘ Reg.source, world⟩ (fun _ => 0)
      ⟨.source f.entry, none, regs, world⟩ := by
    refine ⟨rfl, rfl, rfl, rfl, fun loop hloop hheader => ?_, fun loop hloop hinside => ?_⟩
    · have hheader : f.entry = loop.header := hheader
      exact absurd (hheader ▸ f.header_inside loop hloop) (f.entry_outside loop hloop)
    · exact absurd hinside (f.entry_outside loop hloop)
  refine ⟨⟨fun s rounds hrun => ?_, fun s rounds t hrun hstep hpast => ?_⟩, phisComplete_guardedBlocks⟩
  · obtain ⟨-, s', hreach, hrelated⟩ := hrun.related hstart
    exact ⟨s', hreach, ⟨hrelated.block, hrelated.regs, hrelated.world⟩, hrelated.step.1,
      hrelated.step.2.1⟩
  · obtain ⟨hwithin, s', hreach, hrelated⟩ := hrun.related hstart
    cases hround : f.goesRound s.block t.block with
    | false => exact absurd (within_plain hwithin hround) hpast
    | true =>
      obtain ⟨loop, hloop, hheader, hlatch⟩ := goesRound_iff.mp hround
      rw [← hheader, ← hlatch, within_round hloop hwithin, Nat.not_lt] at hpast
      obtain ⟨t', hreach', hworld, -, hfail⟩ :=
        hrelated.next_round hwithin hstep hloop hlatch.symm hheader.symm
      refine ⟨⟨loop, hloop, hlatch.symm, hheader.symm, ?_⟩, t', hreach.trans hreach', ?_⟩
      · exact Nat.le_antisymm (hwithin loop hloop) hpast
      · rw [step_fail (hfail hpast), hworld]

end NativeLoops

def endless : NativeLoops Unit Unit where
  blocks :=
    [(0, ⟨[], [], .jump [] (fun _ => some 0) [1]⟩),
      (1, ⟨[⟨0, [(0, .const (.int 32 0)), (1, .reg 1)]⟩], [.add 1 (.reg 0) (.const (.int 32 5))],
        .jump [] (fun _ => some 0) [1, 2]⟩),
      (2, ⟨[], [], .ret (some (.reg 0))⟩)]
  entry := 0
  null := some (.int 32 0)
  loops := [⟨1, 1, 0, 2, Nat.two_pos, by decide⟩]
  body := fun _ b => b = 1
  blocks_nodup := by decide
  loops_ne := by simp
  headers_nodup := by decide
  entry_outside := by simp
  header_inside := by simp
  latch_inside := by simp
  preheader_outside := by simp
  two_edges := by simp [Blocks.predecessors, Term.successors]
  through_header := by simp

/-- It goes round once, keeps its PHIs in order, and is stopped after two rounds. -/
theorem guardNativeLoops_sound_endless :
    endless.guardedBlocks.PhisComplete ∧
      ∃ s', endless.guardedBlocks.Reaches ⟨.source 0, none, fun _ => .other (), ⟨0, ()⟩⟩ s' ∧
        endless.guardedBlocks.step s' =
          some (.done (some (.int 32 0)) ⟨outcomeValue (BitVec.ofInt 32 (-10)), ()⟩) := by
  obtain ⟨hsound, hphis⟩ := endless.guardNativeLoops_sound (fun _ => .other ()) ⟨0, ()⟩
  have hfirst : endless.Run ⟨0, none, fun _ => .other (), ⟨0, ()⟩⟩ _ _ :=
    .step (.step .start rfl (by decide)) rfl (by decide)
  refine ⟨hphis ?_, ?_⟩
  · simp [endless, Blocks.PhisComplete, Blocks.predecessors, Term.successors]
  · exact (hsound.bounded _ _ _ hfirst rfl (by decide)).2

end BpfCapsule.LoopGuard

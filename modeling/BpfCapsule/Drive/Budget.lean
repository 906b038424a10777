import BpfCapsule.Drive.Delivery

/-!
# BpfCapsule — drives of any budget

`drive_budget_transparent` compares the chain of entries under any budget with the same program
driven without one. The budget is invisible as long as a region that publishes an outcome also
stops the step and a continue delivers what the call would have delivered. `exitAndGoOn` publishes
an outcome and goes on, and its budget decides what the host sees; an over-aligned result reaches
the host from a call but not from a continue.
-/

namespace BpfCapsule.Drive

open BoundedLoop
open Stackify (Packed regionIdDone)

variable {σ : Type}

/-! ## The drive without a budget -/

namespace Program

variable (p : Program σ) (output : Output) (out : Bytes)

def unboundedMove (kind : EntryKind) (f : Fiber σ) : List Event × Phase σ :=
  let ticked := p.tick f
  if ticked.stop then
    let ended := p.finishEntry output out kind ticked.state
    (ticked.events ++ ended.events, ended.next)
  else (ticked.events, .running kind ticked.state)

/-- The first `n` dispatches of the unbounded drive. -/
def unbounded : (n : Nat) → Phase σ → List Event × Phase σ := run (p.unboundedMove output out)

def Quiet (phase : Phase σ) : Prop :=
  ∀ n kind f, (p.unbounded output out n phase).2 = .running kind f → (p.tick f).stop = false →
    (p.tick f).state.outcome = 0

end Program

def Fiber.swept (f : Fiber σ) : Fiber σ := { f with resume := 0 }

/-! ## Phases that differ in the kind of the next entry -/

def Report.Same (root : Root) (a b : Report) : Prop :=
  a.status = b.status ∧ a.code = b.code ∧ ∀ i, root.carries i = true → a.output i = b.output i

def Phase.Same (root : Root) : Phase σ → Phase σ → Prop
  | .running _ f, .running _ g => f = g
  | .finished a, .finished b => a.Same root b
  | _, _ => False

theorem Report.same_refl (root : Root) (a : Report) : a.Same root a := ⟨rfl, rfl, fun _ _ => rfl⟩

theorem Report.Same.symm {root : Root} {a b : Report} (h : a.Same root b) : b.Same root a :=
  ⟨h.1.symm, h.2.1.symm, fun i hi => (h.2.2 i hi).symm⟩

theorem Report.Same.trans {root : Root} {a b c : Report} (hab : a.Same root b)
    (hbc : b.Same root c) : a.Same root c :=
  ⟨hab.1.trans hbc.1, hab.2.1.trans hbc.2.1, fun i hi => (hab.2.2 i hi).trans (hbc.2.2 i hi)⟩

theorem Phase.same_refl (root : Root) (phase : Phase σ) : phase.Same root phase := by
  cases phase with
  | running kind f => exact (rfl : f = f)
  | finished report => exact Report.same_refl root report

namespace Program

variable {p : Program σ} {budget : Budget} {output : Output} {out : Bytes} {f : Fiber σ}

section Delivered

variable (haccepts : p.root.Accepts output) (hoffset : output.size = 0 ∨ output.alignLog ≤ 4)

include haccepts hoffset

/-- What a boundary of either kind delivers is what `capsule_call` does. -/
theorem deliver_same_call (f : Fiber σ) (kind : EntryKind) :
    (p.deliver output out f kind).Same p.root ⟨.ok, 0, p.root.loadResult f.slice out⟩ := by
  have hholds : p.root.Holds f.slice fun i => f.slice (p.root.rootFp + p.root.resultOffset + i) :=
    fun _ _ => rfl
  have hbytes := deliver_output haccepts hoffset hholds out
  cases kind with
  | call => exact Report.same_refl p.root _
  | «continue» =>
    refine ⟨(deliver_continue haccepts out).1, ?_, ?_⟩
    · unfold deliver
      rw [if_neg fun hne => hne haccepts.1.symm]
    · intro i hi
      exact (hbytes .continue i hi).trans (hbytes .call i hi).symm

theorem finishEntry_same (f : Fiber σ) (kind kind' : EntryKind) :
    (p.finishEntry output out kind f).events = (p.finishEntry output out kind' f).events ∧
    (p.finishEntry output out kind f).next.Same p.root (p.finishEntry output out kind' f).next := by
  unfold finishEntry
  cases observedStatus f.outcome (f.resume == 0) with
  | ok =>
    refine ⟨rfl, ?_⟩
    exact (deliver_same_call haccepts hoffset f kind).trans
      (deliver_same_call haccepts hoffset f kind').symm
  | exited => exact ⟨rfl, Phase.same_refl p.root _⟩
  | yield => exact ⟨rfl, Phase.same_refl p.root _⟩
  | pending => exact ⟨rfl, Phase.same_refl p.root _⟩

end Delivered

/-! ## One entry is a number of dispatches -/

theorem Quiet.unbounded {phase : Phase σ} (h : p.Quiet output out phase) (n : Nat) :
    p.Quiet output out (p.unbounded output out n phase).2 := by
  intro m kind g hg hstop
  apply h (n + m) kind g _ hstop
  unfold Program.unbounded at hg ⊢
  rw [run_add]
  exact hg

theorem unboundedMove_go (h : (p.tick f).stop = false) (kind : EntryKind) :
    p.unboundedMove output out kind f = ((p.tick f).events, .running kind (p.tick f).state) := by
  unfold unboundedMove
  simp only [h, Bool.false_eq_true, if_false]

theorem unboundedMove_stop (h : (p.tick f).stop = true) (kind : EntryKind) :
    p.unboundedMove output out kind f
      = ((p.tick f).events ++ (p.finishEntry output out kind (p.tick f).state).events,
          (p.finishEntry output out kind (p.tick f).state).next) := by
  unfold unboundedMove
  simp only [h, if_true]

theorem unbounded_succ (p : Program σ) (n : Nat) (kind : EntryKind) (f : Fiber σ) :
    p.unbounded output out (n + 1) (.running kind f)
      = ((p.unboundedMove output out kind f).1
          ++ (p.unbounded output out n (p.unboundedMove output out kind f).2).1,
        (p.unbounded output out n (p.unboundedMove output out kind f).2).2) :=
  rfl

section Loop

variable (p output out) {n : Nat} (kind : EntryKind)

/-- A loop of dispatches that does not stop is that many unbounded moves. -/
theorem loop_running (hstop : (loop p.tick n f).stop = false) :
    p.unbounded output out n (.running kind f)
      = ((loop p.tick n f).events, .running kind (loop p.tick n f).state) := by
  induction n generalizing f with
  | zero => rfl
  | succ n ih =>
    unfold loop andThen at hstop ⊢
    cases htick : (p.tick f).stop with
    | true => simp [htick] at hstop
    | false =>
      simp only [htick, Bool.false_eq_true, if_false] at hstop ⊢
      rw [unbounded_succ, unboundedMove_go htick, ih hstop]

/-- A loop of dispatches that stops is a number of unbounded moves, the last of which ends the
entry. -/
theorem loop_stopped (hstop : (loop p.tick n f).stop = true) :
    ∃ m, 0 < m ∧ p.unbounded output out m (.running kind f)
      = ((loop p.tick n f).events ++ (p.finishEntry output out kind (loop p.tick n f).state).events,
          (p.finishEntry output out kind (loop p.tick n f).state).next) := by
  induction n generalizing f with
  | zero => cases hstop
  | succ n ih =>
    unfold loop andThen at hstop ⊢
    cases htick : (p.tick f).stop with
    | true =>
      refine ⟨1, Nat.one_pos, ?_⟩
      simp only [htick, if_true]
      rw [unbounded_succ, unboundedMove_stop htick]
      show (_ ++ [], _) = _
      rw [List.append_nil]
      rfl
    | false =>
      simp only [htick, Bool.false_eq_true, if_false] at hstop ⊢
      obtain ⟨m, -, hm⟩ := ih hstop
      refine ⟨m + 1, Nat.succ_pos m, ?_⟩
      rw [unbounded_succ, unboundedMove_go htick, hm, List.append_assoc]

end Loop

/-- A drive that ran out of its budget leaves the outcome word clear. -/
theorem outcome_of_exhausted {kind : EntryKind} (hquiet : p.Quiet output out (.running kind f))
    {n : Nat} (hn : 0 < n) (hstop : (loop p.tick n f).stop = false) :
    (loop p.tick n f).state.outcome = 0 := by
  obtain ⟨m, rfl⟩ : ∃ m, n = m + 1 := ⟨n - 1, by omega⟩
  rw [loop_add] at hstop ⊢
  unfold andThen at hstop ⊢
  cases hfirst : (loop p.tick m f).stop with
  | true => simp [hfirst] at hstop
  | false =>
    simp only [hfirst, Bool.false_eq_true, if_false] at hstop ⊢
    have hphase : (p.unbounded output out m (.running kind f)).2
        = .running kind (loop p.tick m f).state := by
      rw [p.loop_running output out kind hfirst]
    rw [loop_one] at hstop ⊢
    exact hquiet m kind _ hphase hstop

theorem tick_idle (hidle : f.resume = 0) : p.tick f = ⟨f, [], true⟩ := by
  unfold tick
  rw [hidle, Packed.dispatch_zero]

/-- With the outcome clear, only the resume word decides the report; a PENDING fiber is continued as
it is. -/
theorem finishEntry_clear (hclear : f.outcome = 0) (kind : EntryKind) :
    p.finishEntry output out kind f
      = if f.resume = 0 then
          ⟨[], p.deliver output out f kind, .finished (p.deliver output out f kind)⟩
        else ⟨[], ⟨.pending, 0, out⟩, .running .continue f⟩ := by
  have hstatus : observedStatus f.outcome (f.resume == 0)
      = if f.resume = 0 then .ok else .pending := by
    rw [hclear, observedStatus_zero]
    simp
  unfold finishEntry
  rw [hstatus]
  split_ifs with hidle
  · rfl
  · simp only [prepareContinue, if_neg hidle, ← hclear]

theorem entry_eq (p : Program σ) (kind : EntryKind) (f : Fiber σ) :
    p.entry budget output out kind f
      = ⟨(loop p.tick budget.total f).events
            ++ (p.finishEntry output out kind (loop p.tick budget.total f).state).events,
          (p.finishEntry output out kind (loop p.tick budget.total f).state).report,
          (p.finishEntry output out kind (loop p.tick budget.total f).state).next⟩ := by
  rw [← trampoline_eq]
  rfl

section Chain

variable (haccepts : p.root.Accepts output) (hoffset : output.size = 0 ∨ output.alignLog ≤ 4)

include haccepts hoffset

/-- An entry under a budget is a positive number of unbounded moves. -/
theorem entry_eq_unbounded (kind : EntryKind) {kind' : EntryKind}
    (hquiet : p.Quiet output out (.running kind' f)) :
    ∃ m, 0 < m ∧
      (p.entry budget output out kind f).events
        = (p.unbounded output out m (.running kind' f)).1 ∧
      (p.entry budget output out kind f).next.Same p.root
        (p.unbounded output out m (.running kind' f)).2 := by
  have hpos := budget.total_pos
  rw [entry_eq]
  cases hstop : (loop p.tick budget.total f).stop with
  | true =>
    obtain ⟨m, hm, heq⟩ := p.loop_stopped output out kind' hstop
    have hsame := @finishEntry_same _ p output out haccepts hoffset (loop p.tick budget.total f).state kind kind'
    refine ⟨m, hm, ?_, ?_⟩
    · rw [heq, hsame.1]
    · rw [heq]
      exact hsame.2
  | false =>
    have hphase := p.loop_running output out kind' hstop
    have hclear := outcome_of_exhausted hquiet hpos hstop
    generalize loop p.tick budget.total f = driven at *
    rw [finishEntry_clear hclear]
    by_cases hidle : driven.state.resume = 0
    · -- the entry reports OK at once; the unbounded drive finds the fiber idle
      have hlast : p.unbounded output out 1 (.running kind' driven.state)
          = ([], .finished (p.deliver output out driven.state kind')) := by
        rw [unbounded_succ, unboundedMove_stop (by rw [tick_idle hidle]), tick_idle hidle,
          finishEntry_clear hclear, if_pos hidle]
        rfl
      refine ⟨budget.total + 1, Nat.succ_pos _, ?_⟩
      unfold Program.unbounded at hphase hlast ⊢
      rw [run_add, hphase, hlast, if_pos hidle]
      exact ⟨rfl, (deliver_same_call haccepts hoffset driven.state kind).trans
        (deliver_same_call haccepts hoffset driven.state kind').symm⟩
    · -- PENDING, and the next entry goes on from the same fiber
      refine ⟨budget.total, hpos, ?_⟩
      rw [hphase, if_neg hidle]
      exact ⟨List.append_nil _, rfl⟩

/-- The entries of a chain are the unbounded drive, cut into pieces. -/
theorem chain_same_unbounded (budget : Budget) (k : Nat) {phase phase' : Phase σ}
    (hsame : phase.Same p.root phase') (hquiet : p.Quiet output out phase') :
    ∃ n, k ≤ n ∧
      (p.chain budget output out k phase).1 = (p.unbounded output out n phase').1 ∧
      (p.chain budget output out k phase).2.Same p.root (p.unbounded output out n phase').2 := by
  induction k generalizing phase phase' with
  | zero => exact ⟨0, Nat.le_refl 0, rfl, hsame⟩
  | succ k ih =>
    match phase, phase', hsame with
    | .finished report, .finished report', hsame =>
      refine ⟨k + 1, Nat.le_refl _, ?_⟩
      exact ⟨rfl, hsame⟩
    | .running kind f, .running kind' _, rfl =>
      obtain ⟨m, hm, hevents, hnext⟩ := entry_eq_unbounded haccepts hoffset kind hquiet
      obtain ⟨n, hn, hseen, hrest⟩ := ih hnext (hquiet.unbounded m)
      refine ⟨m + n, by omega, ?_⟩
      show (p.entry budget output out kind f).events
          ++ (p.chain budget output out k (p.entry budget output out kind f).next).1 = _ ∧
        (p.chain budget output out k (p.entry budget output out kind f).next).2.Same p.root _
      rw [hevents, hseen]
      unfold unbounded at hrest ⊢
      rw [run_add]
      exact ⟨rfl, hrest⟩

end Chain

/-! ## Root returns -/

theorem tick_done (hdone : f.resume = regionIdDone) : p.tick f = ⟨f.swept, [], true⟩ := by
  unfold tick
  rw [hdone, Packed.dispatch_completed (.inl rfl)]
  rfl

section Returned

variable (p output out) (kind : EntryKind)

theorem finishEntry_swept (hclear : f.outcome = 0) :
    p.finishEntry output out kind f.swept
      = ⟨[], p.deliver output out f.swept kind, .finished (p.deliver output out f.swept kind)⟩ :=
  (finishEntry_clear (f := f.swept) hclear kind).trans (if_pos rfl)

/-- A root that has returned after `m` dispatches of a drive is reported by it when a dispatch is
left. -/
theorem entry_of_returned {m : Nat} (hm : m < budget.total) (hstop : (loop p.tick m f).stop = false)
    (hdone : (loop p.tick m f).state.resume = regionIdDone)
    (hclear : (loop p.tick m f).state.outcome = 0) :
    p.entry budget output out kind f
      = ⟨(loop p.tick m f).events, p.deliver output out (loop p.tick m f).state.swept kind,
          .finished (p.deliver output out (loop p.tick m f).state.swept kind)⟩ := by
  have hnext : loop p.tick (m + 1) f
      = ⟨(loop p.tick m f).state.swept, (loop p.tick m f).events, true⟩ := by
    rw [loop_add, loop_one]
    unfold andThen
    simp only [hstop, tick_done hdone, Bool.false_eq_true, if_false, List.append_nil]
  have hall : loop p.tick budget.total f = loop p.tick (m + 1) f := by
    apply loop_of_stop (by omega)
    rw [hnext]
  rw [entry_eq, hall, hnext, finishEntry_swept p output out kind hclear, List.append_nil]

/-- A root that returned on the very last dispatch is delivered by the next entry. -/
theorem chain_of_returned_last (hdone : (loop p.tick budget.total f).state.resume = regionIdDone)
    (hclear : (loop p.tick budget.total f).state.outcome = 0) :
    p.chain budget output out 2 (.running kind f)
      = ((loop p.tick budget.total f).events,
          .finished (p.deliver output out (loop p.tick budget.total f).state.swept .continue)) := by
  have hne : ¬ (loop p.tick budget.total f).state.resume = 0 := by
    rw [hdone]
    decide
  have hpending : p.entry budget output out kind f
      = ⟨(loop p.tick budget.total f).events, ⟨.pending, 0, out⟩,
          .running .continue (loop p.tick budget.total f).state⟩ := by
    rw [entry_eq, finishEntry_clear hclear, if_neg hne, List.append_nil]
  -- no dispatch of the next drive comes before the sweep
  have hdeliver := p.entry_of_returned output out .continue budget.total_pos
    (rfl : (loop p.tick 0 (loop p.tick budget.total f).state).stop = false) hdone hclear
  simp only [chain, run, hpending, hdeliver]
  exact congrArg (·, _) (List.append_nil _)

end Returned

end Program

theorem Program.unbounded_finished {p : Program σ} {output : Output} {out : Bytes} {m n : Nat}
    {phase : Phase σ} {report : Report}
    (h : (p.unbounded output out m phase).2 = .finished report) (hle : m ≤ n) :
    p.unbounded output out n phase = p.unbounded output out m phase := by
  obtain ⟨d, rfl⟩ := Nat.exists_eq_add_of_le hle
  unfold unbounded at h ⊢
  rw [run_add, h, run_finished, List.append_nil, ← h]

/-- **Drive-budget transparency.** For every program, entry region and budget, when no region
publishes an outcome and goes on and the output's alignment is at most sixteen: the entries of a
chain make exactly the dispatches, report the yields and reach the state of the unbounded drive,
and end as it ends; a root whose return is among the dispatches of the nested loops is reported OK
with its result by that drive; and one that returns on the last dispatch before a PENDING is
delivered with its result by the next continue. -/
theorem drive_budget_transparent (p : Program σ) (budget : Budget) (output : Output) (out : Bytes)
    (data : σ) (slice : Bytes) (entryRegionId : Nat) (haccepts : p.root.Accepts output)
    (hoffset : output.size = 0 ∨ output.alignLog ≤ 4)
    (hquiet : p.Quiet output out (call data slice entryRegionId)) :
    (∀ k, ∃ n, k ≤ n ∧
      (p.chain budget output out k (call data slice entryRegionId)).1
        = (p.unbounded output out n (call data slice entryRegionId)).1 ∧
      (p.chain budget output out k (call data slice entryRegionId)).2.Same p.root
        (p.unbounded output out n (call data slice entryRegionId)).2) ∧
    (∀ n report, (p.unbounded output out n (call data slice entryRegionId)).2 = .finished report →
      (p.chain budget output out n (call data slice entryRegionId)).1
        = (p.unbounded output out n (call data slice entryRegionId)).1 ∧
      (p.chain budget output out n (call data slice entryRegionId)).2.Same p.root
        (.finished report)) ∧
    (∀ (f : Fiber σ) (kind : EntryKind) (m : Nat), m ≤ budget.dispatches →
      (loop p.tick m f).stop = false → (loop p.tick m f).state.resume = regionIdDone →
      (loop p.tick m f).state.outcome = 0 →
      (p.entry budget output out kind f).events = (loop p.tick m f).events ∧
      (p.entry budget output out kind f).report.Same p.root
        ⟨.ok, 0, p.root.loadResult (loop p.tick m f).state.slice out⟩) ∧
    (∀ (f : Fiber σ) (kind : EntryKind), (p.trampoline budget f).state.resume = regionIdDone →
      (p.trampoline budget f).state.outcome = 0 →
      (p.chain budget output out 2 (.running kind f)).1 = (p.trampoline budget f).events ∧
      (p.chain budget output out 2 (.running kind f)).2.Same p.root
        (.finished ⟨.ok, 0, p.root.loadResult (p.trampoline budget f).state.slice out⟩)) := by
  have hchain := fun k => Program.chain_same_unbounded haccepts hoffset budget k
    (Phase.same_refl p.root (call data slice entryRegionId)) hquiet
  refine ⟨hchain, ?_, ?_, ?_⟩
  · intro n report hfinished
    obtain ⟨m, hm, hevents, hsame⟩ := hchain n
    rw [Program.unbounded_finished hfinished hm] at hevents hsame
    rw [hfinished] at hsame
    exact ⟨hevents, hsame⟩
  · intro f kind m hm hstop hdone hclear
    -- one more step follows the repeats, so the return is still seen
    have htotal : m < budget.total := by
      have htrips := budget.trips_pos
      unfold Budget.total
      omega
    rw [p.entry_of_returned output out kind htotal hstop hdone hclear]
    exact ⟨rfl, Program.deliver_same_call haccepts hoffset _ kind⟩
  · intro f kind hdone hclear
    rw [p.trampoline_eq] at hdone hclear ⊢
    rw [p.chain_of_returned_last output out kind hdone hclear]
    exact ⟨rfl, Program.deliver_same_call haccepts hoffset _ .continue⟩

/-! ## Programs that stop when they publish -/

namespace Program

variable {p : Program σ} {output : Output} {out : Bytes}

def StopsOnOutcome (p : Program σ) : Prop :=
  ∀ s f, f.outcome = 0 → (∀ f', p.exec s f = .action f' false → f'.outcome = 0) ∧
    (∀ f' value, p.exec s f = .ret f' value → f'.outcome = 0)

theorem StopsOnOutcome.tick (h : p.StopsOnOutcome) {f : Fiber σ} (hclear : f.outcome = 0)
    (hstop : (p.tick f).stop = false) : (p.tick f).state.outcome = 0 := by
  unfold Program.tick at hstop ⊢
  cases hd : p.packed.dispatch p.borrowed f.resume with
  | idle => simp [hd] at hstop
  | completed => simp [hd] at hstop
  | invalid => simp [hd] at hstop
  | region s =>
    cases he : p.exec s f with
    | action f' stop =>
      simp only [hd, he] at hstop ⊢
      subst hstop
      exact (h s f hclear).1 f' he
    | ret f' value =>
      simp only [he]
      exact (h s f hclear).2 f' value he

def Cleared : Phase σ → Prop
  | .running _ f => f.outcome = 0
  | .finished _ => True

theorem cleared_finishEntry (p : Program σ) (output : Output) (out : Bytes) (kind : EntryKind)
    (f : Fiber σ) : Cleared (p.finishEntry output out kind f).next := by
  have hcontinue : Cleared (prepareContinue f out) := by
    unfold prepareContinue
    split_ifs
    · trivial
    · exact (rfl : (0 : BitVec 64) = 0)
  unfold finishEntry
  cases observedStatus f.outcome (f.resume == 0) with
  | ok => trivial
  | exited => trivial
  | yield => exact hcontinue
  | pending => exact hcontinue

theorem StopsOnOutcome.quiet (h : p.StopsOnOutcome) (data : σ) (slice : Bytes)
    (entryRegionId : Nat) : p.Quiet output out (call data slice entryRegionId) := by
  intro n kind f hf hstop
  have hcleared : Cleared (p.unbounded output out n (call data slice entryRegionId)).2 := by
    refine run_invariant (P := fun _ phase => Cleared phase) ?_ n [] rfl
    intro _ kind f hclear
    cases htick : (p.tick f).stop with
    | true =>
      rw [unboundedMove_stop htick]
      exact cleared_finishEntry p output out kind _
    | false =>
      rw [unboundedMove_go htick]
      exact h.tick hclear htick
  rw [hf] at hcleared
  exact h.tick hcleared hstop

end Program

/-! ## Budgets that show -/

/-- Three regions of one scalar unit: `0x100`, `0x200` and `0x300`. -/
def threePacked : Packed :=
  ⟨false, 1, 0, 1, [⟨false, 0, 0, 1, [⟨1, .entry⟩, ⟨2, .call⟩, ⟨3, .yield⟩]⟩]⟩

def exitAndGoOn : Program Unit where
  packed := threePacked
  borrowed := false
  root := ⟨none, 1, 0⟩
  exec s f :=
    if s.kind = .entry then .action { f with resume := 0x200, outcome := outcomeValue 7 } false
    else if s.kind = .call then .action { f with resume := 0x300 } false
    else .action { f with resume := 0x300, outcome := yieldTag.zeroExtend 64 } true

theorem exitAndGoOn_first (f : Fiber Unit) (h : f.resume = 0x100) :
    exitAndGoOn.tick f
      = ⟨{ f with resume := 0x200, outcome := outcomeValue 7 }, [.dispatch ⟨1, .entry⟩], false⟩ := by
  have hregion : threePacked.dispatch false 0x100 = .region ⟨1, .entry⟩ := by decide
  simp [Program.tick, exitAndGoOn, h, hregion]

theorem exitAndGoOn_second (f : Fiber Unit) (h : f.resume = 0x200) :
    exitAndGoOn.tick f = ⟨{ f with resume := 0x300 }, [.dispatch ⟨2, .call⟩], false⟩ := by
  have hregion : threePacked.dispatch false 0x200 = .region ⟨2, .call⟩ := by decide
  simp [Program.tick, exitAndGoOn, h, hregion]

/-- A root that works for one region and then returns `value`. -/
def workThenReturn (root : Root) (value : Bytes) : Program Unit where
  packed := onePacked
  borrowed := false
  root := root
  exec s f := if s.kind = .entry then .action { f with resume := 0x200 } false else .ret f value

theorem workThenReturn_first (root : Root) (value : Bytes) (f : Fiber Unit) (h : f.resume = 0x100) :
    (workThenReturn root value).tick f = ⟨{ f with resume := 0x200 }, [.dispatch ⟨1, .entry⟩], false⟩ := by
  have hregion : onePacked.dispatch false 0x100 = .region ⟨1, .entry⟩ := by decide
  simp [Program.tick, workThenReturn, h, hregion]

theorem workThenReturn_second (root : Root) (value : Bytes) (f : Fiber Unit)
    (h : f.resume = 0x200) :
    (workThenReturn root value).tick f
      = ⟨{ f with slice := root.storeResult f.slice value, resume := regionIdDone },
          [.dispatch ⟨2, .yield⟩, .returned value], false⟩ := by
  have hregion : onePacked.dispatch false 0x200 = .region ⟨2, .yield⟩ := by decide
  simp [Program.tick, workThenReturn, h, hregion]

theorem drive_budget_workThenReturn :
    ((workThenReturn (fourLongs 8) fun _ => 1).chain smallBudget ⟨32, 3⟩ (fun _ => 0) 3
      (call () (fun _ => 0) 0x100)).2.Same (fourLongs 8)
        (.finished ⟨.ok, 0, (fourLongs 8).loadResult
          ((fourLongs 8).storeResult (fun _ => 0) fun _ => 1) fun _ => 0⟩) := by
  have hstops : (workThenReturn (fourLongs 8) fun _ => 1).StopsOnOutcome := by
    intro s f hclear
    constructor
    · intro f' hexec
      change (if s.kind = .entry then _ else _) = _ at hexec
      split_ifs at hexec
      cases hexec
      exact hclear
    · intro f' value hexec
      change (if s.kind = .entry then _ else _) = _ at hexec
      split_ifs at hexec
      cases hexec
      exact hclear
  have htransparent := drive_budget_transparent (workThenReturn (fourLongs 8) fun _ => 1) smallBudget
    ⟨32, 3⟩ (fun _ => 0) () (fun _ => 0) 0x100
    (show (fourLongs 8).Accepts ⟨32, 3⟩ by decide) (.inr (by decide)) (hstops.quiet _ _ _)
  exact (htransparent.2.1 3 _ (by
    rfl)).2

/-- **Budgets that show.** An entry whose budget ends right after the published exit reports it, the
unbounded drive goes on to a yield; and the over-aligned result of a root that returns on the last
dispatch is lost, while the unbounded drive delivers it. -/
theorem budget_shows :
    exitAndGoOn.chain smallBudget .void (fun _ => 0) 1 (call () (fun _ => 0) 0x100)
      = ([.dispatch ⟨1, .entry⟩, .dispatch ⟨2, .call⟩], .finished ⟨.exited, 7, fun _ => 0⟩) ∧
    exitAndGoOn.unbounded .void (fun _ => 0) 3 (call () (fun _ => 0) 0x100)
      = ([.dispatch ⟨1, .entry⟩, .dispatch ⟨2, .call⟩, .dispatch ⟨3, .yield⟩, .yielded],
          .running .continue ⟨(), fun _ => 0, 0x300, 0⟩) ∧
    (∃ report, ((workThenReturn (fourLongs 32) fun _ => 1).chain smallBudget ⟨32, 5⟩ (fun _ => 0) 2
        (call () (fun _ => 0) 0x100)).2 = .finished report ∧
      report.status = .ok ∧ report.output 31 = 0) ∧
    (∃ report, ((workThenReturn (fourLongs 32) fun _ => 1).unbounded ⟨32, 5⟩ (fun _ => 0) 3
        (call () (fun _ => 0) 0x100)).2 = .finished report ∧
      report.status = .ok ∧ report.output 31 = 1) := by
  refine ⟨?_, ?_, ?_, ?_⟩
  · simp only [Program.chain, call, run, Program.entry, Program.trampoline_smallBudget, andThen,
      exitAndGoOn_first, exitAndGoOn_second]
    rfl
  · simp only [Program.unbounded, call, run, Program.unboundedMove, exitAndGoOn_first]
    rfl
  · have hloop : loop (workThenReturn (fourLongs 32) fun _ => 1).tick smallBudget.total
        ⟨(), fun _ => 0, 0x100, 0⟩
        = ⟨⟨(), (fourLongs 32).storeResult (fun _ => 0) fun _ => 1, regionIdDone, 0⟩,
            [.dispatch ⟨1, .entry⟩, .dispatch ⟨2, .yield⟩, .returned fun _ => 1], false⟩ := by
      rw [← Program.trampoline_eq, Program.trampoline_smallBudget]
      simp [andThen, workThenReturn_first, workThenReturn_second]
    have hlast := Program.chain_of_returned_last (workThenReturn (fourLongs 32) fun _ => 1) ⟨32, 5⟩
      (fun _ => 0) .call (congrArg (·.state.resume) hloop) (congrArg (·.state.outcome) hloop)
    rw [call, hlast, hloop]
    have hcontinue := Program.deliver_continue (p := workThenReturn (fourLongs 32) fun _ => 1)
      (f := ⟨(), (fourLongs 32).storeResult (fun _ => 0) fun _ => 1, 0, 0⟩)
      (show (fourLongs 32).Accepts ⟨32, 5⟩ by decide) fun _ => 0
    exact ⟨_, rfl, hcontinue.1, (hcontinue.2 31 (by decide)).trans (by decide)⟩
  · simp only [Program.unbounded, call, run, Program.unboundedMove, workThenReturn_first]
    exact ⟨_, rfl, rfl, by decide⟩

end BpfCapsule.Drive

import BpfCapsule.Exit.Lowering
import Mathlib.Logic.Relation

/-!
# BpfCapsule — is an exit terminal?

The machine runs the lowered functions of one fiber: region bodies execute natively, a managed
call, a return and a cut backedge return to the driver, which may dispatch the next region or run
out of budget, and the entry then reports what it finds in the control record. The driver looks at
the action a region returned and never at the outcome word.

After an outcome store the fiber is `Quiet` when every continuation executes no further instruction
of the program and ends in the report of exactly that exit. `quiet_iff_sealed` says for which
stores this holds: the store is the last instruction of its block, and the block either returns,
or branches to a return that it shares with ordinary paths or that has no instruction of its own.
Exits that are not inlined are all of this form (`sealed_lowerCapsuleExit`); an inlined one is not
when the call is followed by anything but the caller's return.
-/

namespace BpfCapsule.Exit

variable {σ : Type}

/-! ## The machine -/

/-- A program point: the instruction `idx` of a block, or its terminator when there is none. -/
structure Point where
  fn : Nat
  block : Nat
  idx : Nat
  deriving DecidableEq, Repr

def Point.next (p : Point) : Point := { p with idx := p.idx + 1 }

/-- What `resume_region_id` names. -/
inductive Resume where
  | idle
  | done
  | entry (fn : Nat)
  | at (p : Point)
  deriving DecidableEq, Repr

/-- What `setjmp` saved. -/
structure Jump (σ : Type) where
  point : Point
  stack : List Point
  bind : Nat → σ → σ

structure Fiber (σ : Type) where
  data : σ
  outcome : BitVec 64
  resume : Resume
  stack : List Point
  jumps : Nat → Option (Jump σ)

inductive Mode where
  | running (p : Point)
  | between
  | returned
  | suspended
  | released
  deriving DecidableEq, Repr

structure Config (σ : Type) where
  fiber : Fiber σ
  mode : Mode

inductive Label where
  | silent
  | source
  | report (status : CapsuleStatus) (code : BitVec 32)
  deriving DecidableEq, Repr

/-- What is decided elsewhere: the prologue's bound check, and which branches are suspended loop
backedges. -/
structure Env where
  overflows : (fn : Nat) → (stack : List Point) → Bool
  suspends : (fn source target : Nat) → Bool

def Lowered.block? (L : Lowered σ) (p : Point) : Option (LBlock σ) :=
  L[p.fn]?.bind fun blocks => blocks[p.block]?

/-- A managed call: `SuspendAtCall` up to the dispatch of the callee's entry. -/
def enterCallee (s : Fiber σ) (p : Point) (callee : Nat) : Config σ :=
  ⟨{ s with resume := .entry callee, stack := p.next :: s.stack }, .between⟩

def execInstr (L : Lowered σ) (s : Fiber σ) (p : Point) : Instr σ → Option (Config σ)
  | .effect run => some ⟨{ s with data := run s.data }, .running p.next⟩
  | .outcome code => some ⟨{ s with outcome := outcomeValue (code s.data) }, .running p.next⟩
  | .call callee => some (enterCallee s p callee)
  | .callIndirect callee =>
    -- a target that is no function of the program has no meaning in the source
    if callee s.data < L.length then some (enterCallee s p (callee s.data)) else none
  | .yield => some ⟨{ s with outcome := yieldTag.zeroExtend 64, resume := .at p.next }, .returned⟩
  | .setjmp buf bind =>
    some ⟨{ s with data := bind 0 s.data
                   jumps := Function.update s.jumps (buf s.data) (some ⟨p.next, s.stack, bind⟩) },
      .running p.next⟩
  | .longjmp buf value =>
    (s.jumps (buf s.data)).map fun j =>
      let v := value s.data
      ⟨{ s with data := j.bind (if v = 0 then 1 else v) s.data
                resume := .at j.point, stack := j.stack }, .between⟩
  -- lowered away
  | .exit _ | .trap => none

def branchTo (env : Env) (s : Fiber σ) (p : Point) (target : Nat) : Config σ :=
  let q : Point := ⟨p.fn, target, 0⟩
  if env.suspends p.fn p.block target then ⟨{ s with resume := .at q }, .between⟩
  else ⟨s, .running q⟩

def execTerm (env : Env) (s : Fiber σ) (p : Point) (b : LBlock σ) : Option (Label × Config σ) :=
  match b.term with
  -- the branch out of a publishing block is what inlining left of the exit's own return
  | .br target => some (if b.publishes then .silent else .source, branchTo env s p target)
  | .switch key cases default =>
    some (.source, branchTo env s p (cases[key s.data]?.getD default))
  | .pop =>
    match s.stack with
    | [] => some (.source, ⟨{ s with resume := .done }, .between⟩)
    | q :: rest => some (.source, ⟨{ s with resume := .at q, stack := rest }, .between⟩)
  | .stop => some (.silent, ⟨s, .returned⟩)
  -- undefined in the source
  | .unreachable => none

def dispatch (env : Env) (s : Fiber σ) : Config σ :=
  match s.resume with
  | .idle => ⟨s, .returned⟩
  | .done => ⟨{ s with resume := .idle }, .returned⟩
  | .entry fn =>
    if env.overflows fn s.stack then
      ⟨{ s with outcome := outcomeValue (BitVec.ofInt 32 CapsuleError.stackOverflow) }, .returned⟩
    else ⟨s, .running ⟨fn, 0, 0⟩⟩
  | .at p => ⟨s, .running p⟩

def finish (s : Fiber σ) : Label × Config σ :=
  match observedStatus s.outcome (s.resume == .idle) with
  | .exited => (.report .exited (outcomeCode s.outcome), ⟨s, .released⟩)
  | .yield => (.report .yield 0, ⟨s, .suspended⟩)
  | .pending => (.report .pending 0, ⟨s, .suspended⟩)
  | .ok => (.report .ok 0, ⟨s, .released⟩)

/-- `__bpf_capsule_prepare_continue` with a valid token. -/
def prepareContinue (s : Fiber σ) : Label × Config σ :=
  if outcomeStatus s.outcome = exitedTag then
    (.report .exited (outcomeCode s.outcome), ⟨s, .released⟩)
  else if s.resume = .idle then
    (.report .exited (BitVec.ofInt 32 CapsuleError.notPending), ⟨s, .released⟩)
  else (.silent, ⟨{ s with outcome := 0 }, .between⟩)

/-- One step; `more` says whether the driver has budget for another dispatch. -/
def step (L : Lowered σ) (env : Env) (more : Bool) (c : Config σ) : Option (Label × Config σ) :=
  match c.mode with
  | .running p =>
    (L.block? p).bind fun b =>
      match b.body[p.idx]? with
      | some i => (execInstr L c.fiber p i).map fun c' => (.source, c')
      | none => execTerm env c.fiber p b
  | .between => some (.silent, if more then dispatch env c.fiber else ⟨c.fiber, .returned⟩)
  | .returned => some (finish c.fiber)
  | .suspended => some (prepareContinue c.fiber)
  | .released => none

/-- `capsule_call` of `root`. -/
def start (root : Nat) (data : σ) : Config σ :=
  ⟨⟨data, 0, .entry root, [], fun _ => none⟩, .between⟩

def Reaches (L : Lowered σ) (env : Env) : Config σ → Config σ → Prop :=
  Relation.ReflTransGen fun c c' => ∃ more l, step L env more c = some (l, c')

def run (L : Lowered σ) (env : Env) : List Bool → Config σ → Option (List Label × Config σ)
  | [], c => some ([], c)
  | more :: rest, c =>
    (step L env more c).bind fun x => (run L env rest x.2).map fun y => (x.1 :: y.1, y.2)

theorem reaches_of_run {L : Lowered σ} {env : Env} {c c' : Config σ} {ls : List Label}
    (budget : List Bool) (h : run L env budget c = some (ls, c')) : Reaches L env c c' := by
  induction budget generalizing c ls with
  | nil =>
    cases h
    exact .refl
  | cons more rest ih =>
    obtain ⟨⟨l, d⟩, hstep, hrest⟩ := Option.bind_eq_some_iff.mp h
    obtain ⟨⟨ls', d'⟩, hrun, heq⟩ := Option.map_eq_some_iff.mp hrest
    cases heq
    exact .head ⟨more, l, hstep⟩ (ih hrun)

/-! ## Quiet continuations -/

/-- Whatever the driver's budget, the configuration executes no further instruction of the program
and the entry reports `EXITED` with `code` and releases the fiber. -/
inductive Quiet (L : Lowered σ) (env : Env) (code : BitVec 32) : Config σ → Prop where
  | report {c : Config σ}
      (hc : ∀ more, ∃ s, step L env more c = some (.report .exited code, ⟨s, .released⟩)) :
      Quiet L env code c
  | silent {c : Config σ} (next : Bool → Config σ)
      (hc : ∀ more, step L env more c = some (.silent, next more))
      (hnext : ∀ more, Quiet L env code (next more)) : Quiet L env code c

section Quiet

variable {L : Lowered σ} {env : Env} {code : BitVec 32} {s : Fiber σ} {p : Point} {b : LBlock σ}

/-- A quiet configuration takes a step that is not one of the source, and stays quiet if it is
silent. -/
theorem Quiet.step_eq {c : Config σ} (h : Quiet L env code c) (more : Bool) :
    ∃ kind c', step L env more c = some (kind, c') ∧ kind ≠ .source ∧
      (kind = .silent → Quiet L env code c') := by
  cases h with
  | report hc =>
    obtain ⟨s, hs⟩ := hc more
    exact ⟨_, _, hs, by simp, by simp⟩
  | silent next hc hnext => exact ⟨_, _, hc more, by simp, fun _ => hnext more⟩

theorem Quiet.not_source {c c' : Config σ} (h : Quiet L env code c) (more : Bool) :
    step L env more c ≠ some (.source, c') := by
  obtain ⟨kind, d, hd, hne, -⟩ := h.step_eq more
  simp [hd, hne]

theorem Quiet.progress {c : Config σ} (h : Quiet L env code c) (more : Bool) :
    step L env more c ≠ none := by
  obtain ⟨kind, d, hd, -⟩ := h.step_eq more
  simp [hd]

/-- After a silent step the rest is quiet too. -/
theorem Quiet.of_silent {c c' : Config σ} (h : Quiet L env code c) (more : Bool)
    (hstep : step L env more c = some (.silent, c')) : Quiet L env code c' := by
  obtain ⟨kind, d, hd, -, hquiet⟩ := h.step_eq more
  cases Option.some.inj (hd.symm.trans hstep)
  exact hquiet rfl

theorem quiet_returned (hs : s.outcome = outcomeValue code) : Quiet L env code ⟨s, .returned⟩ := by
  refine .report fun more => ⟨s, ?_⟩
  show some (finish s) = _
  simp [finish, observedStatus, hs]

theorem step_instr {i : Instr σ} (more : Bool) (hb : L.block? p = some b)
    (hi : b.body[p.idx]? = some i) :
    step L env more ⟨s, .running p⟩ = (execInstr L s p i).map fun c => (.source, c) := by
  simp [step, hb, hi]

theorem step_term (more : Bool) (hb : L.block? p = some b) (hi : b.body[p.idx]? = none) :
    step L env more ⟨s, .running p⟩ = execTerm env s p b := by
  simp [step, hb, hi]

/-- An instruction is never quiet: it is executed, or it has no meaning. -/
theorem not_quiet_instr {i : Instr σ} (hb : L.block? p = some b) (hi : b.body[p.idx]? = some i) :
    ¬ Quiet L env code ⟨s, .running p⟩ := by
  intro h
  have hstep : step L env true ⟨s, .running p⟩ = _ := step_instr true hb hi
  cases hx : execInstr L s p i with
  | none => exact h.progress true (by rw [hstep, hx]; rfl)
  | some c =>
    rw [hx] at hstep
    exact h.not_source true hstep

theorem quiet_stop (hb : L.block? p = some b) (hi : b.body[p.idx]? = none)
    (hterm : b.term = .stop) (hs : s.outcome = outcomeValue code) :
    Quiet L env code ⟨s, .running p⟩ := by
  refine .silent (fun _ => ⟨s, .returned⟩) (fun more => ?_) fun _ => quiet_returned hs
  rw [step_term more hb hi, execTerm, hterm]

/-- Of the terminators, only a stop and the branch out of a publishing block are quiet. -/
theorem not_quiet_term (hb : L.block? p = some b) (hi : b.body[p.idx]? = none)
    (hstop : b.term ≠ .stop) (hbr : ∀ l, b.term = .br l → b.publishes = false) :
    ¬ Quiet L env code ⟨s, .running p⟩ := by
  intro h
  have hstep : step L env true ⟨s, .running p⟩ = execTerm env s p b := step_term true hb hi
  unfold execTerm at hstep
  split at hstep
  · rename_i l hl
    rw [hbr l hl] at hstep
    exact h.not_source true hstep
  · exact h.not_source true hstep
  · split at hstep
    · exact h.not_source true hstep
    · exact h.not_source true hstep
  · exact hstop ‹_›
  · exact h.progress true hstep

/-- A branch, cut or not, is quiet when its target is. -/
theorem quiet_branchTo {l : Nat} (hs : s.outcome = outcomeValue code)
    (h : ∀ s', s'.outcome = s.outcome → Quiet L env code ⟨s', .running ⟨p.fn, l, 0⟩⟩) :
    Quiet L env code (branchTo env s p l) := by
  unfold branchTo
  split
  · refine .silent _ (fun more => rfl) fun more => ?_
    cases more with
    | false => exact quiet_returned hs
    | true => exact h _ rfl
  · exact h s rfl

theorem quiet_of_branchTo {l : Nat} (h : Quiet L env code (branchTo env s p l)) :
    ∃ s', s'.outcome = s.outcome ∧ Quiet L env code ⟨s', .running ⟨p.fn, l, 0⟩⟩ := by
  unfold branchTo at h
  split at h
  · exact ⟨{ s with resume := .at ⟨p.fn, l, 0⟩ }, rfl, h.of_silent true rfl⟩
  · exact ⟨s, rfl, h⟩

end Quiet

/-! ## Sealed stores -/

/-- Instruction `idx` is the last one of the block, and the block returns, or it branches to a
return that ordinary paths share or that has no instruction of its own. -/
def Func.seals (f : Func σ) (b : Block σ) (idx : Nat) : Bool :=
  idx + 1 == b.body.length && match b.term with
    | .ret => true
    | .br l => f.blocks[l]?.any fun r =>
        r.term.isRet && !r.publishes && (f.hasOrdinaryPredecessor l || r.body.isEmpty)
    | _ => false

def sealedAt (M : Module σ) (p : Point) : Bool :=
  M[p.fn]?.any fun f => f.blocks[p.block]?.any fun b => f.seals b p.idx

def AtStore (L : Lowered σ) (c : Config σ) (p : Point) (code : σ → BitVec 32) : Prop :=
  c.mode = .running p ∧ ∃ b, L.block? p = some b ∧ b.body[p.idx]? = some (.outcome code)

def afterStore (c : Config σ) (p : Point) (code : σ → BitVec 32) : Config σ :=
  ⟨{ c.fiber with outcome := outcomeValue (code c.fiber.data) }, .running p.next⟩

section Sealed

variable {M : Module σ} {L : Lowered σ} {p : Point} {f : Func σ} {b : Block σ} {r l : Nat}

theorem block?_stackify (hL : stackify M = some L) {lb : LBlock σ} (h : L.block? p = some lb) :
    ∃ f b, M[p.fn]? = some f ∧ f.blocks[p.block]? = some b ∧
      lb = ⟨b.body, f.lowerTerm p.block b⟩ := by
  unfold stackify at hL
  split at hL
  · cases hL
    obtain ⟨blocks, hblocks, hlb⟩ := Option.bind_eq_some_iff.mp h
    rw [List.getElem?_map, Option.map_eq_some_iff] at hblocks
    obtain ⟨f, hf, rfl⟩ := hblocks
    rw [Func.lowerReturns, List.getElem?_mapIdx, Option.map_eq_some_iff] at hlb
    obtain ⟨b, hb, rfl⟩ := hlb
    exact ⟨f, b, hf, hb, rfl⟩
  · cases hL

theorem block?_of_stackify (hL : stackify M = some L) (hf : M[p.fn]? = some f)
    (hb : f.blocks[p.block]? = some b) :
    L.block? p = some ⟨b.body, f.lowerTerm p.block b⟩ := by
  unfold stackify at hL
  split at hL
  · cases hL
    simp [Lowered.block?, hf, Func.lowerReturns, hb]
  · cases hL

theorem publishes_of_getElem? {idx : Nat} {code : σ → BitVec 32}
    (h : b.body[idx]? = some (.outcome code)) : b.publishes = true :=
  List.any_eq_true.mpr ⟨_, List.mem_of_getElem? h, rfl⟩

theorem mem_predecessors (hb : f.blocks[r]? = some b) (hl : l ∈ b.term.succs) :
    b ∈ f.predecessors l := by
  simp only [Func.predecessors, List.mem_filter, List.contains_iff_mem]
  exact ⟨List.mem_of_getElem? hb, hl⟩

/-- The return a publishing block branches to, without ordinary paths into it, stops. -/
theorem lowerTerm_of_publishing_pred {rb : Block σ} (hb : f.blocks[r]? = some b)
    (hpub : b.publishes = true) (hterm : b.term = .br l) (hret : rb.term = .ret)
    (hord : f.hasOrdinaryPredecessor l = false) : f.lowerTerm l rb = .stop := by
  have hmem : b ∈ f.predecessors l := mem_predecessors hb (by rw [hterm]; simp [Term.succs])
  have hterminal : f.hasTerminalPredecessor l = true := List.any_eq_true.mpr ⟨b, hmem, hpub⟩
  simp [Func.lowerTerm, hret, hterminal, hord]

theorem sharesReturn_iff {rb : Block σ} (hr : f.blocks[l]? = some rb) :
    f.sharesReturn l = true ↔
      rb.term = .ret ∧ rb.publishes = false ∧ f.hasOrdinaryPredecessor l = true := by
  unfold Func.sharesReturn
  rw [hr]
  cases hterm : rb.term <;> simp [hterm]

theorem isRet_iff {t : Term σ} : t.isRet = true ↔ t = .ret := by
  cases t <;> simp [Term.isRet]

theorem lowerTerm_ret (hterm : b.term = .ret) (hpub : b.publishes = true) :
    f.lowerTerm r b = .stop := by
  simp [Func.lowerTerm, hterm, hpub]

theorem lowerTerm_br (hterm : b.term = .br l) (hpub : b.publishes = true) :
    f.lowerTerm r b = if f.sharesReturn l then .stop else .br l := by
  simp [Func.lowerTerm, hterm, hpub]

/-- A block that is not a return and not a publishing block's branch keeps running the program. -/
theorem lowerTerm_ne_stop (hret : b.term ≠ .ret) (hpub : b.publishes = false) :
    f.lowerTerm r b ≠ .stop := by
  unfold Func.lowerTerm
  split
  · exact absurd ‹_› hret
  · simp [hpub]
  · simp
  · simp

/-- What a publishing block's branch to an unshared block `l` leads to: quiet only when `l` is an
empty return. -/
theorem quiet_target_iff {env : Env} {code : BitVec 32} {s : Fiber σ} (hL : stackify M = some L)
    (hf : M[p.fn]? = some f) (hb : f.blocks[p.block]? = some b) (hpub : b.publishes = true)
    (hterm : b.term = .br l) (hshare : f.sharesReturn l = false)
    (hs : s.outcome = outcomeValue code) :
    Quiet L env code ⟨s, .running ⟨p.fn, l, 0⟩⟩ ↔
      ∃ rb, f.blocks[l]? = some rb ∧ rb.term = .ret ∧ rb.body = [] := by
  cases hr : f.blocks[l]? with
  | none =>
    have hnone : L.block? ⟨p.fn, l, 0⟩ = none := by
      rw [Option.eq_none_iff_forall_ne_some]
      intro lb hlb
      obtain ⟨f', b', hf', hb', -⟩ := block?_stackify hL hlb
      rw [show f' = f from Option.some.inj (hf'.symm.trans hf), hr] at hb'
      cases hb'
    simp only [reduceCtorEq, false_and, exists_false, iff_false]
    exact fun h => h.progress true (by simp [step, hnone])
  | some rb =>
    have hblock := block?_of_stackify (p := ⟨p.fn, l, 0⟩) hL hf hr
    simp only [Option.some.injEq, exists_eq_left']
    cases hbody : rb.body with
    | cons i rest =>
      simp only [reduceCtorEq, and_false, iff_false]
      exact not_quiet_instr hblock (show rb.body[0]? = some i by rw [hbody]; rfl)
    | nil =>
      have hrb : rb.publishes = false := by simp [Block.publishes, hbody]
      simp only [and_true]
      by_cases hret : rb.term = .ret
      · have hord : f.hasOrdinaryPredecessor l = false := by
          by_contra hord
          have := (sharesReturn_iff hr).mpr ⟨hret, hrb, by simpa using hord⟩
          rw [hshare] at this
          cases this
        have hstop := lowerTerm_of_publishing_pred hb hpub hterm hret hord
        exact iff_of_true (quiet_stop hblock (by simp [hbody]) hstop hs) hret
      · refine iff_of_false (not_quiet_term hblock (by simp [hbody])
          (lowerTerm_ne_stop hret hrb) fun _ _ => hrb) hret

/-- A publishing block's terminator is quiet exactly when it is a return, or a branch to a return
that ordinary paths share or that is empty. -/
theorem quiet_terminator_iff {env : Env} {code : BitVec 32} {s : Fiber σ}
    (hL : stackify M = some L) (hf : M[p.fn]? = some f) (hb : f.blocks[p.block]? = some b)
    (hpub : b.publishes = true) (hlast : p.idx = b.body.length)
    (hs : s.outcome = outcomeValue code) :
    Quiet L env code ⟨s, .running p⟩ ↔
      b.term = .ret ∨ ∃ l rb, b.term = .br l ∧ f.blocks[l]? = some rb ∧ rb.term = .ret ∧
        rb.publishes = false ∧ (f.hasOrdinaryPredecessor l = true ∨ rb.body = []) := by
  have hblock := block?_of_stackify hL hf hb
  have hnone : b.body[p.idx]? = none := by rw [hlast]; simp
  cases hterm : b.term with
  | ret =>
    exact iff_of_true (quiet_stop hblock hnone (lowerTerm_ret hterm hpub) hs) (.inl rfl)
  | unreachable =>
    refine iff_of_false (not_quiet_term hblock hnone ?_ ?_) (by simp) <;>
      simp [Func.lowerTerm, hterm]
  | switch key cases default =>
    refine iff_of_false (not_quiet_term hblock hnone ?_ ?_) (by simp) <;>
      simp [Func.lowerTerm, hterm]
  | br l =>
    have hlow := lowerTerm_br (f := f) (r := p.block) hterm hpub
    cases hshare : f.sharesReturn l with
    | true =>
      rw [hshare, if_pos rfl] at hlow
      -- the branch goes to a `.terminal` block, which stops
      refine iff_of_true (quiet_stop hblock hnone hlow hs) (.inr ?_)
      cases hr : f.blocks[l]? with
      | none => simp [Func.sharesReturn, hr] at hshare
      | some rb =>
        obtain ⟨hret, hrb, hord⟩ := (sharesReturn_iff hr).mp hshare
        exact ⟨l, rb, rfl, hr, hret, hrb, .inl hord⟩
    | false =>
      rw [hshare, if_neg (by simp)] at hlow
      have hstep : ∀ more, step L env more ⟨s, .running p⟩
          = some (.silent, branchTo env s p l) := by
        intro more
        rw [step_term more hblock hnone, execTerm, hlow]
        simp [LBlock.publishes, show b.body.any Instr.isOutcome = true from hpub]
      constructor
      · intro h
        obtain ⟨s', hs', htarget⟩ := quiet_of_branchTo (h.of_silent true (hstep true))
        obtain ⟨rb, hr, hret, hbody⟩ :=
          (quiet_target_iff hL hf hb hpub hterm hshare (hs'.trans hs)).mp htarget
        have hrb : rb.publishes = false := by simp [Block.publishes, hbody]
        exact .inr ⟨l, rb, rfl, hr, hret, hrb, .inr hbody⟩
      · rintro (h | ⟨l', rb, hl, hr, hret, hrb, hcase⟩)
        · cases h
        · cases hl
          refine .silent _ hstep fun _ => quiet_branchTo hs fun s' hs' => ?_
          refine (quiet_target_iff hL hf hb hpub hterm hshare (hs'.trans hs)).mpr
            ⟨rb, hr, hret, hcase.resolve_left fun hord => ?_⟩
          rw [(sharesReturn_iff hr).mpr ⟨hret, hrb, hord⟩] at hshare
          cases hshare

theorem seals_iff {idx : Nat} : f.seals b idx = true ↔ idx + 1 = b.body.length ∧
    (b.term = .ret ∨ ∃ l rb, b.term = .br l ∧ f.blocks[l]? = some rb ∧ rb.term = .ret ∧
      rb.publishes = false ∧ (f.hasOrdinaryPredecessor l = true ∨ rb.body = [])) := by
  unfold Func.seals
  cases hterm : b.term with
  | br l =>
    cases hr : f.blocks[l]? with
    | none => simp [hr]
    | some rb => simp [hr, isRet_iff, and_assoc]
  | ret | unreachable | switch => simp

/-- **When an exit is terminal**: after the outcome store at `p` nothing more of the program is
executed and exactly this exit is reported, precisely when the store is sealed. -/
theorem quiet_iff_sealed {env : Env} {c : Config σ} {code : σ → BitVec 32}
    (hL : stackify M = some L) (hat : AtStore L c p code) :
    Quiet L env (code c.fiber.data) (afterStore c p code) ↔ sealedAt M p = true := by
  obtain ⟨-, lb, hlb, hi⟩ := hat
  obtain ⟨f, b, hf, hb, rfl⟩ := block?_stackify hL hlb
  have hpub : b.publishes = true := publishes_of_getElem? hi
  have hlt : p.idx < b.body.length := (List.getElem?_eq_some_iff.mp hi).1
  rw [show sealedAt M p = f.seals b p.idx by simp [sealedAt, hf, hb], seals_iff]
  by_cases hlast : p.idx + 1 = b.body.length
  · rw [and_iff_right hlast]
    exact quiet_terminator_iff hL hf hb hpub hlast rfl
  · -- the instruction after the store is executed
    have hnext : p.idx + 1 < b.body.length := by omega
    refine iff_of_false ?_ fun h => hlast h.1
    exact not_quiet_instr hlb (List.getElem?_eq_getElem hnext)

end Sealed

/-! ## Exits that are not inlined -/

def Block.Finished (b : Block σ) : Prop :=
  (∀ i ∈ b.body.dropLast, i.isOutcome = false) ∧ (b.publishes = true → b.term = .ret)

def Finished (M : Module σ) : Prop := ∀ f ∈ M, ∀ b ∈ f.blocks, b.Finished

section Finished

variable {M : Module σ} {b : Block σ} {code? : Instr σ → Option (σ → BitVec 32)}

/-- The cut keeps a proper prefix of the body. -/
theorem cutBody_eq {body body' : List (Instr σ)} (h : cutBody code? body = some body') :
    ∃ pre code, body' = pre ++ [.outcome code] ∧ pre <+: body.dropLast := by
  induction body generalizing body' with
  | nil => cases h
  | cons i is ih =>
    unfold cutBody at h
    split at h
    · cases h
      exact ⟨[], _, rfl, List.nil_prefix⟩
    · obtain ⟨rest, hrest, rfl⟩ := Option.map_eq_some_iff.mp h
      obtain ⟨pre, code, rfl, hpre⟩ := ih hrest
      have hne : is ≠ [] := by
        rintro rfl
        cases hrest
      refine ⟨i :: pre, code, rfl, ?_⟩
      rw [List.dropLast_cons_of_ne_nil hne]
      exact (List.prefix_cons_inj i).mpr hpre

theorem Block.Finished.terminate (h : b.Finished) : (b.terminate code?).Finished := by
  unfold Block.terminate
  cases hcut : cutBody code? b.body with
  | none => exact h
  | some body =>
    obtain ⟨pre, code, rfl, hpre⟩ := cutBody_eq hcut
    refine ⟨fun i hi => h.1 i (hpre.subset ?_), fun _ => rfl⟩
    simpa using hi

theorem Block.Finished.reopen (h : b.Finished) (wrappers : List Nat) :
    (b.reopen wrappers).Finished := by
  unfold Block.reopen
  split
  · exact ⟨h.1, fun _ => rfl⟩
  · exact h

theorem Finished.reopenRound (h : Finished M) (i : Nat) (wrappers : List Nat) :
    Finished (reopenRound i wrappers M).1 := by
  induction M generalizing i wrappers with
  | nil => exact h
  | cons f fs ih =>
    have hfs : Finished fs := fun g hg => h g (List.mem_cons_of_mem _ hg)
    intro g hg b hb
    rcases List.mem_cons.mp hg with rfl | hg
    · split at hb
      · obtain ⟨b₀, hb₀, rfl⟩ := List.mem_map.mp hb
        exact (h f List.mem_cons_self b₀ hb₀).reopen wrappers
      · exact h f List.mem_cons_self b hb
    · exact ih hfs _ _ g hg b hb

theorem Finished.reopenLoop (h : Finished M) (fuel : Nat) (wrappers : List Nat) :
    Finished (reopenLoop fuel wrappers M) := by
  induction fuel generalizing M wrappers with
  | zero => exact h
  | succ fuel ih =>
    unfold Exit.reopenLoop
    simp only
    split
    · exact ih (h.reopenRound 0 wrappers) _
    · exact h.reopenRound 0 wrappers

theorem finished_of_no_outcome (h : ∀ f ∈ M, ∀ b ∈ f.blocks, b.publishes = false) : Finished M := by
  intro f hf b hb
  have hpub := h f hf b hb
  refine ⟨fun i hi => ?_, fun hp => absurd hp (by simp [hpub])⟩
  simpa using List.any_eq_false.mp hpub i (List.dropLast_subset _ hi)

theorem finished_lowerCapsuleExit (h : ∀ f ∈ M, ∀ b ∈ f.blocks, b.publishes = false) :
    Finished (lowerCapsuleExit M) := by
  have hM := finished_of_no_outcome h
  refine Finished.reopenLoop ?_ _ _
  intro f hf b hb
  obtain ⟨f₀, hf₀, rfl⟩ := List.mem_map.mp hf
  obtain ⟨b₀, hb₀, rfl⟩ := List.mem_map.mp hb
  exact (hM f₀ hf₀ b₀ hb₀).terminate.terminate

theorem sealedAt_of_finished {L : Lowered σ} {c : Config σ} {p : Point} {code : σ → BitVec 32}
    (hM : Finished M) (hL : stackify M = some L) (hat : AtStore L c p code) :
    sealedAt M p = true := by
  obtain ⟨-, lb, hlb, hi⟩ := hat
  obtain ⟨f, b, hf, hb, rfl⟩ := block?_stackify hL hlb
  obtain ⟨hlast, hret⟩ := hM f (List.mem_of_getElem? hf) b (List.mem_of_getElem? hb)
  have hlt : p.idx < b.body.length := (List.getElem?_eq_some_iff.mp hi).1
  rw [show sealedAt M p = f.seals b p.idx by simp [sealedAt, hf, hb], seals_iff]
  refine ⟨?_, .inl (hret (publishes_of_getElem? hi))⟩
  by_contra hne
  have hdrop : b.body.dropLast[p.idx]? = some (.outcome code) := by
    rw [List.getElem?_dropLast, if_pos (by omega)]
    exact hi
  exact absurd (hlast _ (List.mem_of_getElem? hdrop)) (by simp [Instr.isOutcome])

/-- If no block of the source stores an outcome itself, the lowering leaves sealed stores only. -/
theorem sealed_lowerCapsuleExit {L : Lowered σ} {c : Config σ} {p : Point}
    {code : σ → BitVec 32} (h : ∀ f ∈ M, ∀ b ∈ f.blocks, b.publishes = false)
    (hL : stackify (lowerCapsuleExit M) = some L) (hat : AtStore L c p code) :
    sealedAt (lowerCapsuleExit M) p = true :=
  sealedAt_of_finished (finished_lowerCapsuleExit h) hL hat

end Finished

/-! ## Whole programs -/

/-- **Exit is terminal exactly for sealed stores.** Whatever calls of the module are inlined
between the exit lowering and Stackify: every exit or trap that a run executes is the last thing
the program does and is what the entry reports, if and only if every outcome store a run gets to
is sealed in the module Stackify is given. -/
theorem exit_terminal_iff (M : Module σ) (sites : List Site) (L : Lowered σ)
    (hL : stackify (inlineCalls sites (lowerCapsuleExit M)) = some L)
    (env : Env) (root : Nat) (data : σ) :
    (∀ c p code, Reaches L env (start root data) c → AtStore L c p code →
      Quiet L env (code c.fiber.data) (afterStore c p code)) ↔
    (∀ c p code, Reaches L env (start root data) c → AtStore L c p code →
      sealedAt (inlineCalls sites (lowerCapsuleExit M)) p = true) := by
  refine forall_congr' fun c => forall_congr' fun p => forall_congr' fun code => ?_
  refine forall_congr' fun _ => forall_congr' fun hat => ?_
  exact quiet_iff_sealed hL hat

def checkedRoot : Module Nat :=
  [⟨false, [⟨[.call 1], .switch id [1] 2⟩, ⟨[.effect (· + 1), .yield], .ret⟩, ⟨[], .ret⟩]⟩,
   ⟨false, [⟨[], .switch id [1] 2⟩, ⟨[.exit fun _ => 7], .unreachable⟩, ⟨[], .ret⟩]⟩]

def plainEnv : Env := ⟨fun _ _ => false, fun _ _ _ => false⟩

/-- Without inlining, the exit of `checkedRoot` is reached and is the last thing that happens. -/
theorem exit_terminal_checkedRoot :
    ∃ L, stackify (inlineCalls [] (lowerCapsuleExit checkedRoot)) = some L ∧
      (∃ c p code, Reaches L plainEnv (start 0 0) c ∧ AtStore L c p code) ∧
      ∀ c p code, Reaches L plainEnv (start 0 0) c → AtStore L c p code →
        Quiet L plainEnv (code c.fiber.data) (afterStore c p code) := by
  refine ⟨_, rfl, ⟨⟨⟨0, 0, .entry 1, [⟨0, 0, 1⟩], fun _ => none⟩, .running ⟨1, 1, 0⟩⟩,
    ⟨1, 1, 0⟩, fun _ => 7, reaches_of_run [true, true, true, true] rfl, rfl, _, rfl, rfl⟩, ?_⟩
  refine (exit_terminal_iff checkedRoot [] _ rfl plainEnv 0 0).mpr fun c p code _ hat => ?_
  exact sealed_lowerCapsuleExit (M := checkedRoot) (by decide) rfl hat

/-- **An inlined exit is not terminal**: with the helper inlined into the root, the store of the
outcome 7 is followed by the rest of the root, and the entry reports a yield. -/
theorem inlined_exit_continues :
    ∃ L, stackify (inlineCalls [⟨0, 0, 0⟩] (lowerCapsuleExit checkedRoot)) = some L ∧
      ∃ c p code c', Reaches L plainEnv (start 0 0) c ∧ AtStore L c p code ∧
        code c.fiber.data = 7 ∧
        run L plainEnv [true, true, true, true, true] (afterStore c p code)
          = some ([.silent, .source, .source, .source, .report .yield 0], c') := by
  refine ⟨_, rfl, ⟨⟨0, 0, .entry 0, [], fun _ => none⟩, .running ⟨0, 4, 0⟩⟩, ⟨0, 4, 0⟩,
    fun _ => 7, _, reaches_of_run [true, true, true] rfl, ⟨rfl, _, rfl, rfl⟩, rfl, rfl⟩

end BpfCapsule.Exit

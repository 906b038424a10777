import BpfCapsule.Abi
import Mathlib.Data.List.Nodup
import Mathlib.Tactic.Common

/-!
# BpfCapsule — allocating from the host

`__bpf_capsule_alloc_run` calls the allocation program in a loop: it sends the request, continues the
computation while it is pending or has yielded, and on a failed run resets what it still holds. The
kernel answers with anything: the run can fail, the program can return an error, and a result can have
any status.

A continuation stands for a fiber of the pool and is to be used once. Only pending and yielded work has
one. `Chain` says what a list of runs does with them: at most one is held at any time, and every run
hands in the one that is held. From it follow that each is consumed once and not used again.
-/

namespace BpfCapsule.Allocator.Host

/-! ## The request -/

def EAGAIN : Int := 11
def EINVAL : Int := 22
def EPROTO : Int := 71
def ECANCELED : Int := 125

inductive Operation where
  | malloc
  | free
  | continue
  | reset
  | unknown (n : Nat)
  deriving DecidableEq

inductive Status where
  | ok
  | pending
  | yield
  | exited
  | unknown (n : Nat)
  deriving DecidableEq

structure CapsuleResult where
  code : Int
  status : Status
  continuation : Nat
  deriving DecidableEq

structure Output where
  pointer : Nat
  error : Int
  deriving DecidableEq

/-- `struct __bpf_capsule_alloc_request`, which a run reads and writes. -/
structure Request where
  operation : Operation
  size : Nat
  pointer : Nat
  result : CapsuleResult
  output : Output
  deriving DecidableEq

/-- `BPF_CAPSULE_NO_CONTINUATION`. -/
def noContinuation : Nat := 2 ^ 64 - 1

/-- The request of `bpf_capsule_malloc`. -/
def mallocRequest (size : Nat) : Request := ⟨.malloc, size, 0, ⟨0, .ok, noContinuation⟩, ⟨0, 0⟩⟩

/-- The request of `bpf_capsule_free`. -/
def freeRequest (pointer : Nat) : Request := ⟨.free, 0, pointer, ⟨0, .ok, noContinuation⟩, ⟨0, 0⟩⟩

/-! ## The program -/

/-- What the three entries return in a run of the program, with what they write to the output. -/
structure Guest where
  call : Operation → Nat → Nat → CapsuleResult × Output
  resume : Nat → CapsuleResult × Output
  reset : Nat → CapsuleResult

/-- The end of the program: the output is only there with the result `ok`. -/
def Request.finish (request : Request) (answer : CapsuleResult × Output) : Request :=
  { request with
    result := answer.1
    output := if answer.1.status = .ok then answer.2 else request.output }

/-- `BPF_CAPSULE_ALLOC_PROGRAM`: what it returns, and the request after it. -/
def allocProgram (guest : Guest) (request : Request) : Int × Request :=
  match request.operation with
  | .malloc | .free => (0, request.finish (guest.call request.operation request.size request.pointer))
  | .continue => (0, request.finish (guest.resume request.result.continuation))
  | .reset => (0, request.finish (guest.reset request.result.continuation, ⟨0, 0⟩))
  | .unknown _ => (-EINVAL, request)

/-- What the kernel does with a run of the program. -/
inductive Response where
  | failed (errno : Int)
  | returned (errno : Int)
  | ran (guest : Guest)

def testRun (request : Request) : Response → Option Int × Request
  | .failed errno | .returned errno => (some errno, request)
  | .ran guest =>
    let (retval, request) := allocProgram guest request
    (if retval < 0 then some (-retval) else none, request)

/-! ## The driver -/

structure Call where
  operation : Operation
  continuation : Nat
  result : Option CapsuleResult
  deriving DecidableEq

/-- What the driver did and returned: nothing for success, or `errno`. -/
structure Outcome where
  calls : List Call
  errno : Option Int
  request : Request
  deriving DecidableEq

def Request.called (request : Request) (error : Option Int) (after : Request) : Call :=
  ⟨request.operation, request.result.continuation,
    match error with | none => some after.result | some _ => none⟩

/-- Clean-up after a failed run; the result of the reset is not looked at. -/
def cleanUp (call : Call) (errno : Int) (request : Request) (responses : List Response) :
    Option Outcome :=
  if request.result.continuation ≠ noContinuation then
    match responses with
    | [] => none
    | response :: _ =>
      let reset := { request with operation := .reset }
      let (error, after) := testRun reset response
      some ⟨[call, reset.called error after], some errno, after⟩
  else some ⟨[call], some errno, request⟩

/-- `__bpf_capsule_alloc_run`, with the responses to its runs one after the other. There is no outcome
while it waits for another response. -/
def allocRun (request : Request) : List Response → Option Outcome
  | [] => none
  | response :: responses =>
    let (error, after) := testRun request response
    let call := request.called error after
    match error with
    | some errno => cleanUp call errno after responses
    | none =>
      match after.result.status with
      | .ok => some ⟨[call], if after.output.error ≠ 0 then some after.output.error else none, after⟩
      | .pending | .yield =>
        (allocRun { after with operation := .continue } responses).map fun outcome =>
          { outcome with calls := call :: outcome.calls }
      | .exited =>
        some ⟨[call], some (if after.result.code = CapsuleError.poolExhausted then EAGAIN else ECANCELED),
          after⟩
      | .unknown _ => some ⟨[call], some EPROTO, after⟩

/-! ## Continuations -/

def CapsuleResult.token (r : CapsuleResult) : Option Nat :=
  if (r.status = .pending ∨ r.status = .yield) ∧ r.continuation ≠ noContinuation then some r.continuation
  else none

namespace Call

def received (call : Call) : Option Nat := call.result.bind CapsuleResult.token

def uses (call : Call) : Option Nat :=
  if (call.operation = .continue ∨ call.operation = .reset) ∧ call.continuation ≠ noContinuation then
    some call.continuation
  else none

def consumes (call : Call) : Option Nat := call.result.bind fun _ => call.uses

/-- A clean-up that did not fail; `__bpf_capsule_reset` gives no continuation back. -/
def Resets (call : Call) : Prop := ∃ r, call.result = some r ∧ r.token = none

end Call

/-- What runs do with continuations when `held` is the one that is held before them. -/
inductive Chain : Option Nat → List Call → Prop
  | done {held : Option Nat} {call : Call} {r : CapsuleResult} (huses : call.uses = held)
    (hresult : call.result = some r) (htoken : r.token = none) : Chain held [call]
  | failed {call : Call} (huses : call.uses = none) (hresult : call.result = none) : Chain none [call]
  | reset {t : Nat} {call reset : Call} {r : CapsuleResult} (huses : call.uses = some t)
    (hresult : call.result = none) (huses' : reset.uses = some t) (hresult' : reset.result = some r)
    (htoken : r.token = none) : Chain (some t) [call, reset]
  | step {held : Option Nat} {call : Call} {r : CapsuleResult} {calls : List Call}
    (huses : call.uses = held) (hresult : call.result = some r) (h : Chain r.token calls) :
    Chain held (call :: calls)

namespace Chain

/-- With fresh continuations, each that is held or received is consumed once. -/
theorem countP_consumes {held : Option Nat} {calls : List Call} (h : Chain held calls)
    (hfresh : (held.toList ++ calls.filterMap Call.received).Nodup) (t : Nat) :
    calls.countP (fun call => call.consumes = some t) =
      if t ∈ held.toList ++ calls.filterMap Call.received then 1 else 0 := by
  induction h with
  | @done held call r huses hresult htoken =>
    have hreceived : call.received = none := by simp [Call.received, hresult, htoken]
    have hconsumes : call.consumes = held := by simp [Call.consumes, hresult, huses]
    cases held <;> simp [hreceived, hconsumes, List.countP_cons, eq_comm]
  | @failed call huses hresult =>
    simp [Call.received, Call.consumes, hresult]
  | @reset u call reset r huses hresult huses' hresult' htoken =>
    have hreceived : reset.received = none := by simp [Call.received, hresult', htoken]
    have hconsumes : reset.consumes = some u := by simp [Call.consumes, hresult', huses']
    have hnone : call.consumes = none ∧ call.received = none := by
      simp [Call.consumes, Call.received, hresult]
    simp [hreceived, hconsumes, hnone, List.countP_cons, eq_comm]
  | @step held call r calls huses hresult hchain ih =>
    have hreceived : (call :: calls).filterMap Call.received =
        r.token.toList ++ calls.filterMap Call.received := by
      cases htoken : r.token <;> simp [Call.received, hresult, htoken]
    have hconsumes : call.consumes = held := by simp [Call.consumes, hresult, huses]
    rw [hreceived] at hfresh ⊢
    rw [List.countP_cons, ih (List.nodup_append.mp hfresh).2.1, hconsumes]
    -- What is held is none of the others.
    by_cases hheld : held = some t
    · have hnot : t ∉ r.token.toList ++ calls.filterMap Call.received := by
        intro hmem
        exact (List.nodup_append.mp hfresh).2.2 t (by simp [hheld]) t hmem rfl
      have hmem : t ∈ held.toList ++ (r.token.toList ++ calls.filterMap Call.received) := by
        simp [hheld]
      rw [if_neg hnot, if_pos hmem, hheld]
      simp
    · have hiff : t ∈ held.toList ++ (r.token.toList ++ calls.filterMap Call.received) ↔
          t ∈ r.token.toList ++ calls.filterMap Call.received := by
        simp [hheld]
      simp only [hiff, hheld, decide_false, Bool.false_eq_true, ↓reduceIte, Nat.add_zero]

/-- A continuation is used only when it was received and no run has consumed it. -/
theorem not_consumed {held : Option Nat} {calls : List Call} (h : Chain held calls)
    (hfresh : (held.toList ++ calls.filterMap Call.received).Nodup) {pre post : List Call} {call : Call}
    (hsplit : calls = pre ++ call :: post) {t : Nat} (huse : call.uses = some t) :
    t ∈ held.toList ++ pre.filterMap Call.received ∧ ∀ earlier ∈ pre, earlier.consumes ≠ some t := by
  induction h generalizing pre with
  | @done held first r huses hresult htoken =>
    cases pre with
    | nil =>
      cases hsplit
      simp [← huses, huse]
    | cons _ pre => simp at hsplit
  | @failed first huses hresult =>
    cases pre with
    | nil =>
      cases hsplit
      rw [huses] at huse
      cases huse
    | cons _ pre => simp at hsplit
  | @reset u first reset r huses hresult huses' hresult' htoken =>
    cases pre with
    | nil =>
      cases hsplit
      simp [← huses, huse]
    | cons _ pre =>
      cases pre with
      | nil =>
        cases hsplit
        rw [huses'] at huse
        cases huse
        simp [Call.consumes, Call.received, hresult]
      | cons _ pre => simp at hsplit
  | @step held first r calls huses hresult hchain ih =>
    have hreceived : ∀ calls, (first :: calls).filterMap Call.received =
        r.token.toList ++ calls.filterMap Call.received := by
      cases htoken : r.token <;> simp [Call.received, hresult, htoken]
    rw [hreceived] at hfresh
    cases pre with
    | nil =>
      cases hsplit
      simp [← huses, huse]
    | cons _ pre =>
      cases hsplit
      obtain ⟨hmem, hnot⟩ := ih (List.nodup_append.mp hfresh).2.1 rfl
      refine ⟨?_, fun earlier hearlier => ?_⟩
      · rw [hreceived]
        exact List.mem_append_right _ hmem
      · rcases List.mem_cons.mp hearlier with rfl | hearlier
        · -- The first run consumed what was held, and `t` came later.
          intro hconsumes
          have hheld : held = some t := by
            rw [← huses]
            simpa [Call.consumes, hresult] using hconsumes
          have hmem' : t ∈ r.token.toList ++ (pre ++ call :: post).filterMap Call.received := by
            rw [List.filterMap_append, ← List.append_assoc]
            exact List.mem_append_left _ hmem
          exact (List.nodup_append.mp hfresh).2.2 t (by simp [hheld]) t hmem' rfl
        · exact hnot earlier hearlier

end Chain

/-! ## The driver's runs -/

/-- The request holds the continuation that it will hand in: none at first. -/
def Request.held (request : Request) : Option Nat :=
  if request.result.continuation ≠ noContinuation then some request.result.continuation else none

def Request.Sound (request : Request) : Prop :=
  request.operation = .continue ∨ request.result.continuation = noContinuation

variable {request : Request} {responses : List Response} {outcome : Outcome}

theorem uses_called (h : request.Sound) (error : Option Int) (after : Request) :
    (request.called error after).uses = request.held := by
  unfold Call.uses Request.held Request.called
  rcases h with h | h <;> simp [h]

/-- The program fails only on an operation it does not know, before it writes anything. -/
theorem allocProgram_retval (guest : Guest) (request : Request) :
    (allocProgram guest request).1 = 0 ∨ allocProgram guest request = (-EINVAL, request) := by
  unfold allocProgram
  cases request.operation with
  | unknown n => exact .inr rfl
  | _ => exact .inl rfl

theorem testRun_error {after : Request} {response : Response} {errno : Int}
    (h : testRun request response = (some errno, after)) : after = request := by
  cases response with
  | failed e => exact (congrArg Prod.snd h).symm
  | returned e => exact (congrArg Prod.snd h).symm
  | ran guest =>
    rcases allocProgram_retval guest request with hzero | hinval
    · simp [testRun, hzero] at h
    · simp only [testRun, hinval] at h
      exact (congrArg Prod.snd h).symm

theorem token_of_status {r : CapsuleResult} (h : r.status ≠ .pending) (h' : r.status ≠ .yield) :
    r.token = none := by
  simp [CapsuleResult.token, h, h']

theorem token_eq_held (h : request.result.status = .pending ∨ request.result.status = .yield) :
    request.result.token = request.held := by
  simp [CapsuleResult.token, Request.held, h]

theorem cleanUp_chain (hsound : request.Sound) {errno : Int}
    (h : cleanUp (request.called (some errno) request) errno request responses = some outcome)
    (hreset : ∀ call ∈ outcome.calls, call.operation = .reset → call.Resets) :
    Chain request.held outcome.calls := by
  unfold cleanUp at h
  split at h
  next hcontinuation =>
    have hheld : request.held = some request.result.continuation := by
      simp [Request.held, hcontinuation]
    cases responses with
    | nil => cases h
    | cons response responses =>
      cases h
      rw [hheld]
      obtain ⟨r, hresult, htoken⟩ := hreset _ (List.mem_cons_of_mem _ List.mem_cons_self) rfl
      refine .reset ?_ rfl ?_ hresult htoken
      · rw [uses_called hsound, hheld]
      · simp [Call.uses, Request.called, hcontinuation]
  next hcontinuation =>
    cases h
    have hheld : request.held = none := by simpa [Request.held] using hcontinuation
    rw [hheld]
    exact .failed (by rw [uses_called hsound, hheld]) rfl

/-- The driver holds one continuation at a time and hands in the one it holds. -/
theorem allocRun_chain (hsound : request.Sound) (h : allocRun request responses = some outcome)
    (hreset : ∀ call ∈ outcome.calls, call.operation = .reset → call.Resets) :
    Chain request.held outcome.calls := by
  induction responses generalizing request outcome with
  | nil => cases h
  | cons response responses ih =>
    unfold allocRun at h
    generalize hrun : testRun request response = run at h
    obtain ⟨error, after⟩ := run
    have huses := uses_called hsound error after
    cases error with
    | some errno =>
      obtain rfl := testRun_error hrun
      exact cleanUp_chain hsound h hreset
    | none =>
      have hover : after.result.status ≠ .pending → after.result.status ≠ .yield →
          Chain request.held [request.called none after] :=
        fun hpending hyield => .done huses rfl (token_of_status hpending hyield)
      have hmore : after.result.status = .pending ∨ after.result.status = .yield →
          (allocRun { after with operation := .continue } responses).map (fun outcome =>
            { outcome with calls := request.called none after :: outcome.calls }) = some outcome →
          Chain request.held outcome.calls := by
        intro hstatus hnext
        obtain ⟨rest, hrest, rfl⟩ := Option.map_eq_some_iff.mp hnext
        have hchain : Chain (Request.held { after with operation := .continue }) rest.calls :=
          ih (.inl rfl) hrest fun call hcall => hreset call (List.mem_cons_of_mem _ hcall)
        refine .step huses rfl ?_
        rw [token_eq_held hstatus]
        exact hchain
      simp only at h
      cases hstatus : after.result.status with
      | pending => exact hmore (.inl hstatus) (by rwa [hstatus] at h)
      | yield => exact hmore (.inr hstatus) (by rwa [hstatus] at h)
      | _ =>
        rw [hstatus] at h
        cases h
        exact hover (by simp [hstatus]) (by simp [hstatus])

/-- Success is the result `ok` of the last run without an error of the allocator. -/
theorem allocRun_success (h : allocRun request responses = some outcome)
    (hsuccess : outcome.errno = none) :
    outcome.request.result.status = .ok ∧ outcome.request.output.error = 0 ∧
      ∃ pre call, outcome.calls = pre ++ [call] ∧ call.result = some outcome.request.result := by
  induction responses generalizing request outcome with
  | nil => cases h
  | cons response responses ih =>
    unfold allocRun at h
    generalize hrun : testRun request response = run at h
    obtain ⟨error, after⟩ := run
    cases error with
    | some errno =>
      simp only [cleanUp] at h
      split at h
      · cases responses with
        | nil => cases h
        | cons response responses =>
          cases h
          cases hsuccess
      · cases h
        cases hsuccess
    | none =>
      -- a pending or yielded request is continued with the rest of the responses
      have hmore : (allocRun { after with operation := .continue } responses).map (fun outcome =>
            { outcome with calls := request.called none after :: outcome.calls }) = some outcome →
          outcome.request.result.status = .ok ∧ outcome.request.output.error = 0 ∧
            ∃ pre call, outcome.calls = pre ++ [call] ∧ call.result = some outcome.request.result := by
        intro hnext
        obtain ⟨rest, hrest, rfl⟩ := Option.map_eq_some_iff.mp hnext
        obtain ⟨hok, herror, pre, call, hcalls, hresult⟩ := ih hrest hsuccess
        exact ⟨hok, herror, _ :: pre, call, congrArg (List.cons _) hcalls, hresult⟩
      simp only at h
      cases hstatus : after.result.status with
      | pending => exact hmore (by rwa [hstatus] at h)
      | yield => exact hmore (by rwa [hstatus] at h)
      | ok =>
        rw [hstatus] at h
        cases h
        refine ⟨hstatus, ?_, [], _, rfl, rfl⟩
        by_contra herror
        simp [herror] at hsuccess
      | _ =>
        rw [hstatus] at h
        cases h
        cases hsuccess

/-! ## No continuation is lost -/

/-- The runs use every continuation once: it is consumed by one run, and a run that uses one was
preceded by the run that brought it and by none that consumed it. -/
structure Linear (calls : List Call) : Prop where
  consumed : ∀ t ∈ calls.filterMap Call.received, calls.countP (fun call => call.consumes = some t) = 1
  fresh : ∀ pre call post, calls = pre ++ call :: post → ∀ t, call.uses = some t →
    t ∈ pre.filterMap Call.received ∧ ∀ earlier ∈ pre, earlier.consumes ≠ some t

/-- For every sequence of responses, the driver uses every continuation once, and it succeeds only
with the result `ok` and no error of the allocator. The continuations are fresh, and the clean-up
does not fail. -/
theorem allocRun_linear (request : Request) (hrequest : request.result.continuation = noContinuation)
    (responses : List Response) (outcome : Outcome) (h : allocRun request responses = some outcome)
    (hfresh : (outcome.calls.filterMap Call.received).Nodup)
    (hreset : ∀ call ∈ outcome.calls, call.operation = .reset → call.Resets) :
    Linear outcome.calls ∧
      (outcome.errno = none → outcome.request.result.status = .ok ∧ outcome.request.output.error = 0 ∧
        ∃ pre call, outcome.calls = pre ++ [call] ∧ call.result = some outcome.request.result) := by
  have hheld : request.held = none := by simp [Request.held, hrequest]
  have hchain := allocRun_chain (.inr hrequest) h hreset
  rw [hheld] at hchain
  refine ⟨⟨fun t ht => ?_, fun pre call post hsplit t huse => ?_⟩, allocRun_success h⟩
  · rw [hchain.countP_consumes hfresh t, if_pos (by exact ht)]
  · exact hchain.not_consumed hfresh hsplit huse

private def answers (r : CapsuleResult) : Response :=
  .ran ⟨fun _ _ _ => (r, ⟨4096, 0⟩), fun _ => (r, ⟨4096, 0⟩), fun _ => ⟨0, .ok, noContinuation⟩⟩

private def interrupted : Outcome :=
  ⟨[⟨.malloc, noContinuation, some ⟨0, .pending, 1⟩⟩, ⟨.continue, 1, some ⟨0, .yield, 2⟩⟩,
    ⟨.continue, 2, none⟩, ⟨.reset, 2, some ⟨0, .ok, noContinuation⟩⟩], some 4,
    ⟨.reset, 16, 0, ⟨0, .ok, noContinuation⟩, ⟨0, 0⟩⟩⟩

/-- A pending request, a yield and an interrupted call before the answer. -/
theorem allocRun_linear_interrupted :
    allocRun (mallocRequest 16) [answers ⟨0, .pending, 1⟩, answers ⟨0, .yield, 2⟩, .failed 4,
        answers ⟨0, .ok, noContinuation⟩] = some interrupted ∧ Linear interrupted.calls :=
  have h : allocRun (mallocRequest 16) [answers ⟨0, .pending, 1⟩, answers ⟨0, .yield, 2⟩, .failed 4,
      answers ⟨0, .ok, noContinuation⟩] = some interrupted := by decide
  ⟨h, (allocRun_linear _ rfl _ _ h (by decide) (by
    intro call hcall hop
    simp only [interrupted, List.mem_cons, List.not_mem_nil, or_false] at hcall
    rcases hcall with rfl | rfl | rfl | rfl
    · cases hop
    · cases hop
    · cases hop
    · exact ⟨_, rfl, rfl⟩)).1⟩

end BpfCapsule.Allocator.Host

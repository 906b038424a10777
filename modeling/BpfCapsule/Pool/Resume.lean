import BpfCapsule.Pool.Discipline
import BpfCapsule.Pool.Conservation

/-!
# BpfCapsule — a suspended fiber can be resumed

An arena consume refuses a token whose fiber has neither a region to resume nor an exit to report.
No token a client holds runs into that: an entry returns `PENDING` because it read a resume region,
and `YIELD` because the generated code stored the region it resumes at before it published the
outcome (`Drive.resumable`). `resumable_of_outstanding` says so for every outstanding token of every
run. Its protocol follows the record of the fiber an entry owns word by word from the store that
clears the outcome to the one that is read back; all other code is taken over from the ownership
discipline, which allows no writes to anybody else's record.
-/

namespace BpfCapsule.Pool

open Interleave
open Function (update update_self update_of_ne)

abbrev Registers := CapsuleStatus × Nat

def registers (c : FiberControl) : Registers := (c.status, c.resumeRegionId)

def Op.track : Op → Registers → Registers
  | .store _ .status v, (_, resume) => (v, resume)
  | .store _ .resumeRegionId v, (status, _) => (status, v)
  | .storeOutcome _ status _, (_, resume) => (status, resume)
  | _, r => r

def GuestStore.track (r : Registers) : GuestStore → Registers
  | .outcome status _ => (status, r.2)
  | .resumeRegionId id => (r.1, id)
  | _ => r

def Drive.resumable (drive : Drive) : Bool :=
  (drive.stores.foldl GuestStore.track (.ok, 0)).1 ≠ .yield ∨
    (drive.stores.foldl GuestStore.track (.ok, 0)).2 ≠ 0

def Entry.resumable : Entry → Bool
  | .call _ _ drive => drive.resumable
  | .continue _ _ _ drive => drive.resumable
  | .reset _ => true

def Entry.generated (e : Entry) : Bool := e.clean && e.resumable

/-! ## Following the registers -/

/-- The stores decide the status; a region they leave at zero was zero before. -/
theorem track_stores (stores : List GuestStore) (status : CapsuleStatus) (resume : Nat) :
    (stores.foldl GuestStore.track (status, resume)).1
      = (stores.foldl GuestStore.track (status, 0)).1 ∧
    ((stores.foldl GuestStore.track (status, resume)).2 = 0 →
      (stores.foldl GuestStore.track (status, 0)).2 = 0) := by
  induction stores generalizing status resume with
  | nil => exact ⟨rfl, fun _ => rfl⟩
  | cons g stores ih =>
    cases g with
    | outcome status' code => exact ih status' resume
    | resumeRegionId region => exact ⟨rfl, fun h => h⟩
    | sp _ | fp _ | slice _ _ => exact ih status resume

theorem resume_of_yield {drive : Drive} (hd : drive.resumable = true) (resume : Nat)
    (hyield : (drive.stores.foldl GuestStore.track (.ok, resume)).1 = .yield) :
    (drive.stores.foldl GuestStore.track (.ok, resume)).2 ≠ 0 := by
  intro hzero
  obtain ⟨hstatus, hresume⟩ := track_stores drive.stores .ok resume
  rw [hstatus] at hyield
  have hd' : (drive.stores.foldl GuestStore.track (.ok, 0)).1 ≠ .yield ∨
      (drive.stores.foldl GuestStore.track (.ok, 0)).2 ≠ 0 := of_decide_eq_true hd
  rcases hd' with hne | hne
  · exact hne hyield
  · exact hne (hresume hzero)

section Effects

variable {S : Setup} {t n f : Nat} {o : Op} {s s' : Shared} {x : Resp o}

theorem registers_of_exec (h : exec S t o n s = some (x, s'))
    (hw : o.writes = none ∨ o.writes = some f) :
    registers (s'.controls f) = o.track (registers (s.controls f)) := by
  have hframe : o.writes = none → s'.controls f = s.controls f := fun hn =>
    (exec_fiber_of_not_writes h (by rw [hn]; simp)).1
  cases o with
  | store fiber fld v =>
    obtain rfl : fiber = f := by simpa [Op.writes] using hw
    have hc : s'.controls fiber = (s.controls fiber).set fld v := by
      cases h
      split <;> exact update_self ..
    rw [hc]
    cases fld <;> rfl
  | storeOutcome fiber status code =>
    obtain rfl : fiber = f := by simpa [Op.writes] using hw
    cases h
    show registers (update s.controls fiber _ fiber) = _
    rw [update_self]
    rfl
  | storeSlice fiber offset byte =>
    cases h
    rfl
  | _ => rw [hframe rfl]; rfl

/-- Nobody writes the registers of a fiber another entry owns, or of one nobody owns. -/
theorem registers_of_guar (h : exec S t o n s = some (x, s'))
    (hg : (ownership True).guar o (s.own t)) (hown : s.own t ≠ some f) :
    registers (s'.controls f) = registers (s.controls f) := by
  by_cases hw : o.writes = some f
  · rcases hg f hw with ho | ⟨-, rfl⟩
    · exact absurd ho hown
    · exact registers_of_exec h (.inr rfl)
  · exact congrArg registers (exec_fiber_of_not_writes h hw).1

end Effects

/-! ## The protocol -/

def resuming : Protocol Op Shared (Option (Nat × Registers)) where
  inv s := ∀ k ∈ s.returned, k ∉ s.accepted → (s.controls (tokenFiber k)).resumeRegionId ≠ 0
  view t s := (s.own t).map fun f => (f, registers (s.controls f))
  guar _ _ := True

section Rules

variable {S : Setup} {R : Regime} {C : Cond Op Shared} {t f n : Nat} {o : Op} {s s' : Shared}
variable {x : Resp o} {r : Registers} {α : Type}

/-- A write of an owner, and any read, keep what everybody else relies on. -/
theorem resuming_step (hi : PoolInv S R s) (hinv : resuming.inv s)
    (hx : exec S t o n s = some (x, s')) (hg : (ownership True).guar o (s.own t)) :
    resuming.inv s' ∧ ∀ u, u ≠ t → resuming.view u s' = resuming.view u s := by
  constructor
  · intro k hk hacc
    rw [(exec_framed hx).returned] at hk
    have hacc' : k ∉ s.accepted := by
      rcases exec_accepted hx with ⟨heq, -⟩ | ⟨f, g, rfl⟩
      · rwa [heq] at hacc
      · exact fun h => hacc (List.mem_cons_of_mem _ h)
    -- an owned fiber has no outstanding token
    have hown : s.own t ≠ some (tokenFiber k) := by
      intro hown
      have hout := outstanding_eq_nil hi (hi.lease.own_accepted hown)
      have hmem : k ∈ outstanding s (tokenFiber k) :=
        List.mem_filter.mpr ⟨hk, decide_eq_true ⟨rfl, hacc'⟩⟩
      rw [hout] at hmem
      cases hmem
    have hregs := registers_of_guar hx hg hown
    rw [show (s'.controls (tokenFiber k)).resumeRegionId
      = (s.controls (tokenFiber k)).resumeRegionId from congrArg Prod.snd hregs]
    exact hinv k hk hacc'
  · intro u hu
    show (s'.own u).map _ = (s.own u).map _
    rw [(exec_framed hx).own _ hu]
    cases hown : s.own u with
    | none => rfl
    | some f =>
      have hne : s.own t ≠ some f := fun ht => hu (hi.lease.own_inj hown ht)
      rw [Option.map_some, Option.map_some, registers_of_guar hx hg hne]

variable (hinv : ∀ {t o s s'}, C t o s s' → PoolInv S R s)

include hinv

/-- The ownership discipline carries over; nothing is known about the registers afterwards. -/
theorem resuming_of_owns {Q : α → Option Nat → Prop} {p : Code α} {v : Option (Nat × Registers)}
    (h : Safe (system S) (ownership True) C t Q p (v.map Prod.fst)) :
    Safe (system S) resuming C t (fun a w => Q a (w.map Prod.fst)) p v := by
  have hview : ∀ s, (resuming.view t s).map Prod.fst = s.own t := by
    intro s
    show ((s.own t).map _).map Prod.fst = s.own t
    rw [Option.map_map]
    exact Option.map_id' ..
  induction p generalizing v with
  | ret a => exact h
  | act o k ih =>
    refine ⟨trivial, fun s n x s' hi hv hx hC => ?_⟩
    have hown : s.own t = v.map Prod.fst := by rw [← hv]; exact (hview s).symm
    obtain ⟨-, -, hk⟩ := h.2 s n x s' trivial hown hx hC
    obtain ⟨hinv', hothers⟩ := resuming_step (hinv hC) hi hx (hown ▸ h.1)
    refine ⟨hinv', hothers, ih x ?_⟩
    rw [hview]
    exact hk

/-- An owner knows its fiber's registers after each of its own operations. -/
theorem resuming_perform {Q : Resp o → Prop} (hm : o.movesOwner = false)
    (hw : o.writes = none ∨ o.writes = some f)
    (hQ : ∀ s n x s', registers (s.controls f) = r → exec S t o n s = some (x, s') → Q x) :
    Safe (system S) resuming C t (fun x w => w = some (f, o.track r) ∧ Q x) (perform o)
      (some (f, r)) := by
  refine safe_op trivial fun s n x s' hi hv hx hC => ?_
  obtain ⟨f', hown, heq⟩ := Option.map_eq_some_iff.mp hv
  obtain ⟨rfl, hregs⟩ := Prod.mk.inj heq
  have hg : (ownership True).guar o (s.own t) := by
    rcases hw with hw | hw
    · exact owns_reads hw
    · exact owns_writes hown hw
  obtain ⟨hinv', hothers⟩ := resuming_step (hinv hC) hi hx hg
  refine ⟨hinv', hothers, ?_, hQ s n x s' hregs hx⟩
  show (s'.own t).map _ = _
  rw [exec_own_of_not_moves hx hm, hown, Option.map_some, registers_of_exec hx hw, hregs]

/-- An operation that does not touch the registers. -/
theorem resuming_keep (hm : o.movesOwner = false) (hw : o.writes = none ∨ o.writes = some f)
    (htrack : o.track r = r) :
    Safe (system S) resuming C t (fun _ w => w = some (f, r)) (perform o) (some (f, r)) := by
  refine safe_mono (resuming_perform hinv hm hw fun _ _ _ _ _ _ => trivial) ?_
  rintro _ _ ⟨rfl, -⟩
  rw [htrack]

theorem resuming_set (hm : o.movesOwner = false) (hw : o.writes = some f) :
    Safe (system S) resuming C t (fun _ w => w = some (f, o.track r)) (perform o)
      (some (f, r)) :=
  safe_mono (resuming_perform hinv hm (.inr hw) fun _ _ _ _ _ _ => trivial)
    fun _ _ h => h.1

theorem resuming_loadStatus :
    Safe (system S) resuming C t (fun x w => w = some (f, r) ∧ x = r.1) (load f .status)
      (some (f, r)) := by
  refine resuming_perform (o := .load f .status) hinv rfl (.inl rfl) fun s n x s' hregs hx => ?_
  simp only [exec, Option.some.injEq, Prod.mk.injEq] at hx
  rw [← hx.1, ← hregs]
  rfl

theorem resuming_loadResume :
    Safe (system S) resuming C t (fun x w => w = some (f, r) ∧ x = r.2) (load f .resumeRegionId)
      (some (f, r)) := by
  refine resuming_perform (o := .load f .resumeRegionId) hinv rfl (.inl rfl)
    fun s n x s' hregs hx => ?_
  simp only [exec, Option.some.injEq, Prod.mk.injEq] at hx
  rw [← hx.1, ← hregs]
  rfl

/-! ## The drive -/

theorem resuming_guestStores (stores : List GuestStore) :
    Safe (system S) resuming C t (fun _ w => w = some (f, stores.foldl GuestStore.track r))
      (guestStores f stores) (some (f, r)) := by
  induction stores generalizing r with
  | nil => exact safe_pure rfl
  | cons g stores ih =>
    cases g with
    | outcome status code | resumeRegionId id =>
      refine safe_bind_of (resuming_set hinv rfl rfl) ?_
      rintro _ _ rfl
      exact ih
    | sp address | fp address | slice offset byte =>
      refine safe_then (resuming_keep hinv rfl (.inr rfl) rfl) fun _ => ?_
      exact ih

theorem resuming_storeFrame (bytes : List (Nat × UInt8)) :
    Safe (system S) resuming C t (fun _ w => w = some (f, r)) (storeFrame f bytes)
      (some (f, r)) := by
  induction bytes with
  | nil => exact safe_pure rfl
  | cons b bytes ih =>
    refine safe_then (resuming_keep hinv rfl (.inr rfl) rfl) fun _ => ?_
    exact ih

theorem resuming_loadBytes (size offset : Nat) :
    Safe (system S) resuming C t (fun _ w => w = some (f, r)) (loadBytes f size offset)
      (some (f, r)) := by
  induction size generalizing offset with
  | zero => exact safe_pure rfl
  | succ size ih =>
    refine safe_then (resuming_keep hinv rfl (.inl rfl) rfl) fun _ => ?_
    refine safe_then (ih (offset + 1)) fun _ => ?_
    exact safe_pure rfl

/-- A drive from a cleared outcome does not leave a yield without a region. -/
theorem resuming_trampoline {resume : Nat} (hf : f < S.fiberCount) (drive : Drive)
    (hd : drive.resumable = true) :
    Safe (system S) resuming C t
      (fun _ w => ∃ r' : Registers, w = some (f, r') ∧ (r'.1 = .yield → r'.2 ≠ 0))
      (trampoline S f drive) (some (f, (.ok, resume))) := by
  unfold trampoline
  rw [Setup.fiberControl_of_lt hf]
  split
  · -- the fiber stops with a memory fault
    refine safe_bind_of (resuming_set hinv rfl rfl) ?_
    rintro _ _ rfl
    refine safe_mono (resuming_keep hinv rfl (.inr rfl) rfl) ?_
    rintro _ _ rfl
    exact ⟨_, rfl, fun h => by cases h⟩
  · refine safe_mono (resuming_guestStores hinv drive.stores) ?_
    rintro _ _ rfl
    exact ⟨_, rfl, resume_of_yield hd resume⟩

theorem resuming_makeContinuation (hf : f < S.fiberCount) :
    Safe (system S) resuming C t
      (fun k w => w = some (f, r) ∧ ∃ g, k = continuationValue f g)
      (makeContinuation S f) (some (f, r)) := by
  unfold makeContinuation
  rw [if_neg (by omega), Setup.fiberControl_of_lt hf]
  refine safe_then (resuming_keep hinv rfl (.inl rfl) rfl) fun g => ?_
  exact safe_pure ⟨rfl, g, rfl⟩

/-- A call whose first drive is over reports a suspension only with a region to resume. -/
theorem resuming_callRoot (hf : f < S.fiberCount) (root : RootCall) (drive : Drive)
    (hd : drive.resumable = true) :
    Safe (system S) resuming C t
      (fun res w => ∃ r' : Registers, w = some (f, r') ∧
        (res.1 = .pending ∨ res.1 = .yield → r'.2 ≠ 0))
      (callRoot S f root drive) (some (f, r)) := by
  unfold callRoot
  rw [Setup.fiberControl_of_lt hf]
  refine safe_bind_of (resuming_set hinv rfl rfl) ?_
  rintro _ _ rfl
  refine safe_then (resuming_storeFrame hinv root.frame) fun _ => ?_
  refine safe_then (resuming_keep hinv rfl (.inr rfl) rfl) fun _ => ?_
  refine safe_bind_of (resuming_set hinv rfl rfl) ?_
  rintro _ _ rfl
  refine safe_then (resuming_keep hinv rfl (.inr rfl) rfl) fun _ => ?_
  refine safe_then (resuming_keep hinv rfl (.inr rfl) rfl) fun _ => ?_
  refine safe_bind_of (resuming_trampoline hinv hf drive hd) ?_
  rintro _ _ ⟨r', rfl, hyield⟩
  refine safe_then (resuming_loadBytes hinv root.returnSize _) fun bytes => ?_
  refine safe_bind_of (resuming_loadStatus hinv) ?_
  rintro tag _ ⟨rfl, rfl⟩
  refine safe_bind_of (resuming_loadResume hinv) ?_
  rintro resume _ ⟨rfl, rfl⟩
  refine safe_pure ⟨r', rfl, ?_⟩
  by_cases hexit : r'.1 = .exited
  · simp [hexit]
  by_cases hy : r'.1 = .yield
  · exact fun _ => hyield hy
  by_cases hres : r'.2 = 0
  · simp [hexit, hy, hres]
  · exact fun _ => hres

/-! ## The entries -/

omit hinv in
def Resumes (r : CapsuleResult) (w : Option (Nat × Registers)) : Prop :=
  r.continuation = noContinuation ∨
    ∃ f regs g, w = some (f, regs) ∧ f < 2 ^ 16 ∧ regs.2 ≠ 0 ∧ r.continuation = continuationValue f g

omit hinv in
/-- A continue that gets past its checks owns a fiber whose status is `ok`. -/
def Prepared (S : Setup) : CapsuleResult ⊕ (Nat × CapsuleResult) → Option (Nat × Registers) → Prop
  | .inl result, _ => result.continuation = noContinuation
  | .inr (f, _), w => f < S.fiberCount ∧ ∃ resume, w = some (f, (.ok, resume))

omit hinv in
theorem eq_some_of_map_fst {w : Option (Nat × Registers)} (h : w.map Prod.fst = some f) :
    ∃ regs, w = some (f, regs) := by
  obtain ⟨⟨f', regs⟩, rfl, rfl⟩ := Option.map_eq_some_iff.mp h
  exact ⟨regs, rfl⟩

omit hinv in
theorem owned_follows (S : Setup) (C : Cond Op Shared) (t : Nat) :
    Follows S (ownership True) C t False True (fun f w => w = some f) (ownership True).guar
      (fun _ _ _ => True) (fun w => w = none) :=
  owns_follows (.inl trivial) S t

theorem resuming_finishExited (hf : f < S.fiberCount) :
    Safe (system S) resuming C t (fun res _ => res.continuation = noContinuation)
      (finishExited S f) (some (f, r)) :=
  safe_mono (resuming_of_owns hinv ((owned_follows S C t).finishExited hf rfl))
    fun _ _ h => h.1

/-- An entry that suspends its fiber with a region to resume. -/
theorem resuming_suspended (hf : f < S.fiberCount) (hres : r.2 ≠ 0) {p : Nat → Returned}
    (hp : ∀ k, (p k).result.continuation = k) :
    Safe (system S) resuming C t (fun res w => Resumes res.result w)
      (makeContinuation S f >>= fun k => pure (p k)) (some (f, r)) := by
  have hf16 : f < 2 ^ 16 := by have := Setup.lt_two_pow_of_lt hf; omega
  refine safe_bind_of (resuming_makeContinuation hinv hf) ?_
  rintro k _ ⟨rfl, g, rfl⟩
  exact safe_pure (.inr ⟨f, r, g, rfl, hf16, hres, hp _⟩)

theorem resuming_finishContinue (hf : f < S.fiberCount) (hyield : r.1 = .yield → r.2 ≠ 0)
    (result : CapsuleResult) (outputSize outputAlignment : Nat) :
    Safe (system S) resuming C t (fun res w => Resumes res.result w)
      (finishContinue S result f outputSize outputAlignment) (some (f, r)) := by
  unfold finishContinue
  simp only [Setup.fiberControl_of_lt hf]
  refine safe_bind_of (resuming_loadStatus hinv) ?_
  rintro status _ ⟨rfl, rfl⟩
  split
  · refine safe_bind_of (resuming_finishExited hinv hf) ?_
    intro res w hres
    exact safe_pure (.inl hres)
  split
  · rename_i hy
    exact resuming_suspended hinv hf (hyield hy) fun _ => rfl
  refine safe_bind_of (resuming_loadResume hinv) ?_
  rintro resume _ ⟨rfl, rfl⟩
  split
  · rename_i hres
    exact resuming_suspended hinv hf hres fun _ => rfl
  refine safe_bind_of (resuming_of_owns hinv
    ((owned_follows S C t).finishCompleted hf rfl result False.elim outputSize outputAlignment)) ?_
  rintro done w ⟨-, hlate⟩
  split
  · rename_i hexited
    refine safe_bind_of (resuming_of_owns hinv
      ((owned_follows S C t).storeOf _ _ (by simp) (hlate hexited))) ?_
    intro _ _ _
    exact safe_pure (.inl rfl)
  · exact safe_pure (.inl rfl)

theorem resuming_entryCode {e : Entry} (he : e.resumable = true) :
    Safe (system S) resuming C t (fun res w => Resumes res.result w) (entryCode S e) none := by
  have F := owned_follows S C t
  cases e with
  | call cpu root drive =>
    show Safe (system S) resuming C t _ (capsuleCall S cpu root drive) none
    unfold capsuleCall
    split
    · exact safe_pure (.inl rfl)
    refine safe_bind_of (resuming_of_owns hinv
      ((owns_takes (.inl trivial) S t).fiberAcquire cpu)) ?_
    rintro (_ | f) w hw
    · exact safe_pure (.inl rfl)
    obtain ⟨hf, hown⟩ := hw
    -- from here on the entry owns the fiber
    obtain ⟨regs, rfl⟩ := eq_some_of_map_fst hown
    refine safe_bind_of (resuming_callRoot hinv hf root drive he) ?_
    rintro ⟨status, bytes⟩ _ ⟨r', rfl, hres⟩
    cases status with
    | ok =>
      refine safe_bind_of (resuming_of_owns hinv (F.fiberRelease hf rfl)) ?_
      rintro (_ | _) w _ <;> exact safe_pure (.inl rfl)
    | exited =>
      refine safe_bind_of (resuming_finishExited hinv hf) ?_
      intro res w hno
      exact safe_pure (.inl hno)
    | pending => exact resuming_suspended hinv hf (hres (.inl rfl)) fun _ => rfl
    | yield => exact resuming_suspended hinv hf (hres (.inr rfl)) fun _ => rfl
  | «continue» k outputSize outputAlignment drive =>
    have hprepare : Safe (system S) resuming C t (Prepared S) (prepareContinue S k) none := by
      refine safe_bind_of (resuming_of_owns hinv
        ((owns_takes (.inl trivial) S t).consumeContinuation k)) ?_
      rintro (err | f) w hw
      · exact safe_pure (by cases err <;> rfl)
      obtain ⟨hf, hown⟩ := hw
      obtain ⟨regs, rfl⟩ := eq_some_of_map_fst hown
      simp only [Setup.fiberControl_of_lt hf]
      refine safe_bind_of (resuming_makeContinuation hinv hf) ?_
      rintro token _ ⟨rfl, -⟩
      refine safe_bind_of (resuming_loadStatus hinv) ?_
      rintro status _ ⟨rfl, rfl⟩
      split
      · refine safe_bind_of (resuming_finishExited hinv hf) ?_
        intro res w hno
        exact safe_pure hno
      refine safe_bind_of (resuming_loadResume hinv) ?_
      rintro resume _ ⟨rfl, rfl⟩
      split
      · refine safe_bind_of (resuming_of_owns hinv (F.fiberCancel hf rfl)) ?_
        intro b w _
        exact safe_pure rfl
      -- the computation is not over: its outcome is cleared, the resume region stays
      refine safe_bind_of (resuming_set hinv rfl rfl) ?_
      rintro _ _ rfl
      refine safe_then (resuming_keep hinv rfl (.inr rfl) rfl) fun _ => ?_
      exact safe_pure ⟨hf, regs.2, rfl⟩
    refine safe_bind_of hprepare ?_
    rintro (result | ⟨f, result⟩) w hw
    · exact safe_pure (.inl hw)
    obtain ⟨hf, resume, rfl⟩ := hw
    refine safe_bind_of (resuming_trampoline hinv hf drive he) ?_
    rintro _ _ ⟨r', rfl, hyield⟩
    exact resuming_finishContinue hinv hf hyield result outputSize outputAlignment
  | reset k =>
    refine safe_mono (resuming_of_owns hinv (F.capsuleReset
      ((owns_takes (.inl trivial) S t).consumeContinuation k))) ?_
    rintro res w (⟨err, -, hres⟩ | hdone)
    · exact .inl (by rw [hres]; cases err <;> rfl)
    · exact .inl hdone.1

theorem resuming_sound {A : Entry → Shared → Bool}
    (hstart : ∀ e s, A e s = true → e.resumable = true) :
    Sound (admitting S A) resuming C (fun v => v = none) (fun _ res w => Resumes res.result w) where
  enter_ok t e s hi hidle hallow := by
    refine ⟨hi, fun _ _ => rfl, ?_⟩
    show Safe (admitting S A) resuming C t (fun res w => Resumes res.result w) (entryCode S e)
      (resuming.view t s)
    rw [hidle]
    exact safe_of_exec (show (admitting S A).exec = (system S).exec from rfl)
      (resuming_entryCode hinv (hstart e s hallow))
  leave_ok t e res s hi hpost := by
    refine ⟨?_, ?_, ?_⟩
    · intro k hk hacc
      rcases hpost with hno | ⟨f, regs, g, hv, hf16, hres, htok⟩
      · exact hi k (by simpa [admitting, leave, hno] using hk) hacc
      · have hmem : k = res.result.continuation ∨ k ∈ s.returned := by
          have hk' : k ∈ (leave t e res s).returned := hk
          simp only [leave] at hk'
          split at hk'
          · exact .inr hk'
          · exact List.mem_cons.mp hk'
        rcases hmem with rfl | hold
        · -- the token just returned is the owned fiber's
          have hfib : tokenFiber res.result.continuation = f := by
            rw [htok]
            exact congrArg Prod.fst (tokenPair_continuationValue g hf16)
          obtain ⟨f', -, heq⟩ := Option.map_eq_some_iff.mp hv
          obtain ⟨rfl, rfl⟩ := Prod.mk.inj heq
          rw [hfib]
          exact hres
        · exact hi k hold hacc
    · intro u hu
      show ((leave t e res s).own u).map _ = (s.own u).map _
      rw [show (leave t e res s).own u = s.own u from update_of_ne hu _ _]
      rfl
    · show ((leave t e res s).own t).map _ = none
      rw [show (leave t e res s).own t = none from update_self ..]
      rfl

end Rules

end BpfCapsule.Pool

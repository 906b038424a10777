import BpfCapsule.Pool.Effects

/-!
# BpfCapsule — following the entries' code, for any protocol

The three entry points share most of their code, and what a protocol has to say about it is the
same each time: a fiber in hand stays in hand over loads and stores, its token is made from its
generation, and a release ends it. `Follows` collects what a protocol must provide for a fiber in
hand; the lemmas below carry it through the scan that acquires a fiber, the drive, and every way
an entry can end. A protocol that wants to reason about whole entries supplies these rules and its
account of the two ways to come by a fiber (`hacquire`, `hconsume`), and no more. Where the view is
just the fiber in hand, `Takes` derives that account as well.
-/

namespace BpfCapsule.Pool

open Interleave
open CapsuleError (poolCorrupt)

variable {ρ : Type} {S : Setup} {P : Protocol Op Shared ρ} {C : Cond Op Shared} {t : Nat}

theorem zero_ne_poolCorrupt : (0 : Int) ≠ poolCorrupt := by decide

/-- The code ends with the view it began with. -/
abbrev Keeps (S : Setup) (P : Protocol Op Shared ρ) (C : Cond Op Shared) (t : Nat) {α : Type}
    (p : Code α) (w : ρ) : Prop :=
  Safe (system S) P C t (fun _ w' => w' = w) p w

/-! ## The scan -/

/-- What is sought is not there and `N` holds, or it is a fiber of the pool for which `R` holds. -/
def Found (S : Setup) (N : ρ → Prop) (R : Nat → ρ → Prop) : Option Nat → ρ → Prop
  | none, w => N w
  | some f, w => f < S.fiberCount ∧ R f w

section Scan

variable {v : ρ} {R R' : Nat → ρ → Prop} (hlease : ∀ f, f < S.fiberCount →
  Safe (system S) P C t (fun b w => if b then R f w else w = v) (leaseFiber S f) v)

include hlease

theorem safe_acquireChunkLoop (start left attempt : Nat) (hstart : start < S.fiberCount) :
    Safe (system S) P C t (Found S (· = v) R) (acquireChunkLoop S start left attempt) v := by
  induction left generalizing attempt with
  | zero => exact safe_pure rfl
  | succ left ih =>
    unfold acquireChunkLoop
    split
    · exact safe_pure rfl
    · -- the attempted fiber wraps around inside the configured count
      have hf : (if S.fiberCount ≤ start + attempt then start + attempt - S.fiberCount
          else start + attempt) < S.fiberCount := by split <;> omega
      refine safe_bind_of (hlease _ hf) ?_
      rintro (_ | _) w hw
      · have hv : w = v := hw
        rw [hv]
        exact ih (attempt + 1)
      · exact safe_pure ⟨hf, hw⟩

theorem safe_fiberAcquireChunk (start first : Nat) :
    Safe (system S) P C t (Found S (· = v) R) (fiberAcquireChunk S start first) v := by
  unfold fiberAcquireChunk
  split
  · exact safe_pure rfl
  · exact safe_acquireChunkLoop hlease start scanChunk first (by omega)

theorem safe_acquirePageLoop (start left offset : Nat) :
    Safe (system S) P C t (Found S (· = v) R) (acquirePageLoop S start left offset) v := by
  induction left generalizing offset with
  | zero => exact safe_pure rfl
  | succ left ih =>
    unfold acquirePageLoop
    split
    · exact safe_pure rfl
    · refine safe_bind_of (safe_fiberAcquireChunk hlease start offset) ?_
      rintro (_ | f) w hw
      · have hv : w = v := hw
        rw [hv]
        exact ih (offset + scanChunk)
      · exact safe_pure hw

theorem safe_fiberAcquirePage (start first : Nat) :
    Safe (system S) P C t (Found S (· = v) R) (fiberAcquirePage S start first) v := by
  unfold fiberAcquirePage
  split
  · exact safe_pure rfl
  · exact safe_acquirePageLoop hlease start scanChunk first

/-- **The whole scan**: a leased fiber is prepared before it is handed out. -/
theorem safe_acquireScan (cpu : Nat) (hprepare : ∀ f w, f < S.fiberCount → R f w →
      Safe (system S) P C t (fun _ w' => R' f w') (prepareFiber S f) w) :
    Safe (system S) P C t (Found S (· = v) R') (acquireScan S cpu) v := by
  unfold acquireScan
  generalize (S.maxFibers + scanPage - 1) / scanPage = left
  generalize 0 = first
  induction left generalizing first with
  | zero => exact safe_pure rfl
  | succ left ih =>
    refine safe_bind_of (safe_fiberAcquirePage hlease _ first) ?_
    rintro (_ | f) w hw
    · have hv : w = v := hw
      rw [hv]
      exact ih (first + scanPage)
    · obtain ⟨hf, hR⟩ := hw
      refine safe_bind_of (hprepare f w hf hR) ?_
      intro _ w' hw'
      exact safe_pure ⟨hf, hw'⟩

end Scan

/-! ## A fiber in hand -/

/-- What a protocol provides for an entry with a fiber in hand. `O f w` says that view `w` holds
fiber `f`, `W o w` that it may perform the write `o`, `G f w g` that `g` is the generation it goes
by, and `freed` describes the view after a release. A release fails only where `stuck`
allows it, and under `honest` no record carries the code for a failed release. -/
structure Follows (S : Setup) (P : Protocol Op Shared ρ) (C : Cond Op Shared) (t : Nat)
    (honest stuck : Prop) (O : Nat → ρ → Prop) (W : Op → ρ → Prop) (G : Nat → ρ → Nat → Prop)
    (freed : ρ → Prop) : Prop where
  keep : ∀ o w, o.quiet = true → (o.writes = none ∨ W o w) →
    (honest → o.publishes ≠ some poolCorrupt) →
    Keeps S P C t (perform o) w
  writable : ∀ f w o, O f w → o.writes = some f → W o w
  code : ∀ f w, O f w →
    Safe (system S) P C t (fun x w' => w' = w ∧ (honest → x ≠ poolCorrupt))
      (load f .code) w
  generation : ∀ f w, f < S.fiberCount → O f w →
    Safe (system S) P C t (fun g w' => w' = w ∧ G f w g) (load f .generation) w
  release : ∀ f w, f < S.fiberCount → O f w →
    Safe (system S) P C t (fun b w' => if b then freed w' else w' = w ∧ stuck) (releaseSlot S f) w
  stuck_honest : stuck → ¬ honest
  /-- A reap that finds the wrong size writes the record once more after its release. -/
  reap : ∀ f w size, O f w →
    Safe (system S) P C t (fun b w' => w' = w ∧ (b = false → ∀ w'', W (.store f .returnSize 0) w''))
      (perform (.returnSizeIs f size)) w

namespace Follows

variable {honest stuck : Prop} {O : Nat → ρ → Prop} {W : Op → ρ → Prop}
variable {G : Nat → ρ → Nat → Prop} {freed : ρ → Prop}
variable (F : Follows S P C t honest stuck O W G freed) {f : Nat} {w : ρ}

include F

theorem load (fld : Field) : Keeps S P C t (Pool.load f fld) w :=
  F.keep _ w rfl (.inl rfl) (by simp [Op.publishes])

theorem storeOf (fld : Field) (x : fld.Val) (hfld : fld ≠ .generation ∧ fld ≠ .code)
    (hW : W (.store f fld x) w) :
    Keeps S P C t (Pool.store f fld x) w := by
  refine F.keep _ w (by simpa [Op.quiet] using hfld.1) (.inr hW) fun _ => ?_
  cases fld with
  | code => exact absurd rfl hfld.2
  | _ => simp [Op.publishes]

theorem store (fld : Field) (x : fld.Val) (hfld : fld ≠ .generation ∧ fld ≠ .code) (hO : O f w) :
    Keeps S P C t (Pool.store f fld x) w :=
  F.storeOf fld x hfld (F.writable f w _ hO rfl)

theorem storeCode (code : Int) (hcode : honest → code ≠ poolCorrupt) (hO : O f w) :
    Keeps S P C t (Pool.store f .code code) w :=
  F.keep _ w rfl (.inr (F.writable f w _ hO rfl)) fun h => by simpa [Op.publishes] using hcode h

/-- The test that precedes an arena consume only reads. -/
theorem hasOutcome (g : Nat) : Keeps S P C t (Pool.hasOutcome g) w := by
  refine safe_then (F.load .resumeRegionId) fun resume => ?_
  split
  · exact safe_pure rfl
  · refine safe_then (F.load .status) fun _ => ?_
    exact safe_pure rfl

theorem stop (code : Int) (hcode : honest → code ≠ poolCorrupt) (hO : O f w) :
    Keeps S P C t (Pool.stop f code) w := by
  refine safe_then (F.store _ _ (by simp) hO) fun _ => ?_
  exact F.storeCode _ hcode hO

theorem clearFiber (hO : O f w) : Keeps S P C t (Pool.clearFiber f) w := by
  refine safe_then (F.store _ _ (by simp) hO) fun _ => ?_
  refine safe_then (F.storeCode _ (fun _ => by decide) hO) fun _ => ?_
  refine safe_then (F.store _ _ (by simp) hO) fun _ => ?_
  refine safe_then (F.store _ _ (by simp) hO) fun _ => ?_
  refine safe_then (F.store _ _ (by simp) hO) fun _ => ?_
  exact F.store _ _ (by simp) hO

/-- A view an entry may end with: its fiber released, or still in hand because the release
failed. -/
def Rest (stuck : Prop) (O : Nat → ρ → Prop) (freed : ρ → Prop) (w : ρ) : Prop :=
  freed w ∨ stuck ∧ ∃ f, O f w

variable {w' v : ρ} {N : ClaimError → ρ → Prop}

omit F in
theorem rest_of_released {b : Bool} (hO : O f w) (h : if b then freed w' else w' = w ∧ stuck) :
    Rest stuck O freed w' := by
  cases b with
  | true => exact .inl h
  | false =>
    obtain ⟨rfl, hstuck⟩ : w' = w ∧ stuck := h
    exact .inr ⟨hstuck, f, hO⟩

/-- The code an entry reports when its release went through is the one it chose. -/
theorem code_of_released {b : Bool} {code : Int} (hcode : honest → code ≠ poolCorrupt)
    (h : if b then freed w' else w' = w ∧ stuck) :
    honest → (if b then code else poolCorrupt) ≠ poolCorrupt := by
  intro hh
  cases b with
  | true => exact hcode hh
  | false => exact absurd hh (F.stuck_honest (And.right h))

def Done (honest stuck : Prop) (O : Nat → ρ → Prop) (freed : ρ → Prop) (r : CapsuleResult)
    (w : ρ) : Prop :=
  r.continuation = noContinuation ∧ (r.status = .ok ∨ r.status = .exited) ∧
    (honest → r.code ≠ poolCorrupt) ∧ Rest stuck O freed w

theorem done_exitedWith {b : Bool} (code : Int) (hO : O f w) (hcode : honest → code ≠ poolCorrupt)
    (h : if b then freed w' else w' = w ∧ stuck) :
    Done honest stuck O freed (exitedWith (if b then code else poolCorrupt)) w' :=
  ⟨rfl, .inr rfl, F.code_of_released hcode h, rest_of_released hO h⟩

/-! ## The drive -/

theorem guestStores (hO : O f w) (ws : List GuestStore)
    (hclean : honest → ws.all GuestStore.clean = true) :
    Keeps S P C t (Pool.guestStores f ws) w := by
  induction ws with
  | nil => exact safe_pure rfl
  | cons g ws ih =>
    have htail : honest → ws.all GuestStore.clean = true := fun h =>
      (Bool.and_eq_true_iff.mp (List.all_cons ▸ hclean h)).2
    cases g with
    | outcome status code =>
      have hcode : honest → (Op.storeOutcome f status code).publishes ≠
          some poolCorrupt := fun h => by
        have hg : decide (code ≠ poolCorrupt) = true :=
          (Bool.and_eq_true_iff.mp (List.all_cons ▸ hclean h)).1
        simpa [Op.publishes] using hg
      refine safe_then (F.keep (.storeOutcome f status code) w rfl (.inr (F.writable f w _ hO rfl))
        hcode) fun _ => ?_
      exact ih htail
    | resumeRegionId id | sp address | fp address =>
      refine safe_then (F.store _ _ (by simp) hO) fun _ => ?_
      exact ih htail
    | slice offset byte =>
      refine safe_then (F.keep (.storeSlice f offset byte) w rfl (.inr (F.writable f w _ hO rfl))
        (by simp [Op.publishes])) fun _ => ?_
      exact ih htail

theorem loadBytes (g size offset : Nat) : Keeps S P C t (Pool.loadBytes g size offset) w := by
  induction size generalizing offset with
  | zero => exact safe_pure rfl
  | succ size ih =>
    refine safe_then (F.keep (.loadSlice g offset) w rfl (.inl rfl)
      (by simp [Op.publishes])) fun _ => ?_
    refine safe_then (ih (offset + 1)) fun _ => ?_
    exact safe_pure rfl

theorem copyOutput (g outputSize outputAlignment : Nat) :
    Keeps S P C t (Pool.copyOutput S g outputSize outputAlignment) w := by
  unfold Pool.copyOutput
  split
  · exact safe_pure rfl
  · refine safe_then (F.loadBytes _ _ _) fun _ => ?_
    exact safe_pure rfl

theorem storeFrame (hO : O f w) (bytes : List (Nat × UInt8)) :
    Keeps S P C t (Pool.storeFrame f bytes) w := by
  induction bytes with
  | nil => exact safe_pure rfl
  | cons b bytes ih =>
    refine safe_then (F.keep (.storeSlice f b.1 b.2) w rfl (.inr (F.writable f w _ hO rfl))
      (by simp [Op.publishes])) fun _ => ?_
    exact ih

/-! ## The ends of an entry -/

def Ends (S : Setup) (honest stuck : Prop) (O : Nat → ρ → Prop) (G : Nat → ρ → Nat → Prop)
    (freed : ρ → Prop) (r : CapsuleResult) (w : ρ) : Prop :=
  Done honest stuck O freed r w ∨
    ∃ f g, f < S.fiberCount ∧ O f w ∧ G f w g ∧ r.continuation = continuationValue f g ∧
      (r.status = .pending ∨ r.status = .yield) ∧ (honest → r.code ≠ poolCorrupt)

section InHand

variable (hf : f < S.fiberCount) (hO : O f w)

include hf hO

theorem makeContinuation :
    Safe (system S) P C t (fun k w' => w' = w ∧ ∃ g, G f w g ∧ k = continuationValue f g)
      (Pool.makeContinuation S f) w := by
  unfold Pool.makeContinuation
  rw [if_neg (by omega), Setup.fiberControl_of_lt hf]
  refine safe_bind_of (F.generation f w hf hO) ?_
  rintro g _ ⟨rfl, hG⟩
  exact safe_pure ⟨rfl, g, hG, rfl⟩

theorem fiberRelease :
    Safe (system S) P C t (fun b w' => if b then freed w' else w' = w ∧ stuck)
      (Pool.fiberRelease S f) w := by
  unfold Pool.fiberRelease
  rw [if_neg (by omega)]
  refine safe_bind_of (F.release f w hf hO) ?_
  rintro (_ | _) w' hw'
  · obtain ⟨rfl, hstuck⟩ : w' = w ∧ stuck := hw'
    refine safe_then (F.stop _ (fun h => absurd h (F.stuck_honest hstuck))
      hO) fun _ => ?_
    exact safe_pure ⟨rfl, hstuck⟩
  · exact safe_pure hw'

theorem fiberCancel :
    Safe (system S) P C t (fun b w' => if b then freed w' else w' = w ∧ stuck)
      (Pool.fiberCancel S f) w := by
  unfold Pool.fiberCancel
  rw [Setup.fiberControl_of_lt hf]
  refine safe_then (F.clearFiber hO) fun _ => ?_
  exact F.fiberRelease hf hO

theorem finishExited :
    Safe (system S) P C t (Done honest stuck O freed) (Pool.finishExited S f) w := by
  unfold Pool.finishExited
  rw [Setup.fiberControl_of_lt hf]
  refine safe_bind_of (F.code f w hO) ?_
  rintro code _ ⟨rfl, hcode⟩
  refine safe_bind_of (F.fiberCancel hf hO) ?_
  intro b w' hb
  exact safe_pure (F.done_exitedWith _ hO hcode hb)

theorem trampoline (drive : Drive) (hclean : honest → drive.clean = true) :
    Keeps S P C t (Pool.trampoline S f drive) w := by
  unfold Pool.trampoline
  rw [Setup.fiberControl_of_lt hf]
  split
  · exact F.stop _ (fun _ => by decide) hO
  · exact F.guestStores hO _ hclean

theorem callRoot (root : RootCall) (drive : Drive) (hclean : honest → drive.clean = true) :
    Keeps S P C t (Pool.callRoot S f root drive) w := by
  unfold Pool.callRoot
  rw [Setup.fiberControl_of_lt hf]
  refine safe_then (F.keep (.storeOutcome f .ok 0) w rfl (.inr (F.writable f w _ hO rfl))
    fun _ h => zero_ne_poolCorrupt (Option.some.inj h)) fun _ => ?_
  refine safe_then (F.storeFrame hO root.frame) fun _ => ?_
  refine safe_then (F.store .returnSize root.returnSize (by simp) hO) fun _ => ?_
  refine safe_then (F.store .resumeRegionId root.entryRegionId (by simp) hO) fun _ => ?_
  refine safe_then (F.store .sp root.rootFp (by simp) hO) fun _ => ?_
  refine safe_then (F.store .fp root.rootFp (by simp) hO) fun _ => ?_
  refine safe_then (F.trampoline hf hO drive hclean) fun _ => ?_
  refine safe_then (F.loadBytes f root.returnSize _) fun _ => ?_
  refine safe_then (F.load .status) fun _ => ?_
  refine safe_then (F.load .resumeRegionId) fun _ => ?_
  exact safe_pure rfl

/-- An entry that leaves its fiber suspended returns its token. -/
theorem suspended {status : CapsuleStatus} {code : Int} {r : Nat → Returned}
    (hr : ∀ k, (r k).result = ⟨code, status, k⟩) (hstatus : status = .pending ∨ status = .yield)
    (hcode : honest → code ≠ poolCorrupt) :
    Safe (system S) P C t (fun r w' => Ends S honest stuck O G freed r.result w')
      ((Pool.makeContinuation S f).bind fun k => pure (r k)) w := by
  refine safe_bind_of (F.makeContinuation hf hO) ?_
  rintro k _ ⟨rfl, g, hG, rfl⟩
  refine safe_pure (.inr ⟨f, g, hf, hO, hG, ?_⟩)
  rw [hr]
  exact ⟨rfl, hstatus, hcode⟩

theorem finishCompleted (result : CapsuleResult)
    (hcode : honest → result.code ≠ poolCorrupt) (outputSize outputAlignment : Nat) :
    Safe (system S) P C t
      (fun r w' => Done honest stuck O freed { r.result with continuation := noContinuation } w' ∧
        (r.result.status = .exited → W (.store f .returnSize 0) w'))
      (Pool.finishCompleted S result f outputSize outputAlignment) w := by
  unfold Pool.finishCompleted
  rw [Setup.fiberControl_of_lt hf]
  refine safe_bind_of (F.reap f w outputSize hO) ?_
  rintro (_ | _) w ⟨rfl, hwrong⟩
  · -- the mismatch path: cancelled, and the tail will write the record again
    refine safe_bind_of (F.fiberCancel hf hO) ?_
    intro b w' hb
    have hmismatch : honest → CapsuleError.returnMismatch ≠ poolCorrupt :=
      fun _ => by decide
    exact safe_pure ⟨⟨rfl, .inr rfl, F.code_of_released hmismatch hb, rest_of_released hO hb⟩,
      fun _ => hwrong rfl w'⟩
  · refine safe_then (F.copyOutput f outputSize outputAlignment) fun output => ?_
    refine safe_bind_of (F.fiberRelease hf hO) ?_
    rintro (_ | _) w' hb
    · obtain ⟨rfl, hstuck⟩ : w' = w ∧ stuck := hb
      exact safe_pure ⟨⟨rfl, .inr rfl, fun h => absurd h (F.stuck_honest hstuck),
        .inr ⟨hstuck, f, hO⟩⟩, fun _ => F.writable f _ _ hO rfl⟩
    · exact safe_pure ⟨⟨rfl, .inl rfl, hcode, .inl hb⟩, by simp⟩

theorem finishContinue (result : CapsuleResult)
    (hcode : honest → result.code ≠ poolCorrupt) (outputSize outputAlignment : Nat) :
    Safe (system S) P C t (fun r w' => Ends S honest stuck O G freed r.result w')
      (Pool.finishContinue S result f outputSize outputAlignment) w := by
  unfold Pool.finishContinue
  simp only [Setup.fiberControl_of_lt hf]
  refine safe_then (F.load .status) fun status => ?_
  split
  · refine safe_bind_of (F.finishExited hf hO) ?_
    rintro r w' hr
    exact safe_pure (.inl hr)
  split
  · exact F.suspended hf hO (fun _ => rfl) (.inr rfl) hcode
  refine safe_then (F.load .resumeRegionId) fun resume => ?_
  split
  · exact F.suspended hf hO (fun _ => rfl) (.inl rfl) hcode
  refine safe_bind_of (F.finishCompleted hf hO result hcode outputSize outputAlignment) ?_
  rintro r w' ⟨hdone, hlate⟩
  split
  · rename_i hexited
    refine safe_then (F.storeOf _ _ (by simp) (hlate hexited)) fun _ => ?_
    exact safe_pure (.inl hdone)
  · exact safe_pure (.inl hdone)

end InHand

section Consumed

variable {k : Nat} (hconsume : Safe (system S) P C t
  (fun r w => match r with | .error e => N e w | .ok f => f < S.fiberCount ∧ O f w)
  (consumeContinuation S k) v)

include hconsume

/-- A prepared continue is over, or goes on with its fiber in hand. -/
theorem prepareContinue :
    Safe (system S) P C t
      (fun r w => match r with
        | .inl result => (∃ e, N e w ∧ result = refusal e) ∨ Done honest stuck O freed result w
        | .inr (f, result) => f < S.fiberCount ∧ O f w ∧ result.code = 0)
      (Pool.prepareContinue S k) v := by
  refine safe_bind_of hconsume ?_
  rintro (e | f) w hw
  · exact safe_pure (.inl ⟨e, hw, rfl⟩)
  obtain ⟨hf, hO⟩ := hw
  simp only [Setup.fiberControl_of_lt hf]
  refine safe_bind_of (F.makeContinuation hf hO) ?_
  rintro token _ ⟨rfl, -⟩
  refine safe_then (F.load .status) fun status => ?_
  split
  · refine safe_bind_of (F.finishExited hf hO) ?_
    rintro r w' hr
    exact safe_pure (.inr hr)
  refine safe_then (F.load .resumeRegionId) fun resume => ?_
  split
  · refine safe_bind_of (F.fiberCancel hf hO) ?_
    intro b w' hb
    exact safe_pure (.inr (F.done_exitedWith _ hO (fun _ => by decide) hb))
  refine safe_then (F.store _ _ (by simp) hO) fun _ => ?_
  refine safe_then (F.storeCode _ (fun _ => by decide) hO) fun _ => ?_
  exact safe_pure ⟨hf, hO, rfl⟩

/-- **`capsule_continue`**: refused, or ended with a fiber it had in hand. -/
theorem capsuleContinue (outputSize outputAlignment : Nat) (drive : Drive)
    (hclean : honest → drive.clean = true) :
    Safe (system S) P C t
      (fun r w => (∃ e, N e w ∧ r.result = refusal e) ∨ Ends S honest stuck O G freed r.result w)
      (Pool.capsuleContinue S k outputSize outputAlignment drive) v := by
  refine safe_bind_of (F.prepareContinue hconsume) ?_
  rintro (result | ⟨f, result⟩) w hw
  · rcases hw with hrefused | hended
    · exact safe_pure (.inl hrefused)
    · exact safe_pure (.inr (.inl hended))
  · obtain ⟨hf, hO, hcode⟩ := hw
    refine safe_then (F.trampoline hf hO drive hclean) fun _ => ?_
    have hne : honest → result.code ≠ poolCorrupt := fun _ =>
      hcode ▸ zero_ne_poolCorrupt
    exact safe_mono (F.finishContinue hf hO result hne outputSize outputAlignment)
      (fun _ _ h => .inr h)

/-- **`capsule_reset`**: refused, or over with the fiber it had in hand. -/
theorem capsuleReset :
    Safe (system S) P C t
      (fun r w => (∃ e, N e w ∧ r.result = refusal e) ∨ Done honest stuck O freed r.result w)
      (Pool.capsuleReset S k) v := by
  refine safe_bind_of hconsume ?_
  rintro (e | f) w hw
  · exact safe_pure (.inl ⟨e, hw, rfl⟩)
  obtain ⟨hf, hO⟩ := hw
  refine safe_then (F.load .status) fun status => ?_
  split
  · refine safe_bind_of (F.finishExited hf hO) ?_
    rintro r w' hr
    exact safe_pure (.inr hr)
  refine safe_bind_of (F.fiberCancel hf hO) ?_
  rintro (_ | _) w' hb
  · exact safe_pure (.inr (F.done_exitedWith 0 hO (fun _ => zero_ne_poolCorrupt) hb))
  · exact safe_pure (.inr ⟨rfl, .inl rfl, fun _ => zero_ne_poolCorrupt, rest_of_released hO hb⟩)

end Consumed

/-- **`capsule_call`**: nothing acquired, or ended with a fiber it had in hand. -/
theorem capsuleCall {N : ρ → Prop} (cpu : Nat) (root : RootCall) (drive : Drive)
    (hclean : honest → drive.clean = true) (hv : N v)
    (hacquire : Safe (system S) P C t (Found S N O) (fiberAcquire S cpu) v) :
    Safe (system S) P C t
      (fun r w => (N w ∧ ∃ code, r.result = exitedWith code ∧ code ≠ poolCorrupt) ∨
        Ends S honest stuck O G freed r.result w)
      (Pool.capsuleCall S cpu root drive) v := by
  unfold Pool.capsuleCall
  split
  · exact safe_pure (.inl ⟨hv, _, rfl, by decide⟩)
  refine safe_bind_of hacquire ?_
  rintro (_ | f) w hw
  · exact safe_pure (.inl ⟨hw, _, rfl, by decide⟩)
  obtain ⟨hf, hO⟩ := hw
  refine safe_bind_of (F.callRoot hf hO root drive hclean) ?_
  rintro ⟨status, bytes⟩ _ rfl
  have hzero : honest → (0 : Int) ≠ poolCorrupt := fun _ => zero_ne_poolCorrupt
  cases status with
  | ok =>
    refine safe_bind_of (F.fiberRelease hf hO) ?_
    rintro (_ | _) w' hb
    · exact safe_pure (.inr (.inl (F.done_exitedWith 0 hO hzero hb)))
    · exact safe_pure (.inr (.inl ⟨rfl, .inl rfl, hzero, rest_of_released hO hb⟩))
  | exited =>
    refine safe_bind_of (F.finishExited hf hO) ?_
    rintro r w' hr
    exact safe_pure (.inr (.inl hr))
  | pending => exact safe_mono (F.suspended hf hO (fun _ => rfl) (.inl rfl) hzero) fun _ _ => .inr
  | yield => exact safe_mono (F.suspended hf hO (fun _ => rfl) (.inr rfl) hzero) fun _ _ => .inr

end Follows

/-! ## Coming by a fiber -/

/-- The fiber is in hand exactly if the answer is `true`. -/
abbrev Took (f : Nat) (b : Bool) (w : Option Nat) : Prop := if b then w = some f else w = none

/-- A check that may take the fiber, where a failed check ends with `false`. -/
theorem safe_took {P : Protocol Op Shared (Option Nat)} {f : Nat} {p : Code Bool}
    {k : Bool → Code Bool} (hp : Safe (system S) P C t (Took f) p none) (hfail : k false = pure false)
    (hk : Safe (system S) P C t (Took f) (k true) (some f)) :
    Safe (system S) P C t (Took f) (p >>= k) none := by
  refine safe_bind_of hp ?_
  rintro (_ | _) w hw
  · exact hfail ▸ safe_pure hw
  · rwa [show w = some f from hw]

/-- What a protocol provides for whole entries if its view is the fiber in hand. -/
structure Takes (S : Setup) (P : Protocol Op Shared (Option Nat)) (C : Cond Op Shared) (t : Nat)
    (W : Op → Option Nat → Prop) : Prop extends
    Follows S P C t False True (fun f w => w = some f) W (fun _ _ _ => True) (fun w => w = none) where
  lease : ∀ f, Safe (system S) P C t (Took f) (leaseFiber S f) none
  pop : Safe (system S) P C t (fun r w => w = r) (perform .freePop) none
  renew : ∀ f g, Safe (system S) P C t (fun _ w => w = some f) (store f .generation g) (some f)
  consume : ∀ f g, g ≠ 0 → Safe (system S) P C t (Took f) (consumeGeneration S f g) none
  claims : ∀ o k v, o = .claimInsert k ∨ o = .claimDelete k →
    Safe (system S) P C t (fun _ w => w = v) (perform o) v

namespace Takes

variable {P : Protocol Op Shared (Option Nat)} {W : Op → Option Nat → Prop} (T : Takes S P C t W)

include T

theorem prepareFiber (f : Nat) :
    Safe (system S) P C t (fun _ w => w = some f) (Pool.prepareFiber S f) (some f) := by
  have hclear := T.clearFiber (f := f) rfl
  unfold Pool.prepareFiber
  split
  · refine safe_then (T.load .generation) fun _ => ?_
    refine safe_then (T.renew f _) fun _ => ?_
    exact hclear
  · exact hclear

/-- A fiber acquired is owned. A popped ID outside the configured count is dropped, so nothing is
said about ownership when none is returned. -/
theorem fiberAcquire (cpu : Nat) :
    Safe (system S) P C t (Found S (fun _ => True) fun f w => w = some f) (Pool.fiberAcquire S cpu)
      none := by
  have hscan : Safe (system S) P C t (Found S (fun _ => True) fun f w => w = some f)
      (acquireScan S cpu) none :=
    safe_mono (safe_acquireScan (fun f _ => T.lease f) cpu
      (by rintro f _ _ rfl; exact T.prepareFiber f)) (by rintro (_ | f) w hw; exacts [trivial, hw])
  unfold Pool.fiberAcquire
  split
  · exact safe_pure trivial
  split
  · exact hscan
  refine safe_bind_of T.pop ?_
  rintro (_ | f) _ rfl
  · exact hscan
  simp only
  split
  · exact safe_pure trivial
  · rename_i hf
    refine safe_then (T.prepareFiber f) fun _ => ?_
    exact safe_pure ⟨by omega, rfl⟩

theorem consumeContinuation (k : Nat) :
    Safe (system S) P C t
      (fun r w => match r with | .error _ => True | .ok f => f < S.fiberCount ∧ w = some f)
      (Pool.consumeContinuation S k) none := by
  unfold Pool.consumeContinuation
  simp only
  split
  · exact safe_pure trivial
  have hf : tokenFiber k < S.fiberCount := by omega
  have hg : tokenGeneration k ≠ 0 := by omega
  refine safe_bind_of (T.claims _ k none (.inl rfl)) ?_
  rintro (_ | _ | _) _ rfl
  · refine safe_bind_of (T.consume (tokenFiber k) _ hg) ?_
    intro consumed w hw
    refine safe_then (T.claims _ k w (.inr rfl)) fun cleaned => ?_
    cases consumed with
    | false => cases cleaned <;> exact safe_pure trivial
    | true =>
      rw [show w = some (tokenFiber k) from hw]
      cases cleaned with
      | true => exact safe_pure ⟨hf, rfl⟩
      | false =>
        rw [Setup.fiberControl_of_lt hf]
        refine safe_then (T.stop _ False.elim rfl) fun _ => ?_
        exact safe_pure ⟨hf, rfl⟩
  · exact safe_pure trivial
  · exact safe_pure trivial

theorem entryCode (e : Entry) :
    Safe (system S) P C t (fun _ _ => True) (Pool.entryCode S e) none := by
  cases e with
  | call cpu root drive =>
    exact safe_mono (T.capsuleCall cpu root drive False.elim trivial
      (T.fiberAcquire cpu)) fun _ _ _ => trivial
  | «continue» k outputSize outputAlignment drive =>
    exact safe_mono (T.capsuleContinue (T.consumeContinuation k) outputSize
      outputAlignment drive False.elim) fun _ _ _ => trivial
  | reset k =>
    exact safe_mono (T.capsuleReset (T.consumeContinuation k))
      fun _ _ _ => trivial

end Takes

end BpfCapsule.Pool

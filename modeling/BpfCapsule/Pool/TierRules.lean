import BpfCapsule.Pool.Leasing

/-!
# BpfCapsule — from a tier's rules to its runs

A memory tier differs from the other in four places: how a fiber is leased, how it is released,
how a consume recognises the current token, and how often the claims map has room. `TierRules`
states what each of them has to guarantee under the lease protocol. The entry points, and with
them every interleaving of entries, follow from these rules (`TierRules.inv_of_reaches`).
-/

namespace BpfCapsule.Pool

open Interleave

/-- A fiber owned at a generation that was installed for this owner, its claim dropped. On the
fixed tier its lease carries the same generation. -/
def InHand (S : Setup) (p : Option Nat) (took : Bool) (f : Nat) (w : View) : Prop :=
  ∃ g l, 0 < g ∧ (S.tier = .fixed → ∃ e, l = some (e, g)) ∧ w = ownerView f g l none p took

variable {S : Setup} {c : PoolConfig}

/-- The word an owner sees is its generation. -/
theorem word_of_ownerView {t f g : Nat} {l : Option (Nat × Nat)} {c p : Option Nat} {took : Bool}
    {s : Shared} (hl : S.tier = .fixed → ∃ e, l = some (e, g))
    (h : view t s = ownerView f g l c p took) : word S s f = g := by
  obtain ⟨-, -, -, -, hg, hlease⟩ := view_eq_owner h
  cases htier : S.tier with
  | arena => rw [word_arena htier, hg]
  | fixed =>
    obtain ⟨e, rfl⟩ := hl htier
    obtain ⟨e', hlook, heq⟩ := Option.map_eq_some_iff.mp hlease
    obtain ⟨rfl, rfl⟩ := Prod.mk.inj heq
    exact word_fixed_some htier hlook

def acceptsReturned : Cond Op Shared
  | _, .generationIs f g, s, _ =>
    (s.controls f).generation = g → continuationValue f g ∈ s.returned
  | _, .leaseIs e f g, s, _ => s.elemValue e = g → continuationValue f g ∈ s.returned
  | _, _, _, _ => True

instance (t : Nat) (o : Op) (s s' : Shared) : Decidable (acceptsReturned t o s s') := by
  unfold acceptsReturned; split <;> infer_instance

def claimRoom (S : Setup) : Cond Op Shared
  | _, .claimInsert k, s, _ => k ∈ s.claims ∨ s.claims.length < S.fiberCount
  | _, _, _, _ => True

instance (S : Setup) (t : Nat) (o : Op) (s s' : Shared) : Decidable (claimRoom S t o s s') := by
  unfold claimRoom; split <;> infer_instance

theorem claim_of_room {t k n : Nat} {s s' : Shared} (hroom : claimRoom S t (.claimInsert k) s s') :
    exec S t (.claimInsert k) n s ≠ some (.e2big, s') := by
  intro hx
  have hroom' : k ∈ s.claims ∨ s.claims.length < S.fiberCount := hroom
  simp only [exec] at hx
  split at hx
  · cases hx
  · rename_i hk
    rw [if_pos (hroom'.resolve_left hk)] at hx
    cases hx

/-- A consume of token `k` that succeeds has installed the token's next generation. -/
def Consumed (S : Setup) (k : Nat) (took b : Bool) (w : View) : Prop :=
  if b then ∃ l, (S.tier = .fixed → ∃ e, l = some (e, nextGeneration (tokenGeneration k))) ∧
      w = ownerView (tokenFiber k) (nextGeneration (tokenGeneration k)) l (some k) (some k) true
    else w = idleView (some k) (some k) took

/-- What a tier guarantees under the lease protocol. -/
structure TierRules (S : Setup) (R : Regime) (C : Cond Op Shared) : Prop where
  acquire : ∀ t cpu took, Leases S R C t
    (Found S (· = idleView none none took) (InHand S none took))
    (fiberAcquire S cpu) (idleView none none took)
  release : ∀ t f w p took, InHand S p took f w → Leases S R C t
    (fun b w' => b = true ∧ w' = idleView none p took) (releaseSlot S f) w
  consume : ∀ t k took, tokenFiber k < S.fiberCount → Leases S R C t (Consumed S k took)
    (consumeGeneration S (tokenFiber k) (tokenGeneration k)) (idleView (some k) (some k) took)
  claim : R.room → ∀ t k n s s', C t (.claimInsert k) s s' →
    exec S t (.claimInsert k) n s ≠ some (.e2big, s')

namespace TierRules

variable {R : Regime} {C : Cond Op Shared} (T : TierRules S R C) {t : Nat}

include T

/-- The rules of a fiber in hand. -/
theorem follows (t : Nat) (p : Option Nat) (took : Bool) :
    Follows S (leasing S R) C t R.honest False (InHand S p took) (fun _ _ => True)
      (fun _ w g => w.generation = some g) (fun w => w = idleView none p took) where
  keep _ w hq _ hpub := safe_quiet w hq hpub
  writable _ _ _ _ _ := trivial
  code _ w _ := safe_loadCode w
  generation f w _ hO := by
    obtain ⟨g, l, -, -, rfl⟩ := hO
    refine safe_mono safe_loadGeneration ?_
    rintro x _ ⟨rfl, rfl⟩
    exact ⟨rfl, rfl⟩
  release f w _ hO := by
    refine safe_mono (T.release t f w p took hO) ?_
    rintro _ _ ⟨rfl, hw⟩
    exact hw
  stuck_honest := False.elim
  reap _ w _ _ :=
    safe_mono (safe_quiet w rfl (by simp [Op.publishes])) fun _ _ h => ⟨h, fun _ _ => trivial⟩

variable {took : Bool} {e : Entry} {r : Returned}

/-- A token is refused as malformed, stale or for lack of room, or accepted. -/
theorem consumeContinuation {k : Nat}
    (hvalid : R.genuine → tokenFiber k < S.fiberCount ∧ tokenGeneration k ≠ 0) :
    Leases S R C t
      (fun r w => match r with
        | .error err => w = idleView none (some k) took ∧ (R.genuine → err ≠ .invalid) ∧
            (R.room → err ≠ .mapCorrupt)
        | .ok f => f < S.fiberCount ∧ InHand S (some k) true f w)
      (Pool.consumeContinuation S k) (idleView none (some k) took) := by
  unfold Pool.consumeContinuation
  simp only
  split
  · exact safe_pure ⟨rfl, fun hgen => by have := hvalid hgen; omega, by simp⟩
  have hf : tokenFiber k < S.fiberCount := by omega
  refine safe_bind_of (safe_claimInsert fun hr n s s' hC => T.claim hr t k n s s' hC) ?_
  rintro (_ | _ | _) w hw
  · rw [show w = idleView (some k) (some k) took from hw]
    refine safe_bind_of (T.consume t k took hf) ?_
    rintro (_ | _) w hw
    · rw [show w = idleView (some k) (some k) took from hw]
      refine safe_bind_of safe_claimDelete_idle ?_
      rintro _ _ ⟨rfl, rfl⟩
      exact safe_pure ⟨rfl, by simp, by simp⟩
    · obtain ⟨l, hl, rfl⟩ := hw
      -- the word has moved past the token, so the claim can be dropped
      have hdone : ∀ s, view t s = ownerView (tokenFiber k) (nextGeneration (tokenGeneration k)) l
          (some k) (some k) true → tokenPair k ≠ (tokenFiber k, word S s (tokenFiber k)) := by
        intro s hv heq
        rw [word_of_ownerView hl hv] at heq
        exact nextGeneration_ne _ (Prod.mk.inj heq).2.symm
      refine safe_bind_of (safe_claimDelete_owner hdone) ?_
      rintro _ _ ⟨rfl, rfl⟩
      exact safe_pure ⟨hf, _, l, nextGeneration_pos _, hl, rfl⟩
  · exact safe_pure ⟨hw, by simp, by simp⟩
  · exact safe_pure ⟨hw.1, by simp, fun hr => absurd hr hw.2⟩

/-- How an entry returns: completed or exited with nothing owned and no continuation, or suspended
with the token of the fiber in hand; its claim dropped, and with an answer if it presented a
token. -/
structure Post (S : Setup) (R : Regime) (e : Entry) (r : Returned) (w : View) : Prop where
  claim : w.claim = none
  ends : (w.own = none ∧ r.result.continuation = noContinuation ∧
      (r.result.status = .ok ∨ r.result.status = .exited)) ∨
    ∃ p took f g, InHand S p took f w ∧ w.generation = some g ∧
      r.result.continuation = continuationValue f g ∧
      (r.result.status = .pending ∨ r.result.status = .yield)
  answered : ∀ k, e.token? = some k → Answered R w.took r.result
  clean : R.room → R.honest → r.result.code ≠ CapsuleError.poolCorrupt

omit T in
/-- What a fiber in hand ends as, seen from the view alone. -/
theorem post_of_ends {p : Option Nat} {w : View}
    (hends : Follows.Ends S R.honest False (InHand S p took) (fun _ w g => w.generation = some g)
      (fun w => w = idleView none p took) r.result w)
    (hans : ∀ k, e.token? = some k → took = true) : Post S R e r w := by
  rcases hends with ⟨hno, hstatus, hcode, rfl | ⟨hstuck, -⟩⟩ |
    ⟨f, g, -, ⟨g', l, hpos, hl, rfl⟩, hg, htok, hstatus, hcode⟩
  · exact ⟨rfl, .inl ⟨rfl, hno, hstatus⟩, fun k hk => .inl (hans k hk), fun _ => hcode⟩
  · exact hstuck.elim
  · exact ⟨rfl, .inr ⟨p, took, f, g, ⟨g', l, hpos, hl, rfl⟩, hg, htok, hstatus⟩,
      fun k hk => .inl (hans k hk), fun _ => hcode⟩

omit T in
theorem post_of_refused {k : Nat} {err : ClaimError}
    (hgen : R.genuine → err ≠ .invalid) (hroom : R.room → err ≠ .mapCorrupt)
    (hres : r.result = refusal err) : Post S R e r (idleView none (some k) took) where
  claim := rfl
  ends := .inl ⟨rfl, by rw [hres]; cases err <;> rfl, .inr (by rw [hres]; cases err <;> rfl)⟩
  answered _ _ := .inr ⟨err, hres, hgen, hroom⟩
  clean hr _ := by
    rw [hres]
    cases err with
    | mapCorrupt => exact absurd rfl (hroom hr)
    | invalid => decide
    | stale => decide

theorem entryCode (hclean : R.honest → e.clean = true)
    (hvalid : R.genuine → ∀ k, e.token? = some k → tokenFiber k < S.fiberCount ∧ tokenGeneration k ≠ 0) :
    Leases S R C t (Post S R e) (Pool.entryCode S e)
      (idleView none e.token? false) := by
  cases e with
  | call cpu root drive =>
    refine safe_mono ((T.follows t none false).capsuleCall (N := fun w => w = idleView none none false)
      cpu root drive hclean rfl (T.acquire t cpu false)) ?_
    rintro r w (⟨rfl, code, hres, hcode⟩ | hends)
    · exact ⟨rfl, .inl ⟨rfl, by rw [hres]; rfl, .inr (by rw [hres]; rfl)⟩, by simp [Entry.token?],
        fun _ _ => by rw [hres]; exact hcode⟩
    · exact post_of_ends hends (by simp [Entry.token?])
  | «continue» k outputSize outputAlignment drive =>
    refine safe_mono ((T.follows t (some k) true).capsuleContinue
      (T.consumeContinuation fun hgen => hvalid hgen k rfl) outputSize outputAlignment drive hclean) ?_
    rintro r w (⟨err, ⟨rfl, hgen, hroom⟩, hres⟩ | hends)
    · exact post_of_refused hgen hroom hres
    · exact post_of_ends hends (fun _ _ => rfl)
  | reset k =>
    refine safe_mono ((T.follows t (some k) true).capsuleReset
      (T.consumeContinuation fun hgen => hvalid hgen k rfl)) ?_
    rintro r w (⟨err, ⟨rfl, hgen, hroom⟩, hres⟩ | hends)
    · exact post_of_refused hgen hroom hres
    · exact post_of_ends (.inl hends) (fun _ _ => rfl)

omit T in
theorem Post.mayLeave {s : Shared} (h : Post S R e r (view t s)) : MayLeave S t r.result s := by
  rcases h.ends with ⟨hown, hno, -⟩ | ⟨p, took, f, g, ⟨g', l, hpos, hl, hv⟩, hg, htok, -⟩
  · exact .inl ⟨hno, hown⟩
  · have hw : word S s f = g' := word_of_ownerView hl hv
    have hgg : g' = g := by
      rw [hv] at hg
      exact Option.some.inj hg
    obtain ⟨hown, -⟩ := view_eq_owner hv
    exact .inr ⟨f, hown, by omega, by rw [hw, hgg]; exact htok⟩

theorem sound {A : Entry → Shared → Bool}
    (hstart : ∀ e s, A e s = true → (R.honest → e.clean = true) ∧
      (R.genuine → ∀ k, e.token? = some k → k ∈ s.returned)) :
    Sound (admitting S A) (leasing S R) C (fun v => v.own = none ∧ v.claim = none)
      (Post S R) where
  enter_ok t e s hi hidle hallow := by
    obtain ⟨hclean, htok⟩ := hstart e s hallow
    refine ⟨poolInv_enter hi hidle.2 htok, fun u hu => view_enter_of_ne hu e, ?_⟩
    have hview : view t (enter t e s) = idleView none e.token? false :=
      view_idle hidle.1 hidle.2 (Function.update_self ..) (Function.update_self ..)
    show Safe (admitting S A) (leasing S R) C t (Post S R e) (Pool.entryCode S e)
      (view t (enter t e s))
    rw [hview]
    exact safe_of_exec (show (admitting S A).exec = (system S).exec from rfl)
      (T.entryCode hclean fun hgen k hk => hi.returned_valid (htok hgen k hk))
  leave_ok t e r s hi hpost :=
    ⟨poolInv_leave hi hpost.claim hpost.mayLeave hpost.answered hpost.clean,
      fun u hu => view_leave_of_ne hu e r, Function.update_self .., hpost.claim⟩

/-- **Every interleaving keeps the pool's invariant**, and every entry in flight follows its
code. -/
theorem good_of_reaches (hR : ¬ R.honest) (h : Reaches S C c) :
    Good (system S) (leasing S R) C (fun v => v.own = none ∧ v.claim = none) (Post S R) c := by
  have hstart : ∀ e s, allow e s = true → (R.honest → e.clean = true) ∧
      (R.genuine → ∀ k, e.token? = some k → k ∈ s.returned) := fun e s hallow =>
    ⟨fun hh => absurd hh hR, fun _ k hk => by simpa [allow, hk] using hallow⟩
  exact (T.sound hstart).steps h (good_start (poolInv_init S R) fun _ => ⟨rfl, rfl⟩)

theorem inv_of_reaches (hR : ¬ R.honest) (h : Reaches S C c) : PoolInv S R c.shared :=
  (T.good_of_reaches hR h).inv

end TierRules

/-! ## Generations do not wrap -/

/-- No fiber has had `2 ^ 48` generations installed. -/
def Unwrapped (s : Shared) : Prop := ∀ f, s.bumps f < generationLimit

section

variable {A : Entry → Shared → Bool} {c' : PoolConfig}

theorem unwrapped_of_step {l : Label Entry} (hstep : (admitting S A).step c l = some c')
    (hb : Unwrapped c'.shared) : Unwrapped c.shared := by
  obtain ⟨t, e, -, -, -, rfl⟩ | ⟨t, n, e, o, k, x, s', -, -, hx, rfl⟩ | ⟨t, e, a, -, -, rfl⟩ :=
    step_cases hstep
  · exact hb
  · exact fun f => Nat.lt_of_le_of_lt ((exec_framed hx).bumps f).1 (hb f)
  · exact hb

/-- A run that ends without a wrap never wrapped, so every operation on the way may assume it. -/
theorem steps_unwrapped {C : Cond Op Shared} (h : Steps (admitting S A) C c c')
    (hb : Unwrapped c'.shared) :
    Steps (admitting S A) (fun t o s s' => C t o s s' ∧ Unwrapped s') c c' :=
  h.with_bound hb unwrapped_of_step

end

theorem reaches_unwrapped {C : Cond Op Shared} (h : Reaches S C c) (hb : Unwrapped c.shared) :
    Reaches S (fun t o s s' => C t o s s' ∧ Unwrapped s') c :=
  steps_unwrapped h hb

theorem unwrapped_of_run {A : Entry → Shared → Bool} {ls : List (Label Entry)}
    (h : (admitting S A).run ls (System.start Shared.init) = some c) (hlen : ls.length < 100) :
    Unwrapped c.shared := by
  intro f
  have hle := bumps_le_length h f
  have h0 : (System.start Shared.init : PoolConfig).shared.bumps f = 0 :=
    rfl
  unfold generationLimit
  omega

end BpfCapsule.Pool

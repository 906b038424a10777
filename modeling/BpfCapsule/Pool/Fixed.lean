import BpfCapsule.Pool.TierRules

/-!
# BpfCapsule — the fixed tier and its two windows

On the fixed tier the lease map decides who owns a fiber: a `BPF_NOEXIST` insertion leases it, a
deletion releases it, and a token is current while the lease's value is its generation. Two steps
act on something read before:

* `__bpf_capsule_fiber_acquire_chunk` computes the generation it is about to lease from a load of
  the control record that precedes the insertion. Between the two, other entries may run through
  whole leases of the fiber, and the insertion then installs a generation that was used before.
* `__bpf_capsule_consume_continuation` dereferences the element pointer a lookup returned. Between
  the two, the lease may be deleted and its element taken over by another fiber's lease.

`leaseCurrent` says that neither window was hit, and that a claim insertion found room; under it
the tier implements the lease protocol (`fixed_exclusive`). `stale_lease` is a run through the
first window.
-/

namespace BpfCapsule.Pool

open Interleave
open Function (update update_self update_of_ne update_apply)

/-- An insertion leases the generation after the one now in the record, a looked-up element still
serves the fiber it was looked up for, and the claims map has room. -/
def leaseCurrent (S : Setup) : Cond Op Shared
  | _, .leaseInsert f g, s, _ => s.leases f = none → g = nextGeneration (s.controls f).generation
  | _, .leaseIs e f _, s, _ => s.leases f = some e
  | _, .claimInsert k, s, _ => k ∈ s.claims ∨ s.claims.length < S.fiberCount
  | _, _, _, _ => True

/-- Neither window is hit; nothing is said about the claims map. -/
def leaseFresh : Cond Op Shared
  | _, .leaseInsert f g, s, _ => s.leases f = none → g = nextGeneration (s.controls f).generation
  | _, .leaseIs e f _, s, _ => s.leases f = some e
  | _, _, _, _ => True

instance (t : Nat) (o : Op) (s s' : Shared) : Decidable (leaseFresh t o s s') :=
  match o with
  | .leaseInsert .. => inferInstanceAs (Decidable (_ → _))
  | .leaseIs .. => inferInstanceAs (Decidable (_ = _))
  | .load .. | .store .. | .storeOutcome .. | .generationIs .. | .returnSizeIs .. | .loadSlice ..
  | .storeSlice .. | .leaseLookup .. | .leaseStore .. | .leaseDelete .. | .issuedInsert .. | .freePop
  | .freePush .. | .claimInsert .. | .claimDelete .. => isTrue trivial

theorem leaseCurrent_iff {S : Setup} {t : Nat} {o : Op} {s s' : Shared} :
    leaseCurrent S t o s s' ↔ leaseFresh t o s s' ∧ claimRoom S t o s s' := by
  cases o <;> simp [leaseCurrent, leaseFresh, claimRoom]

instance (S : Setup) (t : Nat) (o : Op) (s s' : Shared) : Decidable (leaseCurrent S t o s s') :=
  decidable_of_iff _ leaseCurrent_iff.symm

section Fixed

variable {S : Setup} {R : Regime} {C : Cond Op Shared} {t f : Nat} {p : Option Nat} {took : Bool}
variable (hF : S.tier = .fixed)

include hF

/-! ## One lemma per operation -/

theorem avail_fixed (s : Shared) (f : Nat) :
    avail S s f ↔ f < S.fiberCount ∧ s.leases f = none := by
  simp only [avail, hF]

/-- An owned fiber has a lease. -/
theorem leases_of_own {s : Shared} (hi : PoolInv S R s) (hown : s.own t = some f) :
    s.leases f ≠ none := fun hl =>
  hi.lease.own_unavail hown ((avail_fixed hF s f).mpr ⟨hi.own_lt hown, hl⟩)

theorem word_fixed_congr {s s' : Shared} {h : Nat} (hlease : leaseWord s' h = leaseWord s h)
    (hgen : (s'.controls h).generation = (s.controls h).generation) : word S s' h = word S s h := by
  have hword : ∀ s : Shared,
      word S s h = ((leaseWord s h).map Prod.snd).getD (s.controls h).generation := by
    intro s
    simp only [word, hF, leaseWord]
    cases s.leases h <;> rfl
  rw [hword, hword, hlease, hgen]

theorem fixed_leaseInsert {g : Nat} (hf : f < S.fiberCount)
    (hbound : ∀ {o s s'}, C t o s s' → Unwrapped s')
    (hcur : ∀ {o s s'}, C t o s s' → leaseFresh t o s s') :
    Leases S R C t
      (fun b w => if b then 0 < g ∧ ∃ e g₀, w = ownerView f g₀ (some (e, g)) none p took
        else w = idleView none p took)
      (perform (.leaseInsert f g)) (idleView none p took) := by
  refine safe_perform fun s n x s' hi hv hx hC => ?_
  obtain ⟨hown, hclaim, hp, ht⟩ := view_eq_idle hv
  have hx' := hx
  have hg := hcur hC
  simp only [exec] at hx
  split at hx
  · cases hx
    exact ⟨hi, fun _ _ => rfl, hv⟩
  · cases hx
  rename_i hlease hkey
  cases hx
  have hg' : g = nextGeneration (s.controls f).generation := hg hlease
  have hword : word S s f = (s.controls f).generation := word_fixed_none hF hlease
  have hnext : g = word S s f + 1 := by
    have hlt : s.bumps f + 1 < generationLimit := (bump_self _ f).symm ▸ hbound hC f
    rw [hg', ← hword]
    exact nextGeneration_eq (hi.word_bumps f ▸ hlt)
  -- the element taken over served no key, so no other lease changes
  have hfresh : ∀ {h e}, s.leases h = some e → e ≠ n := by
    rintro h e he rfl
    rw [hi.elem_key.mp he] at hkey
    cases hkey
  set s' := (Shared.bump { s with leases := update s.leases f (some n),
                                  elemKey := update s.elemKey n (some f),
                                  elemValue := update s.elemValue n g } f).setOwn t (some f)
    with hs'
  have hleases : s'.leases f = some n := update_self ..
  have hleases_ne : ∀ h, h ≠ f → s'.leases h = s.leases h := fun h hh =>
    update_of_ne hh _ _
  have hvalue : s'.elemValue n = g := update_self ..
  have hvalue_ne : ∀ e, e ≠ n → s'.elemValue e = s.elemValue e := fun e he =>
    update_of_ne he _ _
  have hlw : ∀ h, h ≠ f → leaseWord s' h = leaseWord s h := by
    intro h hh
    unfold leaseWord
    rw [hleases_ne h hh]
    cases hl : s.leases h with
    | none => rfl
    | some e => rw [Option.map_some, Option.map_some, hvalue_ne e (hfresh hl)]
  have hword' : word S s' = update (word S s) f (word S s f + 1) := by
    funext h
    by_cases hh : h = f
    · rw [hh, update_self, word_fixed_some hF hleases, hvalue, hnext]
    · rw [update_of_ne hh, word_fixed_congr hF (hlw h hh) rfl]
  have havail : avail S s' = update (avail S s) f False := by
    funext h
    rw [avail_fixed hF]
    by_cases hh : h = f
    · rw [hh, update_self, hleases]; simp
    · rw [update_of_ne hh, hleases_ne h hh, avail_fixed hF]
  have habs : abs S s' = { abs S s with own := update (abs S s).own t (some f),
                                        avail := update (abs S s).avail f False,
                                        word := update (abs S s).word f ((abs S s).word f + 1) } :=
    Lease.State.ext rfl rfl havail hword' rfl rfl
  obtain ⟨lease, kept⟩ := hi.moves habs
    (.acquireBump t f hown ((avail_fixed hF s f).mpr ⟨hf, hlease⟩))
  refine ⟨?_, ?_, hg' ▸ nextGeneration_pos _, n, (s.controls f).generation, ?_⟩
  · exact
      { hi with
        lease, kept
        own_lt := hi.update_own_lt fun _ heq => Option.some.inj heq ▸ hf
        word_bumps := hi.update_word_bumps hword' rfl
        elem_key := by
          intro h e
          show update s.leases f (some n) h = some e ↔ update s.elemKey n (some f) e = some h
          have hlink := hi.elem_key (f := h) (e := e)
          grind [update_apply] }
  · intro u hu
    refine view_of_ne hx' hu fun h hh => ⟨rfl, hlw h ?_⟩
    rintro rfl
    exact leases_of_own hF hi hh hlease
  · refine view_owner (update_self ..) hclaim hp ht rfl ?_
    unfold leaseWord
    rw [hleases, Option.map_some, hvalue]

/-- The owner brings its control record in line with its lease. -/
theorem fixed_storeGeneration {e g g₀ : Nat} {c : Option Nat} :
    Leases S R C t
      (fun _ w => w = ownerView f g (some (e, g)) c p took)
      (store f .generation g) (ownerView f g₀ (some (e, g)) c p took) := by
  refine safe_perform fun s n x s' hi hv hx _ => ?_
  obtain ⟨hown, hclaim, hp, ht, -, hl⟩ := view_eq_owner hv
  have hx' := hx
  simp only [exec, hF, reduceCtorEq, false_and, if_false] at hx
  cases hx
  set s' := s.setControl f ((s.controls f).set .generation g) with hs'
  have hgen : (s'.controls f).generation = g := setGeneration_self ..
  have hgen_ne : ∀ h, h ≠ f → (s'.controls h).generation = (s.controls h).generation :=
    fun h hh => setGeneration_ne s _ hh
  -- a leased fiber's word is its lease's value, which the store does not touch
  have hword : word S s' = word S s := by
    funext h
    cases hlease : s.leases h with
    | none =>
      have hh : h ≠ f := by rintro rfl; exact leases_of_own hF hi hown hlease
      rw [word_fixed_none hF hlease, word_fixed_none hF (s := s') hlease, hgen_ne h hh]
    | some e => rw [word_fixed_some hF hlease, word_fixed_some hF (s := s') hlease]; rfl
  have habs : abs S s' = abs S s := congrArg (fun w => { abs S s with word := w }) hword
  refine ⟨?_, fun u hu => view_of_owner hi hx' hown hu fun h hh => ⟨hgen_ne h hh, rfl⟩,
    view_owner hown hclaim hp ht hgen hl⟩
  exact
    { hi with
      lease := by rw [habs]; exact hi.lease
      kept := by rw [habs]; exact hi.kept
      clean := clean_of_exec hi hx' (by simp [Op.publishes])
      word_bumps := by intro h; rw [hword]; exact hi.word_bumps h }

/-- The load through a looked-up element: while the element still serves the fiber, agreement
means that the token is current. -/
theorem fixed_leaseIs {k e : Nat} (hk : tokenFiber k < S.fiberCount)
    (hcur : ∀ {o s s'}, C t o s s' → leaseFresh t o s s')
    (hgen : R.genuine ∨ ∀ {o s s'}, C t o s s' → acceptsReturned t o s s') :
    Leases S R C t
      (fun b w => if b then ∃ g₀, w = ownerView (tokenFiber k) g₀ (some (e, tokenGeneration k))
          (some k) (some k) true
        else w = idleView (some k) (some k) took)
      (perform (.leaseIs e (tokenFiber k) (tokenGeneration k)))
      (idleView (some k) (some k) took) := by
  refine safe_perform fun s n x s' hi hv hx hC => ?_
  obtain ⟨hown, hclaim, hp, ht⟩ := view_eq_idle hv
  have hx' := hx
  have hlinked : s.leases (tokenFiber k) = some e := hcur hC
  simp only [exec] at hx
  split at hx
  swap
  · cases hx
    exact ⟨hi, fun _ _ => rfl, hv⟩
  rename_i hval
  cases hx
  have hword : word S s (tokenFiber k) = tokenGeneration k :=
    (word_fixed_some hF hlinked).trans hval
  have hret : k ∈ s.returned :=
    hi.returned_of_accepted hp (hgen.imp_right fun hacc => hacc hC hval)
  refine ⟨poolInv_accept hi hk hown hclaim hret hword,
    fun u hu => view_of_ne hx' hu fun _ _ => ⟨rfl, rfl⟩, _,
    view_owner (update_self ..) hclaim hp (update_self ..) rfl ?_⟩
  show (s.leases (tokenFiber k)).map (fun e => (e, s.elemValue e)) = _
  rw [hlinked, Option.map_some, hval]

theorem fixed_leaseStore {e g g₀ : Nat} {c : Option Nat}
    (hbound : ∀ {o s s'}, C t o s s' → Unwrapped s') :
    Leases S R C t
      (fun _ w => w = ownerView f g₀ (some (e, nextGeneration g)) c p took)
      (perform (.leaseStore e f (nextGeneration g))) (ownerView f g₀ (some (e, g)) c p took) := by
  refine safe_perform fun s n x s' hi hv hx hC => ?_
  obtain ⟨hown, hclaim, hp, ht, hg₀, hl⟩ := view_eq_owner hv
  have hx' := hx
  cases hx
  obtain ⟨e', hlease, heq⟩ := Option.map_eq_some_iff.mp hl
  obtain ⟨rfl, hval⟩ := Prod.mk.inj heq
  have hword : word S s f = g := (word_fixed_some hF hlease).trans hval
  have hnext : nextGeneration g = g + 1 := by
    have hlt : s.bumps f + 1 < generationLimit := (bump_self _ f).symm ▸ hbound hC f
    exact nextGeneration_eq (hword ▸ hi.word_bumps f ▸ hlt)
  -- no other fiber is served by this element
  have hother : ∀ {h e}, h ≠ f → s.leases h = some e → e ≠ e' := by
    rintro h e hh he rfl
    exact hh (Option.some.inj ((hi.elem_key.mp he).symm.trans (hi.elem_key.mp hlease)))
  set s' := Shared.bump { s with elemValue := update s.elemValue e' (nextGeneration g) } f with hs'
  have hvalue : s'.elemValue e' = nextGeneration g := update_self ..
  have hvalue_ne : ∀ e, e ≠ e' → s'.elemValue e = s.elemValue e := fun e he =>
    update_of_ne he _ _
  have hlw : ∀ h, h ≠ f → leaseWord s' h = leaseWord s h := by
    intro h hh
    show (s.leases h).map (fun e => (e, s'.elemValue e)) = leaseWord s h
    unfold leaseWord
    cases hlh : s.leases h with
    | none => rfl
    | some e => rw [Option.map_some, Option.map_some, hvalue_ne e (hother hh hlh)]
  have hword' : word S s' = update (word S s) f (word S s f + 1) := by
    funext h
    by_cases hh : h = f
    · rw [hh, update_self, word_fixed_some hF (s := s') hlease, hvalue, hnext, hword]
    · rw [update_of_ne hh, word_fixed_congr hF (hlw h hh) rfl]
  have habs : abs S s' = { abs S s with word := update (abs S s).word f ((abs S s).word f + 1) } :=
    congrArg (fun w => { abs S s with word := w }) hword'
  obtain ⟨lease, kept⟩ := hi.moves habs (.bump t f hown)
  refine ⟨?_, ?_, view_owner hown hclaim hp ht hg₀ ?_⟩
  · exact
      { hi with
        lease, kept
        word_bumps := hi.update_word_bumps hword' rfl }
  · exact fun u hu => view_of_owner hi hx' hown hu fun h hh => ⟨rfl, hlw h hh⟩
  · show (s.leases f).map (fun e => (e, s'.elemValue e)) = _
    rw [hlease, Option.map_some, hvalue]

theorem fixed_leaseDelete {e g : Nat} :
    Leases S R C t
      (fun b w => b = true ∧ w = idleView none p took)
      (perform (.leaseDelete f)) (ownerView f g (some (e, g)) none p took) := by
  refine safe_perform fun s n x s' hi hv hx _ => ?_
  obtain ⟨hown, hclaim, hp, ht, hg, hl⟩ := view_eq_owner hv
  obtain ⟨e', hlease, heq⟩ := Option.map_eq_some_iff.mp hl
  obtain ⟨rfl, hval⟩ := Prod.mk.inj heq
  have hx' := hx
  simp only [exec, hlease] at hx
  cases hx
  set s' := Shared.setOwn { s with leases := update s.leases f none,
                                   elemKey := update s.elemKey e' none } t none with hs'
  have hleases : s'.leases f = none := update_self ..
  have hleases_ne : ∀ h, h ≠ f → s'.leases h = s.leases h := fun h hh =>
    update_of_ne hh _ _
  have hlw : ∀ h, h ≠ f → leaseWord s' h = leaseWord s h := fun h hh =>
    congrArg (Option.map fun e => (e, s.elemValue e)) (hleases_ne h hh)
  -- record and lease agree, so the word survives the lease
  have hword : word S s' = word S s := by
    funext h
    by_cases hh : h = f
    · rw [hh, word_fixed_none hF hleases, word_fixed_some hF hlease, hval]
      exact hg
    · exact word_fixed_congr hF (hlw h hh) rfl
  have hlt := hi.own_lt hown
  have havail : avail S s' = update (avail S s) f True := by
    funext h
    rw [avail_fixed hF]
    by_cases hh : h = f
    · rw [hh, update_self, hleases]; simp [hlt]
    · rw [update_of_ne hh, hleases_ne h hh, avail_fixed hF]
  have habs : abs S s' = { abs S s with own := update (abs S s).own t none,
                                        avail := update (abs S s).avail f True } :=
    Lease.State.ext rfl rfl havail hword rfl rfl
  have hclaim' : (abs S s).claim t = none := congrArg (Option.map tokenPair) hclaim
  obtain ⟨lease, kept⟩ := hi.moves habs (.release t f hown hclaim')
  refine ⟨?_, ?_, rfl, view_idle (update_self ..) hclaim hp ht⟩
  · exact
      { hi with
        lease, kept
        own_lt := hi.update_own_lt fun _ heq => by cases heq
        word_bumps := by intro h; rw [hword]; exact hi.word_bumps h
        elem_key := by
          intro h e
          show update s.leases f none h = some e ↔ update s.elemKey e' none e = some h
          have hlink := hi.elem_key (f := h) (e := e)
          have hkey := hi.elem_key.mp hlease
          grind [update_apply] }
  · exact fun u hu => view_of_owner hi hx' hown hu fun h hh => ⟨rfl, hlw h hh⟩

/-! ## The tier's rules -/

section Rules

variable (hbound : ∀ {t o s s'}, C t o s s' → Unwrapped s')
variable (hcur : ∀ {t o s s'}, C t o s s' → leaseFresh t o s s')

include hbound hcur

theorem fixed_leaseFiber (hf : f < S.fiberCount) :
    Leases S R C t
      (fun b w => if b then InHand S p took f w else w = idleView none p took)
      (leaseFiber S f) (idleView none p took) := by
  simp only [leaseFiber, hF]
  refine safe_then (safe_quiet _ rfl (by simp [Op.publishes])) fun current => ?_
  refine safe_bind_of (fixed_leaseInsert hF hf hbound hcur) ?_
  rintro (_ | _) w hw
  · exact safe_pure hw
  · obtain ⟨hpos, e, g₀, rfl⟩ := hw
    refine safe_bind_of (fixed_storeGeneration hF) ?_
    rintro _ _ rfl
    exact safe_pure ⟨_, _, hpos, fun _ => ⟨e, rfl⟩, rfl⟩

theorem fixed_fiberAcquire (cpu : Nat) :
    Leases S R C t (Found S (· = idleView none none took) (InHand S none took))
      (fiberAcquire S cpu) (idleView none none took) := by
  unfold fiberAcquire
  split
  · exact safe_pure rfl
  simp only [hF]
  refine safe_acquireScan (fun f hf => fixed_leaseFiber hF hbound hcur hf) cpu ?_
  intro f w _ hw
  simp only [prepareFiber, hF]
  exact safe_mono (safe_clearFiber f w) (by rintro _ _ rfl; exact hw)

theorem fixed_consumeGeneration {k : Nat} (hk : tokenFiber k < S.fiberCount)
    (hgen : R.genuine ∨ ∀ {t o s s'}, C t o s s' → acceptsReturned t o s s') :
    Leases S R C t (Consumed S k took)
      (consumeGeneration S (tokenFiber k) (tokenGeneration k))
      (idleView (some k) (some k) took) := by
  simp only [consumeGeneration, hF]
  refine safe_bind_of (safe_quiet _ rfl (by simp [Op.publishes])) ?_
  rintro (_ | e) _ rfl
  · exact safe_pure rfl
  refine safe_bind_of (fixed_leaseIs hF hk hcur (hgen.imp_right fun h => h)) ?_
  rintro (_ | _) w hw
  · exact safe_pure hw
  · obtain ⟨g₀, rfl⟩ := hw
    refine safe_bind_of (fixed_leaseStore hF hbound) ?_
    rintro _ _ rfl
    refine safe_bind_of (fixed_storeGeneration hF) ?_
    rintro _ _ rfl
    exact safe_pure ⟨_, fun _ => ⟨e, rfl⟩, rfl⟩

theorem fixed_tierRules
    (hroom : R.room → ∀ {t o s s'}, C t o s s' → claimRoom S t o s s')
    (hgen : R.genuine ∨ ∀ {t o s s'}, C t o s s' → acceptsReturned t o s s') :
    TierRules S R C where
  acquire _ cpu _ := fixed_fiberAcquire hF hbound hcur cpu
  release t f w p took hO := by
    obtain ⟨g, l, -, hl, rfl⟩ := hO
    obtain ⟨e, rfl⟩ := hl hF
    simp only [releaseSlot, hF]
    exact fixed_leaseDelete hF
  consume _ _ _ hk := fixed_consumeGeneration hF hbound hcur hk hgen
  claim hr _ _ _ _ _ hC := claim_of_room (hroom hr hC)

end Rules

end Fixed

/-! ## The runs -/

/-- **Exclusive ownership and single use on the fixed tier**, in every interleaving whose
insertions lease the record's next generation, whose looked-up elements still serve their fiber,
and whose claims find room: no fiber has two owners, no token is accepted twice, and a continue or
reset that was not accepted has been told that its token is stale. -/
theorem fixed_exclusive (S : Setup) (hF : S.tier = .fixed)
    (c : Config Op Resp Entry Returned Shared) (h : Reaches S (leaseCurrent S) c)
    (hb : Unwrapped c.shared) :
    (∀ t u f, c.shared.own t = some f → c.shared.own u = some f → t = u) ∧
    c.shared.accepted.Nodup ∧
    (∀ fin ∈ c.shared.log, ∀ k, fin.entry.token? = some k → fin.accepted = true ∨
      fin.returned.result = exitedWith CapsuleError.staleContinuation) := by
  have hi : PoolInv S ⟨True, True, False⟩ c.shared :=
    (fixed_tierRules hF
      (fun hC => hC.2) (fun hC => (leaseCurrent_iff.mp hC.1).1)
      (fun _ _ _ _ _ hC => (leaseCurrent_iff.mp hC.1).2) (.inl trivial)).inv_of_reaches id
      (reaches_unwrapped h hb)
  refine ⟨fun t u f => hi.lease.own_inj, hi.lease.accepted_nodup.of_map _, ?_⟩
  intro fin hfin k hk
  rcases hi.log_answered hfin hk with hacc | ⟨err, hres, hgen, hroom⟩
  · exact .inl hacc
  · cases err with
    | stale => exact .inr hres
    | mapCorrupt => exact absurd rfl (hroom trivial)
    | invalid => exact absurd rfl (hgen trivial)

/-- A call, the continue of its token to completion, and a replay of the token. -/
def replaySchedule (callOps continueOps replayOps : Nat) : List (Label Entry) :=
  .enter 0 (callOf 0 0) :: Label.acts 0 callOps ++ .leave 0 ::
  .enter 0 (continueOf 0 1 0 [.resumeRegionId 0]) :: Label.acts 0 continueOps ++ .leave 0 ::
  .enter 1 (resetOf 0 1) :: Label.acts 1 replayOps ++ [.leave 1]

theorem fixed_exclusive_replay :
    ∃ c, Reaches (oneFiber .fixed) (leaseCurrent (oneFiber .fixed)) c ∧ Unwrapped c.shared ∧
      c.shared.accepted = [continuationValue 0 1] ∧ c.shared.log.length = 3 ∧
      ∀ fin ∈ c.shared.log, ∀ k, fin.entry.token? = some k → fin.accepted = true ∨
        fin.returned.result = exitedWith CapsuleError.staleContinuation := by
  have hrun : ((system (oneFiber .fixed)).runIf (leaseCurrent (oneFiber .fixed))
      (replaySchedule 17 16 3) (System.start Shared.init)).map
      (fun c => (c.shared.accepted, c.shared.log.length))
      = some ([continuationValue 0 1], 3) := by decide
  obtain ⟨c, hc, hobs⟩ := Option.map_eq_some_iff.mp hrun
  simp only [Prod.mk.injEq] at hobs
  have hreach : Reaches (oneFiber .fixed) (leaseCurrent (oneFiber .fixed)) c := steps_of_runIf hc
  have hb : Unwrapped c.shared := unwrapped_of_run (run_of_runIf hc) (by decide)
  exact ⟨c, hreach, hb, hobs.1, hobs.2, (fixed_exclusive (oneFiber .fixed) rfl c hreach hb).2.2⟩

/-- Entry 1 has loaded the free fiber's generation when entry 0 leases the fiber, returns its
token, continues it to completion and releases it. Entry 1 then leases the fiber under the
generation of that token, and entry 0 replays it. -/
def staleLeaseSchedule : List (Label Entry) :=
  .enter 1 (callOf 0 0) :: Label.acts 1 1 ++
  .enter 0 (callOf 0 0) :: Label.acts 0 17 ++ .leave 0 ::
  .enter 0 (continueOf 0 1 0 [.resumeRegionId 0]) ::
  Label.acts 0 16 ++ .leave 0 :: Label.acts 1 2 ++
  .enter 0 (resetOf 0 1) :: Label.acts 0 3

/-- **The stale lease**: a token consumed before is accepted again, and its fiber has two
owners. -/
theorem stale_lease :
    ∃ c, Reaches (oneFiber .fixed) anyStep c ∧ Unwrapped c.shared ∧
      c.shared.own 0 = some 0 ∧ c.shared.own 1 = some 0 ∧
      c.shared.accepted = [continuationValue 0 1, continuationValue 0 1] := by
  have hrun : ((system (oneFiber .fixed)).run staleLeaseSchedule (System.start Shared.init)).map
      (fun c => (c.shared.own 0, c.shared.own 1, c.shared.accepted))
      = some (some 0, some 0, [continuationValue 0 1, continuationValue 0 1]) := by decide
  obtain ⟨c, hc, hobs⟩ := Option.map_eq_some_iff.mp hrun
  simp only [Prod.mk.injEq] at hobs
  exact ⟨c, steps_of_run hc, unwrapped_of_run hc (by decide), hobs⟩

end BpfCapsule.Pool

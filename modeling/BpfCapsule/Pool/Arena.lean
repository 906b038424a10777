import BpfCapsule.Pool.TierRules
import Mathlib.Data.List.Perm.Subperm

/-!
# BpfCapsule — the arena tier implements the lease protocol

On the arena tier a fiber is issued once through `bpf_capsule_issued_fibers` and recycled over the
free stack; the generation word is the one in the control record, bumped by whoever has taken the
fiber. A consume compares that word with the token's generation by a plain load and bumps it by a
plain store, and what keeps two consumers apart between the two is the claim on the token.
-/

namespace BpfCapsule.Pool

open Interleave
open Function (update update_self update_of_ne)

section Arena

variable {S : Setup} {R : Regime} {C : Cond Op Shared} {t f : Nat} {p : Option Nat} {took : Bool}
variable (hA : S.tier = .arena)

include hA

/-! ## One lemma per operation -/

variable {s : Shared}

/-- The word is the control record's, so it stays with the generations and their counts. -/
theorem word_bumps_arena (hi : PoolInv S R s) {s' : Shared}
    (hsame : ∀ h, (s'.controls h).generation = (s.controls h).generation ∧ s'.bumps h = s.bumps h)
    (h : Nat) : word S s' h = s'.bumps h := by
  rw [word_arena hA, (hsame h).1, (hsame h).2, ← word_arena hA]
  exact hi.word_bumps h

theorem abs_arena_acquire {issued : Nat → Bool} {free : List Nat}
    (havail : ∀ g, avail S { s with issued := issued, free := free } g ↔
      update (avail S s) f False g) :
    abs S { s with issued := issued, free := free, own := update s.own t (some f) }
      = { abs S s with own := update (abs S s).own t (some f),
                       avail := update (abs S s).avail f False } := by
  refine Lease.State.ext rfl rfl ?_ ?_ rfl rfl
  · funext g
    exact propext (havail g)
  · funext g
    show word S _ g = word S s g
    rw [word_arena hA, word_arena hA]

/-- Taking an available fiber off the issued map or the free stack. -/
theorem poolInv_arena_acquire (hi : PoolInv S R s) {issued : Nat → Bool}
    {free : List Nat} (hown : s.own t = none) (hav : avail S s f)
    (havail : ∀ g, avail S { s with issued := issued, free := free } g ↔
      update (avail S s) f False g)
    (hnodup : free.Nodup) (hfree : ∀ {g}, g ∈ free → issued g = true ∧ g < S.fiberCount) :
    PoolInv S R { s with issued := issued, free := free, own := update s.own t (some f) } := by
  obtain ⟨lease, kept⟩ := hi.moves (abs_arena_acquire hA havail) (.acquire t f hown hav)
  exact
    { hi with
      lease, kept
      own_lt := hi.update_own_lt fun _ heq => Option.some.inj heq ▸ hav.1
      word_bumps := word_bumps_arena hA hi fun _ => ⟨rfl, rfl⟩
      free_nodup := hnodup
      free_issued := hfree }

theorem arena_issuedInsert (hf : f < S.fiberCount) :
    Leases S R C t
      (fun b w => if b then ∃ g l, w = ownerView f g l none p took else w = idleView none p took)
      (perform (.issuedInsert f)) (idleView none p took) := by
  refine safe_perform fun s n x s' hi hv hx _ => ?_
  obtain ⟨hown, hclaim, hp, ht⟩ := view_eq_idle hv
  have hx' := hx
  simp only [exec] at hx
  split at hx
  · cases hx
    exact ⟨hi, fun _ _ => rfl, hv⟩
  rename_i hnew
  cases hx
  have hnew' : s.issued f = false := by simpa using hnew
  have hav : avail S s f := ⟨hf, by simp only [hA]; exact .inl hnew'⟩
  -- a fiber on the free stack was issued before, so the new one is not there
  have hnotfree : f ∉ s.free := fun h => hnew (hi.free_issued h).1
  have havail : ∀ g, avail S { s with issued := update s.issued f true, free := s.free } g ↔
      update (avail S s) f False g := by
    intro g
    by_cases hg : g = f
    · subst hg
      simp [avail, hA, hnotfree]
    · simp [avail, hA, update_of_ne hg]
  refine ⟨poolInv_arena_acquire hA hi hown hav havail hi.free_nodup ?_,
    fun u hu => view_of_ne hx' hu fun _ _ => ⟨rfl, rfl⟩, ?_⟩
  · intro g hg
    refine ⟨?_, (hi.free_issued hg).2⟩
    have hne : g ≠ f := by rintro rfl; exact hnotfree hg
    show update s.issued f true g = true
    rw [update_of_ne hne]
    exact (hi.free_issued hg).1
  · exact ⟨_, _, view_owner (update_self ..) hclaim hp ht rfl rfl⟩

theorem arena_freePop :
    Leases S R C t
      (fun r w => match r with
        | none => w = idleView none p took
        | some f => f < S.fiberCount ∧ ∃ g l, w = ownerView f g l none p took)
      (perform .freePop) (idleView none p took) := by
  refine safe_perform fun s n x s' hi hv hx _ => ?_
  obtain ⟨hown, hclaim, hp, ht⟩ := view_eq_idle hv
  have hx' := hx
  simp only [exec] at hx
  split at hx
  · cases hx
    exact ⟨hi, fun _ _ => rfl, hv⟩
  rename_i f rest hfree
  cases hx
  have hmem : f ∈ s.free := by rw [hfree]; exact List.mem_cons_self
  obtain ⟨hissued, hf⟩ := hi.free_issued hmem
  have hnodup : f ∉ rest ∧ rest.Nodup := by
    have := hi.free_nodup
    rwa [hfree, List.nodup_cons] at this
  have hav : avail S s f := ⟨hf, by simp only [hA]; exact .inr hmem⟩
  have havail : ∀ g, avail S { s with issued := s.issued, free := rest } g ↔
      update (avail S s) f False g := by
    intro g
    by_cases hg : g = f
    · subst hg
      simp [avail, hA, hissued, hnodup.1]
    · simp [avail, hA, hfree, hg]
  refine ⟨poolInv_arena_acquire hA hi hown hav havail hnodup.2 ?_,
    fun u hu => view_of_ne hx' hu fun _ _ => ⟨rfl, rfl⟩, hf, ?_⟩
  · intro g hg
    exact hi.free_issued (by rw [hfree]; exact List.mem_cons_of_mem _ hg)
  · exact ⟨_, _, view_owner (update_self ..) hclaim hp ht rfl rfl⟩

omit hA in
theorem free_length_lt (hi : PoolInv S R s) (hf : f < S.fiberCount)
    (hnot : f ∉ s.free) : s.free.length < S.fiberCount := by
  have hnodup : (f :: s.free).Nodup := List.nodup_cons.mpr ⟨hnot, hi.free_nodup⟩
  have hsub : (f :: s.free) ⊆ List.range S.fiberCount := by
    intro g hg
    rw [List.mem_range]
    rcases List.mem_cons.mp hg with rfl | hg
    · exact hf
    · exact (hi.free_issued hg).2
  have hle := (List.Nodup.subperm hnodup hsub).length_le
  rw [List.length_cons, List.length_range] at hle
  omega

theorem arena_freePush {g : Nat} {l : Option (Nat × Nat)} :
    Leases S R C t
      (fun b w => b = true ∧ w = idleView none p took)
      (perform (.freePush f)) (ownerView f g l none p took) := by
  refine safe_perform fun s n x s' hi hv hx _ => ?_
  obtain ⟨hown, hclaim, hp, ht, -, -⟩ := view_eq_owner hv
  have hx' := hx
  -- an owned fiber is issued and not on the stack
  have hnot : ¬ avail S s f := hi.lease.own_unavail hown
  have hlt := hi.own_lt hown
  have hstate : s.issued f = true ∧ f ∉ s.free := by
    have hn : ¬ (s.issued f = false ∨ f ∈ s.free) := by
      intro h
      exact hnot ⟨hlt, by simp only [hA]; exact h⟩
    exact ⟨by simpa using fun h => hn (.inl h), fun h => hn (.inr h)⟩
  simp only [exec, if_pos (free_length_lt hi hlt hstate.2)] at hx
  cases hx
  have habs : abs S { s with free := f :: s.free, own := update s.own t none } =
      { abs S s with own := update (abs S s).own t none,
                     avail := update (abs S s).avail f True } := by
    refine Lease.State.ext rfl rfl ?_ ?_ rfl rfl
    · funext h
      refine propext ?_
      show avail S { s with free := f :: s.free, own := update s.own t none } h ↔
        update (avail S s) f True h
      by_cases hh : h = f
      · subst hh
        simp [avail, hA, hlt]
      · simp [avail, hA, hh]
    · funext h
      show word S _ h = word S s h
      rw [word_arena hA, word_arena hA]
  have hclaim' : (abs S s).claim t = none := congrArg (Option.map tokenPair) hclaim
  obtain ⟨lease, kept⟩ := hi.moves habs (.release t f hown hclaim')
  refine ⟨?_, fun u hu => view_of_ne hx' hu fun _ _ => ⟨rfl, rfl⟩, rfl,
    view_idle (update_self ..) hclaim hp ht⟩
  exact
    { hi with
      lease, kept
      own_lt := hi.update_own_lt fun _ heq => by cases heq
      word_bumps := word_bumps_arena hA hi fun _ => ⟨rfl, rfl⟩
      free_nodup := List.nodup_cons.mpr ⟨hstate.2, hi.free_nodup⟩
      free_issued := by
        intro h hh
        rcases List.mem_cons.mp hh with rfl | hh
        · exact ⟨hstate.1, hlt⟩
        · exact hi.free_issued hh }

theorem arena_storeGeneration {g : Nat} {l : Option (Nat × Nat)} {c : Option Nat}
    (hbound : ∀ {o s s'}, C t o s s' → Unwrapped s') :
    Leases S R C t
      (fun _ w => w = ownerView f (nextGeneration g) l c p took)
      (store f .generation (nextGeneration g)) (ownerView f g l c p took) := by
  refine safe_perform fun s n x s' hi hv hx hC => ?_
  obtain ⟨hown, hclaim, hp, ht, hg, hl⟩ := view_eq_owner hv
  have hx' := hx
  simp only [exec, hA, and_self, if_true] at hx
  cases hx
  have hword : word S s f = g := (word_arena hA s f).trans hg
  have hbumps : s.bumps f = g := (hi.word_bumps f).symm.trans hword
  have hnext : nextGeneration g = g + 1 := by
    have hlt : s.bumps f + 1 < generationLimit := (bump_self _ f).symm ▸ hbound hC f
    exact nextGeneration_eq (hbumps ▸ hlt)
  set s' := (s.setControl f ((s.controls f).set .generation (nextGeneration g))).bump f with hs'
  have hgen : (s'.controls f).generation = nextGeneration g := setGeneration_self ..
  have hgen_ne : ∀ h, h ≠ f → (s'.controls h).generation = (s.controls h).generation :=
    fun h hh => setGeneration_ne s _ hh
  have hword' : word S s' = update (word S s) f (word S s f + 1) := by
    funext h
    rw [word_arena hA]
    by_cases hh : h = f
    · rw [hh, update_self, hgen, hnext, hword]
    · rw [update_of_ne hh, hgen_ne h hh, word_arena hA]
  have habs : abs S s' = { abs S s with word := update (abs S s).word f ((abs S s).word f + 1) } :=
    congrArg (fun w => { abs S s with word := w }) hword'
  obtain ⟨lease, kept⟩ := hi.moves habs (.bump t f hown)
  refine ⟨?_, fun u hu => view_of_owner hi hx' hown hu fun h hh => ⟨hgen_ne h hh, rfl⟩,
    view_owner hown hclaim hp ht hgen hl⟩
  exact
    { hi with
      lease, kept
      clean := clean_of_exec hi hx' (by simp [Op.publishes])
      word_bumps := hi.update_word_bumps hword' rfl }

/-- The load that compares the control record's generation with a claimed token's: if they agree,
the token is accepted. -/
theorem arena_generationIs {k : Nat} (hk : tokenFiber k < S.fiberCount)
    (hgen : R.genuine ∨ ∀ {o s s'}, C t o s s' → acceptsReturned t o s s') :
    Leases S R C t
      (fun b w => if b then ∃ l,
          w = ownerView (tokenFiber k) (tokenGeneration k) l (some k) (some k) true
        else w = idleView (some k) (some k) took)
      (perform (.generationIs (tokenFiber k) (tokenGeneration k)))
      (idleView (some k) (some k) took) := by
  refine safe_perform fun s n x s' hi hv hx hC => ?_
  obtain ⟨hown, hclaim, hp, ht⟩ := view_eq_idle hv
  have hx' := hx
  simp only [exec] at hx
  split at hx
  swap
  · cases hx
    exact ⟨hi, fun _ _ => rfl, hv⟩
  rename_i hcur
  cases hx
  have hword : word S s (tokenFiber k) = tokenGeneration k := (word_arena hA s _).trans hcur
  have hret : k ∈ s.returned :=
    hi.returned_of_accepted hp (hgen.imp_right fun hacc => hacc hC hcur)
  exact ⟨poolInv_accept hi hk hown hclaim hret hword,
    fun u hu => view_of_ne hx' hu fun _ _ => ⟨rfl, rfl⟩, _,
    view_owner (update_self ..) hclaim hp (update_self ..) hcur rfl⟩

/-! ## The tier's rules -/

section Rules

variable (hbound : ∀ {t o s s'}, C t o s s' → Unwrapped s')

include hbound

theorem arena_prepareFiber {g : Nat} {l : Option (Nat × Nat)} :
    Leases S R C t (fun _ w => InHand S p took f w) (prepareFiber S f)
      (ownerView f g l none p took) := by
  simp only [prepareFiber, hA]
  refine safe_bind_of safe_loadGeneration ?_
  rintro current _ ⟨rfl, rfl⟩
  refine safe_bind_of (arena_storeGeneration hA hbound) ?_
  rintro _ _ rfl
  refine safe_mono (safe_clearFiber f _) ?_
  rintro _ _ rfl
  exact ⟨_, l, nextGeneration_pos _, by simp [hA], rfl⟩

theorem arena_fiberAcquire (cpu : Nat) :
    Leases S R C t (Found S (· = idleView none none took) (InHand S none took))
      (fiberAcquire S cpu) (idleView none none took) := by
  have hscan : Leases S R C t (Found S (· = idleView none none took) (InHand S none took))
      (acquireScan S cpu) (idleView none none took) := by
    refine safe_acquireScan (R := fun f w => ∃ g l, w = ownerView f g l none none took) ?_ cpu ?_
    · intro f hf
      simp only [leaseFiber, hA]
      exact arena_issuedInsert hA hf
    · rintro f _ _ ⟨g, l, rfl⟩
      exact arena_prepareFiber hA hbound
  unfold fiberAcquire
  split
  · exact safe_pure rfl
  simp only [hA]
  refine safe_bind_of (arena_freePop hA) ?_
  rintro (_ | f) w hw
  · rw [show w = idleView none none took from hw]
    exact hscan
  · obtain ⟨hf, g, l, rfl⟩ := hw
    simp only
    rw [if_neg (by omega)]
    refine safe_bind_of (arena_prepareFiber hA hbound) ?_
    intro _ w hw
    exact safe_pure ⟨hf, hw⟩

theorem arena_consumeGeneration {k : Nat} (hk : tokenFiber k < S.fiberCount)
    (hgen : R.genuine ∨ ∀ {t o s s'}, C t o s s' → acceptsReturned t o s s') :
    Leases S R C t (Consumed S k took)
      (consumeGeneration S (tokenFiber k) (tokenGeneration k))
      (idleView (some k) (some k) took) := by
  have houtcome : Leases S R C t (fun _ w => w = idleView (some k) (some k) took)
      (hasOutcome (tokenFiber k)) (idleView (some k) (some k) took) := by
    refine safe_then (safe_quiet _ rfl (by simp [Op.publishes])) fun resume => ?_
    split
    · exact safe_pure rfl
    · refine safe_then (safe_quiet _ rfl (by simp [Op.publishes])) fun _ => ?_
      exact safe_pure rfl
  simp only [consumeGeneration, hA]
  refine safe_bind_of houtcome ?_
  rintro (_ | _) _ rfl
  · exact safe_pure rfl
  refine safe_bind_of (arena_generationIs hA hk (hgen.imp_right fun h => h)) ?_
  rintro (_ | _) w hw
  · exact safe_pure hw
  · obtain ⟨l, rfl⟩ := hw
    refine safe_bind_of (arena_storeGeneration hA hbound) ?_
    rintro _ _ rfl
    exact safe_pure ⟨l, by simp [hA], rfl⟩

theorem arena_tierRules
    (hroom : R.room → ∀ {t o s s'}, C t o s s' → claimRoom S t o s s')
    (hgen : R.genuine ∨ ∀ {t o s s'}, C t o s s' → acceptsReturned t o s s') :
    TierRules S R C where
  acquire _ cpu _ := arena_fiberAcquire hA hbound cpu
  release t f w p took hO := by
    obtain ⟨g, l, -, -, rfl⟩ := hO
    simp only [releaseSlot, hA]
    exact arena_freePush hA
  consume _ _ _ hk := arena_consumeGeneration hA hbound hk hgen
  claim hr _ _ _ _ _ hC := claim_of_room (hroom hr hC)

end Rules

end Arena

/-! ## The runs -/

/-- **Exclusive ownership and single use on the arena tier.** In every interleaving of any number
of calls, continues and resets, with clients replaying any returned token at any time, no fiber
has two owners, none is on the free stack twice or both free and owned, and no token is accepted
twice. -/
theorem arena_exclusive (S : Setup) (hA : S.tier = .arena)
    (c : Config Op Resp Entry Returned Shared) (h : Reaches S anyStep c) (hb : Unwrapped c.shared) :
    (∀ t u f, c.shared.own t = some f → c.shared.own u = some f → t = u) ∧
    c.shared.free.Nodup ∧
    (∀ t f, c.shared.own t = some f → f ∉ c.shared.free) ∧
    c.shared.accepted.Nodup := by
  have hi : PoolInv S ⟨False, True, False⟩ c.shared :=
    (arena_tierRules hA
      (fun hC => hC.2) False.elim (.inl trivial)).inv_of_reaches id (reaches_unwrapped h hb)
  refine ⟨fun t u f => hi.lease.own_inj, hi.free_nodup, ?_, hi.lease.accepted_nodup.of_map _⟩
  intro t f hown hfree
  refine hi.lease.own_unavail hown ⟨hi.own_lt hown, ?_⟩
  simp only [hA]
  exact .inr hfree

/-- A call whose token is continued to completion while a second call waits for the fiber, and a
replay of the token while that second call owns the fiber. -/
def arenaReplaySchedule : List (Label Entry) :=
  .enter 0 (callOf 0 0) :: Label.acts 0 18 ++ .leave 0 ::
  .enter 0 (continueOf 0 1 0 [.resumeRegionId 0]) :: Label.acts 0 15 ++ .leave 0 ::
  .enter 1 (callOf 0 0) :: Label.acts 1 5 ++ .enter 0 (resetOf 0 1) :: Label.acts 0 2

theorem arena_exclusive_replay :
    ∃ c, Reaches (oneFiber .arena) anyStep c ∧ Unwrapped c.shared ∧ c.shared.own 1 = some 0 ∧
      c.shared.claim 0 = some (continuationValue 0 1) ∧ c.shared.own 0 ≠ some 0 := by
  have hrun : ((system (oneFiber .arena)).run arenaReplaySchedule (System.start Shared.init)).map
      (fun c => (c.shared.own 1, c.shared.claim 0))
      = some (some 0, some (continuationValue 0 1)) := by decide
  obtain ⟨c, hc, hobs⟩ := Option.map_eq_some_iff.mp hrun
  simp only [Prod.mk.injEq] at hobs
  have hb : Unwrapped c.shared := unwrapped_of_run hc (by decide)
  have hex := (arena_exclusive (oneFiber .arena) rfl c (steps_of_run hc) hb).1
  refine ⟨c, steps_of_run hc, hb, hobs.1, hobs.2, fun h0 => ?_⟩
  exact absurd (hex 0 1 0 h0 hobs.1) (by decide)

end BpfCapsule.Pool

import BpfCapsule.Pool.Follow
import BpfCapsule.Lib.Lease

/-!
# BpfCapsule — the pool as a lease protocol

Both memory tiers implement the abstract lease protocol of `Lib.Lease`. `abs` reads the abstract
pool off the shared memory: on the arena tier the generation word is the control record's, and a
fiber is available when it was never issued or lies on the free stack; on the fixed tier the word
is the value of the lease element while there is one, and a fiber is available when it has none.

`PoolInv` is the invariant of the runs: the abstract invariant of `abs`, the word equals the
number of generations installed, the maps are consistent, and no fiber is lost. `View` is what an
entry relies on: its own part of the history, and the generation and lease of the fiber it owns. The lemmas here
are one per operation; the two tiers assemble them in `Pool.Arena` and `Pool.Fixed`.
-/

namespace BpfCapsule.Pool

open Interleave
open CapsuleError
open Function (update update_self update_of_ne update_apply)

/-! ## The abstract pool of a memory tier -/

def word (S : Setup) (s : Shared) (f : Nat) : Nat :=
  match S.tier with
  | .arena => (s.controls f).generation
  | .fixed =>
    match s.leases f with
    | some e => s.elemValue e
    | none => (s.controls f).generation

def avail (S : Setup) (s : Shared) (f : Nat) : Prop :=
  f < S.fiberCount ∧
    match S.tier with
    | .arena => s.issued f = false ∨ f ∈ s.free
    | .fixed => s.leases f = none

def abs (S : Setup) (s : Shared) : Lease.State Nat Nat where
  own := s.own
  claim t := (s.claim t).map tokenPair
  avail := avail S s
  word := word S s
  returned := {p | ∃ k ∈ s.returned, tokenPair k = p}
  accepted := s.accepted.map tokenPair

theorem word_arena {S : Setup} (h : S.tier = .arena) (s : Shared) (f : Nat) :
    word S s f = (s.controls f).generation := by
  simp only [word, h]

theorem word_fixed_some {S : Setup} (h : S.tier = .fixed) {s : Shared} {f e : Nat}
    (hl : s.leases f = some e) : word S s f = s.elemValue e := by
  simp only [word, h, hl]

theorem word_fixed_none {S : Setup} (h : S.tier = .fixed) {s : Shared} {f : Nat}
    (hl : s.leases f = none) : word S s f = (s.controls f).generation := by
  simp only [word, h, hl]

/-! ## The invariant -/

/-- What a run is known to respect: claim insertions never fail for lack of `room`, clients present
only `genuine` tokens, ones the pool has returned before, and generated code is `honest`, it never
exits with the pool's own code. -/
structure Regime where
  room : Prop
  genuine : Prop
  honest : Prop

/-- A finished entry that presented a token was accepted, or was refused with that token's
condition. With room in the claims map the refusal of a genuine token is `STALE`. -/
def Answered (R : Regime) (accepted : Bool) (result : CapsuleResult) : Prop :=
  accepted = true ∨ ∃ err, result = refusal err ∧ (R.genuine → err ≠ .invalid) ∧
    (R.room → err ≠ .mapCorrupt)

structure PoolInv (S : Setup) (R : Regime) (s : Shared) : Prop where
  lease : Lease.Inv (abs S s)
  kept : Lease.Kept (· < S.fiberCount) (abs S s)
  own_lt : ∀ {t f}, s.own t = some f → f < S.fiberCount
  claims_nodup : s.claims.Nodup
  claim_mem : ∀ {k}, k ∈ s.claims ↔ ∃ t, s.claim t = some k
  claim_presented : ∀ {t k}, s.claim t = some k → s.presented t = some k
  presented_returned : R.genuine → ∀ {t k}, s.presented t = some k → k ∈ s.returned
  returned_valid : ∀ {k}, k ∈ s.returned → tokenFiber k < S.fiberCount ∧ tokenGeneration k ≠ 0
  returned_nodup : s.returned.Nodup
  word_bumps : ∀ f, word S s f = s.bumps f
  free_nodup : s.free.Nodup
  free_issued : ∀ {f}, f ∈ s.free → s.issued f = true ∧ f < S.fiberCount
  elem_key : ∀ {f e}, s.leases f = some e ↔ s.elemKey e = some f
  clean : R.honest → ∀ f, (s.controls f).code ≠ poolCorrupt
  log_answered : ∀ {fin k}, fin ∈ s.log → fin.entry.token? = some k →
    Answered R fin.accepted fin.returned.result
  log_clean : R.room → R.honest → ∀ {fin}, fin ∈ s.log →
    fin.returned.result.code ≠ poolCorrupt

section

variable {S : Setup} {R : Regime} {s : Shared} (hi : PoolInv S R s)

include hi

/-- What an operation does to the abstract pool is one of its moves. -/
theorem PoolInv.moves {s' : Shared} {a : Lease.State Nat Nat} (habs : abs S s' = a)
    (hstep : Lease.Step (abs S s) a) :
    Lease.Inv (abs S s') ∧ Lease.Kept (· < S.fiberCount) (abs S s') := by
  subst habs
  exact ⟨Lease.inv_step hi.lease hstep, Lease.kept_step hi.kept hstep⟩

/-- An entry takes a fiber of the pool, or gives its own up. -/
theorem PoolInv.update_own_lt {t : Nat} {taken : Option Nat}
    (htaken : ∀ f, taken = some f → f < S.fiberCount) {u f : Nat}
    (hu : update s.own t taken u = some f) : f < S.fiberCount := by
  rw [update_apply] at hu
  split at hu
  · exact htaken f hu
  · exact hi.own_lt hu

theorem PoolInv.update_word_bumps {s' : Shared} {f : Nat}
    (hword : word S s' = update (word S s) f (word S s f + 1))
    (hbumps : s'.bumps = update s.bumps f (s.bumps f + 1)) (h : Nat) : word S s' h = s'.bumps h := by
  have hsame : word S s = s.bumps := funext hi.word_bumps
  rw [hword, hbumps, hsame]

/-- A token that is accepted has been returned, if clients present only such tokens or the run respects
it. -/
theorem PoolInv.returned_of_accepted {k t : Nat} (hp : s.presented t = some k)
    (h : R.genuine ∨ continuationValue (tokenFiber k) (tokenGeneration k) ∈ s.returned) :
    k ∈ s.returned := by
  rcases h with hgen | hmem
  · exact hi.presented_returned hgen hp
  · rwa [continuationValue_tokenPair] at hmem

end

theorem avail_init (S : Setup) {f : Nat} (hf : f < S.fiberCount) : avail S Shared.init f := by
  refine ⟨hf, ?_⟩
  split
  · exact .inl rfl
  · rfl

theorem poolInv_init (S : Setup) (R : Regime) : PoolInv S R Shared.init where
  lease :=
    { own_inj := fun h => by cases h
      own_unavail := fun h => by cases h
      claim_inj := fun h => by cases h
      returned_le := by rintro r g ⟨k, hk, -⟩; cases hk
      avail_fresh := by rintro r - ⟨k, hk, -⟩; cases hk
      own_fresh := fun h => by cases h
      accepted_nodup := List.nodup_nil
      accepted_returned := fun h => by cases h
      accepted_spent := fun h => by cases h
      own_accepted := fun h => by cases h
      past_accepted := by rintro r g ⟨k, hk, -⟩; cases hk }
  kept f hf := .inl (avail_init S hf)
  own_lt h := by cases h
  claims_nodup := List.nodup_nil
  claim_mem := by simp [Shared.init]
  claim_presented h := by cases h
  presented_returned _ _ _ h := by cases h
  returned_valid h := by cases h
  returned_nodup := List.nodup_nil
  word_bumps f := by simp only [word]; split <;> rfl
  free_nodup := List.nodup_nil
  free_issued h := by cases h
  elem_key := by simp [Shared.init]
  clean _ _ := zero_ne_poolCorrupt
  log_answered h := by cases h
  log_clean _ _ _ h := by cases h

/-! ## What an entry relies on -/

def leaseWord (s : Shared) (f : Nat) : Option (Nat × Nat) :=
  (s.leases f).map fun e => (e, s.elemValue e)

/-- An entry's own history, and the generation and lease of the fiber it owns. -/
@[ext]
structure View where
  own : Option Nat
  claim : Option Nat
  presented : Option Nat
  took : Bool
  generation : Option Nat
  lease : Option (Nat × Nat)

def view (t : Nat) (s : Shared) : View where
  own := s.own t
  claim := s.claim t
  presented := s.presented t
  took := s.took t
  generation := (s.own t).map fun f => (s.controls f).generation
  lease := (s.own t).bind (leaseWord s)

def leasing (S : Setup) (R : Regime) : Protocol Op Shared View where
  inv := PoolInv S R
  view := view
  guar _ _ := True

abbrev Leases (S : Setup) (R : Regime) (C : Cond Op Shared) (t : Nat) {α : Type} :=
  Safe (α := α) (system S) (leasing S R) C t

def idleView (claim presented : Option Nat) (took : Bool) : View :=
  ⟨none, claim, presented, took, none, none⟩

/-- Fiber `f` owned at generation `g`, with lease `l`. -/
def ownerView (f g : Nat) (l : Option (Nat × Nat)) (claim presented : Option Nat) (took : Bool) :
    View :=
  ⟨some f, claim, presented, took, some g, l⟩

section Views

variable {S : Setup} {t n : Nat} {o : Op} {s s' : Shared} {x : Resp o}

variable {c p : Option Nat} {took : Bool}

theorem view_eq_idle (h : view t s = idleView c p took) :
    s.own t = none ∧ s.claim t = c ∧ s.presented t = p ∧ s.took t = took := by
  simp only [view, idleView, View.mk.injEq] at h
  exact ⟨h.1, h.2.1, h.2.2.1, h.2.2.2.1⟩

theorem view_idle (ho : s.own t = none) (hc : s.claim t = c) (hp : s.presented t = p)
    (ht : s.took t = took) : view t s = idleView c p took := by
  simp only [view, idleView, ho, hc, hp, ht, Option.map_none, Option.bind_none]

theorem view_eq_owner {f g : Nat} {l : Option (Nat × Nat)}
    (h : view t s = ownerView f g l c p took) :
    s.own t = some f ∧ s.claim t = c ∧ s.presented t = p ∧ s.took t = took ∧
      (s.controls f).generation = g ∧ leaseWord s f = l := by
  simp only [view, ownerView, View.mk.injEq] at h
  obtain ⟨ho, hc, hp, ht, hg, hl⟩ := h
  rw [ho] at hg hl
  exact ⟨ho, hc, hp, ht, Option.some.inj hg, hl⟩

theorem view_owner {f g : Nat} {l : Option (Nat × Nat)} (ho : s.own t = some f)
    (hc : s.claim t = c) (hp : s.presented t = p) (ht : s.took t = took)
    (hg : (s.controls f).generation = g) (hl : leaseWord s f = l) :
    view t s = ownerView f g l c p took := by
  simp only [view, ownerView, ho, hc, hp, ht, hg, hl, Option.map_some, Option.bind_some]

/-- Another entry's view survives an operation that leaves its fiber's generation and lease
alone. -/
theorem view_of_ne (hx : exec S t o n s = some (x, s')) {u : Nat} (hu : u ≠ t)
    (hfiber : ∀ f, s.own u = some f →
      (s'.controls f).generation = (s.controls f).generation ∧ leaseWord s' f = leaseWord s f) :
    view u s' = view u s := by
  have ho := (exec_framed hx).own _ hu
  have hc := (exec_framed hx).claim _ hu
  have ht := (exec_framed hx).took _ hu
  have hp := congrFun ((exec_framed hx).presented) u
  cases hown : s.own u with
  | none =>
    rw [view_idle (ho.trans hown) hc hp ht]
    exact (view_idle hown rfl rfl rfl).symm
  | some f =>
    obtain ⟨hg, hl⟩ := hfiber f hown
    rw [view_owner (ho.trans hown) hc hp ht hg hl]
    exact (view_owner hown rfl rfl rfl rfl rfl).symm

theorem view_of_owner {R : Regime} {f u : Nat} (hi : PoolInv S R s)
    (hx : exec S t o n s = some (x, s')) (hown : s.own t = some f) (hu : u ≠ t)
    (hother : ∀ h, h ≠ f →
      (s'.controls h).generation = (s.controls h).generation ∧ leaseWord s' h = leaseWord s h) :
    view u s' = view u s := by
  refine view_of_ne hx hu fun h hh => hother h ?_
  rintro rfl
  exact hu (hi.lease.own_inj hh hown)

end Views

theorem setGeneration_self (s : Shared) (f g : Nat) :
    ((s.setControl f ((s.controls f).set .generation g)).controls f).generation = g := by
  show (update s.controls f _ f).generation = g
  rw [update_self]
  rfl

theorem setGeneration_ne (s : Shared) {f h : Nat} (g : Nat) (hh : h ≠ f) :
    ((s.setControl f ((s.controls f).set .generation g)).controls h).generation =
      (s.controls h).generation := by
  show (update s.controls f _ h).generation = _
  rw [update_of_ne hh]

/-! ## Operations both tiers use -/

section Common

variable {S : Setup} {R : Regime} {C : Cond Op Shared} {t : Nat}

variable {controls : Nat → FiberControl} {s : Shared} {f k : Nat} {took : Bool}

theorem abs_of_quiet (S : Setup) (s : Shared) (slices : Nat → Nat → UInt8)
    (hg : ∀ f, (controls f).generation = (s.controls f).generation) :
    abs S { s with controls := controls, slices := slices } = abs S s := by
  have hword : word S { s with controls := controls, slices := slices } = word S s := by
    funext f
    simp only [word, hg]
  exact congrArg (fun w => { abs S s with word := w }) hword

theorem poolInv_quiet (hi : PoolInv S R s) {slices : Nat → Nat → UInt8}
    (hg : ∀ f, (controls f).generation = (s.controls f).generation)
    (hclean : R.honest → ∀ f, (controls f).code ≠ poolCorrupt) :
    PoolInv S R { s with controls := controls, slices := slices } :=
  { hi with
    lease := by rw [abs_of_quiet S s slices hg]; exact hi.lease
    kept := by rw [abs_of_quiet S s slices hg]; exact hi.kept
    word_bumps := by
      intro f
      have := congrArg (fun a => Lease.State.word a f) (abs_of_quiet S s slices hg)
      exact this.trans (hi.word_bumps f)
    clean := hclean }

theorem view_quiet (s : Shared) (u : Nat) {slices : Nat → Nat → UInt8}
    (hg : ∀ f, (controls f).generation = (s.controls f).generation) :
    view u { s with controls := controls, slices := slices } = view u s := by
  simp only [view, hg]
  rfl

theorem safe_perform {o : Op} {Q : Resp o → View → Prop} {v : View}
    (h : ∀ s n x s', PoolInv S R s → view t s = v → exec S t o n s = some (x, s') →
      C t o s s' →
      PoolInv S R s' ∧ (∀ u, u ≠ t → view u s' = view u s) ∧ Q x (view t s')) :
    Leases S R C t Q (perform o) v :=
  safe_op trivial h

theorem clean_of_exec {s' : Shared} {o : Op} {n : Nat} {x : Resp o} (hi : PoolInv S R s)
    (hx : exec S t o n s = some (x, s'))
    (hpub : R.honest → o.publishes ≠ some poolCorrupt) (hh : R.honest) (f : Nat) :
    (s'.controls f).code ≠ poolCorrupt := by
  rcases exec_code hx f with hsame | hcode
  · rw [hsame]
    exact hi.clean hh f
  · intro hbad
    rw [hbad] at hcode
    exact hpub hh hcode

theorem safe_quiet {o : Op} (v : View) (ho : o.quiet = true)
    (hpub : R.honest → o.publishes ≠ some poolCorrupt) :
    Leases S R C t (fun _ w => w = v) (perform o) v := by
  refine safe_perform fun s n x s' hi hv hx _ => ?_
  have hclean := clean_of_exec hi hx hpub
  obtain ⟨controls, slices, hg, rfl⟩ := exec_quiet hx ho
  refine ⟨poolInv_quiet hi hg hclean, fun u _ => view_quiet s u hg, ?_⟩
  exact (view_quiet s t hg).trans hv

theorem safe_loadCode (v : View) :
    Leases S R C t
      (fun x w => w = v ∧ (R.honest → x ≠ poolCorrupt)) (load f .code) v := by
  refine safe_perform fun s n x s' hi hv hx _ => ?_
  cases hx
  exact ⟨hi, fun _ _ => rfl, hv, fun hh => hi.clean hh f⟩

theorem safe_loadGeneration {g : Nat} {l : Option (Nat × Nat)} {c p : Option Nat} :
    Leases S R C t (fun x w => w = ownerView f g l c p took ∧ x = g)
      (load f .generation) (ownerView f g l c p took) := by
  refine safe_perform fun s n x s' hi hv hx _ => ?_
  obtain ⟨-, -, -, -, hg, -⟩ := view_eq_owner hv
  cases hx
  exact ⟨hi, fun _ _ => rfl, hv, hg⟩

theorem safe_clearFiber (f : Nat) (w : View) :
    Leases S R C t (fun _ w' => w' = w) (clearFiber f) w := by
  refine safe_then (safe_quiet w rfl (by simp [Op.publishes])) fun _ => ?_
  refine safe_then (safe_quiet _ rfl fun _ h => zero_ne_poolCorrupt (Option.some.inj h)) fun _ => ?_
  refine safe_then (safe_quiet _ rfl (by simp [Op.publishes])) fun _ => ?_
  refine safe_then (safe_quiet _ rfl (by simp [Op.publishes])) fun _ => ?_
  refine safe_then (safe_quiet _ rfl (by simp [Op.publishes])) fun _ => ?_
  exact safe_quiet _ rfl (by simp [Op.publishes])

theorem abs_setClaim (S : Setup) (s : Shared) (t : Nat) (claims : List Nat) (c : Option Nat) :
    abs S { s with claims := claims, claim := update s.claim t c }
      = { abs S s with claim := update (abs S s).claim t (c.map tokenPair) } := by
  refine Lease.State.ext rfl ?_ rfl rfl rfl rfl
  funext u
  show (update s.claim t c u).map tokenPair = update (abs S s).claim t (c.map tokenPair) u
  by_cases hu : u = t
  · rw [hu, update_self, update_self]
  · rw [update_of_ne hu, update_of_ne hu]
    rfl

theorem poolInv_claim (hi : PoolInv S R s) (hown : s.own t = none) (hfree : s.claim t = none)
    (hp : s.presented t = some k) (hk : k ∉ s.claims) :
    PoolInv S R { s with claims := k :: s.claims, claim := update s.claim t (some k) } := by
  have hex : ∀ u, (abs S s).claim u ≠ some (tokenPair k) := by
    intro u hu
    obtain ⟨k', hk', heq⟩ := Option.map_eq_some_iff.mp hu
    obtain rfl := tokenPair_injective heq
    exact hk (hi.claim_mem.mpr ⟨u, hk'⟩)
  obtain ⟨lease, kept⟩ := hi.moves (abs_setClaim S s t (k :: s.claims) (some k))
    (.claim t (tokenPair k) hown hex)
  exact
    { hi with
      lease, kept
      claims_nodup := List.nodup_cons.mpr ⟨hk, hi.claims_nodup⟩
      claim_mem := by
        intro j
        show j ∈ k :: s.claims ↔ ∃ u, update s.claim t (some k) u = some j
        rw [List.mem_cons, hi.claim_mem]
        constructor
        · rintro (rfl | ⟨u, hu⟩)
          · exact ⟨t, update_self ..⟩
          · have hut : u ≠ t := by rintro rfl; rw [hfree] at hu; cases hu
            exact ⟨u, by rwa [update_of_ne hut]⟩
        · rintro ⟨u, hu⟩
          rw [update_apply] at hu
          split at hu
          · exact .inl (Option.some.inj hu).symm
          · exact .inr ⟨u, hu⟩
      claim_presented := by
        intro u j (hj : update s.claim t (some k) u = some j)
        rw [update_apply] at hj
        split at hj
        next hut =>
          rw [hut, ← hj]
          exact hp
        · exact hi.claim_presented hj }

theorem poolInv_unclaim (hi : PoolInv S R s) (hclaim : s.claim t = some k)
    (hdone : ∀ f, s.own t = some f → tokenPair k ≠ (f, word S s f)) :
    PoolInv S R { s with claims := s.claims.erase k, claim := update s.claim t none } := by
  have hdone' : ∀ r, (abs S s).own t = some r →
      (abs S s).claim t ≠ some (r, (abs S s).word r) := by
    intro r hr hc
    have hc' : (s.claim t).map tokenPair = some (r, word S s r) := hc
    rw [hclaim] at hc'
    exact hdone r hr (Option.some.inj hc')
  obtain ⟨lease, kept⟩ := hi.moves (abs_setClaim S s t (s.claims.erase k) none)
    (.unclaim t hdone')
  exact
    { hi with
      lease, kept
      claims_nodup := hi.claims_nodup.erase k
      claim_mem := by
        intro j
        show j ∈ s.claims.erase k ↔ ∃ u, update s.claim t none u = some j
        rw [hi.claims_nodup.mem_erase_iff, hi.claim_mem]
        constructor
        · rintro ⟨hjk, u, hu⟩
          have hut : u ≠ t := by
            rintro rfl
            exact hjk (Option.some.inj (hu.symm.trans hclaim))
          exact ⟨u, by rwa [update_of_ne hut]⟩
        · rintro ⟨u, hu⟩
          have hut : u ≠ t := by rintro rfl; rw [update_self] at hu; cases hu
          rw [update_of_ne hut] at hu
          refine ⟨?_, u, hu⟩
          rintro rfl
          exact hut (hi.lease.claim_inj (congrArg (Option.map tokenPair) hu)
            (congrArg (Option.map tokenPair) hclaim))
      claim_presented := by
        intro u j (hj : update s.claim t none u = some j)
        have hut : u ≠ t := by rintro rfl; rw [update_self] at hj; cases hj
        rw [update_of_ne hut] at hj
        exact hi.claim_presented hj }

/-- Accepting a claimed token whose generation is the fiber's current word. -/
theorem poolInv_accept (hi : PoolInv S R s) (hk : tokenFiber k < S.fiberCount)
    (hown : s.own t = none) (hclaim : s.claim t = some k) (hret : k ∈ s.returned)
    (hword : word S s (tokenFiber k) = tokenGeneration k) :
    PoolInv S R (s.accept t (tokenFiber k) (tokenGeneration k)) := by
  have hpair : tokenPair k = (tokenFiber k, word S s (tokenFiber k)) := by rw [hword]; rfl
  have hclaim' : (abs S s).claim t = some (tokenFiber k, (abs S s).word (tokenFiber k)) :=
    (congrArg (Option.map tokenPair) hclaim).trans (congrArg some hpair)
  have habs : abs S (s.accept t (tokenFiber k) (tokenGeneration k)) =
      { abs S s with own := update (abs S s).own t (some (tokenFiber k)),
                     accepted := (tokenFiber k, (abs S s).word (tokenFiber k)) ::
                       (abs S s).accepted } := by
    refine Lease.State.ext rfl rfl rfl rfl rfl ?_
    show tokenPair (continuationValue (tokenFiber k) (tokenGeneration k)) ::
      s.accepted.map tokenPair = _
    rw [continuationValue_tokenPair, hpair]
    rfl
  obtain ⟨lease, kept⟩ := hi.moves habs (.accept t _ hown hclaim' ⟨k, hret, hpair⟩)
  exact
    { hi with
      lease, kept
      own_lt := hi.update_own_lt fun _ heq => Option.some.inj heq ▸ hk }

/-- Claiming the presented token: refused while another entry holds it, or for lack of room. -/
theorem safe_claimInsert
    (hroom : R.room → ∀ n s s', C t (.claimInsert k) s s' →
      exec S t (.claimInsert k) n s ≠ some (.e2big, s')) :
    Leases S R C t
      (fun r w => match r with
        | .ok => w = idleView (some k) (some k) took
        | .eexist => w = idleView none (some k) took
        | .e2big => w = idleView none (some k) took ∧ ¬ R.room)
      (perform (.claimInsert k)) (idleView none (some k) took) := by
  refine safe_perform fun s n x s' hi hv hx hC => ?_
  obtain ⟨hown, hclaim, hp, ht⟩ := view_eq_idle hv
  have hx' := hx
  simp only [exec] at hx
  split at hx
  · cases hx
    exact ⟨hi, fun _ _ => rfl, hv⟩
  rename_i hk
  split at hx
  · cases hx
    refine ⟨poolInv_claim hi hown hclaim hp hk, fun u hu => view_of_ne hx' hu fun _ _ => ⟨rfl, rfl⟩, ?_⟩
    exact view_idle hown (update_self ..) hp ht
  · cases hx
    exact ⟨hi, fun _ _ => rfl, hv, fun h => hroom h n s s hC hx'⟩

theorem safe_claimDelete_idle {p : Option Nat} :
    Leases S R C t (fun b w => b = true ∧ w = idleView none p took)
      (perform (.claimDelete k)) (idleView (some k) p took) := by
  refine safe_perform fun s n x s' hi hv hx _ => ?_
  obtain ⟨hown, hclaim, hp, ht⟩ := view_eq_idle hv
  have hx' := hx
  simp only [exec, if_pos (hi.claim_mem.mpr ⟨t, hclaim⟩)] at hx
  cases hx
  refine ⟨poolInv_unclaim hi hclaim (by rw [hown]; simp), fun u hu =>
    view_of_ne hx' hu fun _ _ => ⟨rfl, rfl⟩, rfl, ?_⟩
  exact view_idle hown (update_self ..) hp ht

/-- Dropping the claim after an acceptance, once the next generation is installed. -/
theorem safe_claimDelete_owner {g : Nat} {l : Option (Nat × Nat)} {p : Option Nat}
    (hdone : ∀ s, view t s = ownerView f g l (some k) p took → tokenPair k ≠ (f, word S s f)) :
    Leases S R C t
      (fun b w => b = true ∧ w = ownerView f g l none p took)
      (perform (.claimDelete k)) (ownerView f g l (some k) p took) := by
  refine safe_perform fun s n x s' hi hv hx _ => ?_
  obtain ⟨hown, hclaim, hp, ht, hg, hl⟩ := view_eq_owner hv
  have hx' := hx
  simp only [exec, if_pos (hi.claim_mem.mpr ⟨t, hclaim⟩)] at hx
  cases hx
  have hdone' : ∀ f', s.own t = some f' → tokenPair k ≠ (f', word S s f') := by
    intro f' hf'
    obtain rfl : f = f' := Option.some.inj (hown.symm.trans hf')
    exact hdone s hv
  refine ⟨poolInv_unclaim hi hclaim hdone', fun u hu =>
    view_of_ne hx' hu fun _ _ => ⟨rfl, rfl⟩, rfl, ?_⟩
  exact view_owner hown (update_self ..) hp ht hg hl

end Common

/-! ## Entering and leaving -/

section Ends

variable {S : Setup} {R : Regime} {t : Nat}

variable {s : Shared}

theorem poolInv_enter (hi : PoolInv S R s) {e : Entry} (hidle : s.claim t = none)
    (htok : R.genuine → ∀ k, e.token? = some k → k ∈ s.returned) : PoolInv S R (enter t e s) :=
  { hi with
    claim_presented := by
      intro u k (hk : s.claim u = some k)
      have hut : u ≠ t := by rintro rfl; rw [hidle] at hk; cases hk
      show update s.presented t e.token? u = some k
      rw [update_of_ne hut]
      exact hi.claim_presented hk
    presented_returned := by
      intro hgen u k (hk : update s.presented t e.token? u = some k)
      rw [update_apply] at hk
      split at hk
      · exact htok hgen k hk
      · exact hi.presented_returned hgen hk }

def MayLeave (S : Setup) (t : Nat) (result : CapsuleResult) (s : Shared) : Prop :=
  (result.continuation = noContinuation ∧ s.own t = none) ∨
    ∃ f, s.own t = some f ∧ word S s f ≠ 0 ∧
      result.continuation = continuationValue f (word S s f)

/-- The log grows by an entry that was answered, and with a code of its own. -/
theorem poolInv_log (hi : PoolInv S R s) (fin : Finished)
    (hans : ∀ k, fin.entry.token? = some k → Answered R fin.accepted fin.returned.result)
    (hcode : R.room → R.honest → fin.returned.result.code ≠ poolCorrupt) :
    PoolInv S R { s with log := fin :: s.log } :=
  { hi with
    log_answered := by
      intro fin' k hfin hk
      rcases List.mem_cons.mp hfin with rfl | hfin
      · exact hans k hk
      · exact hi.log_answered hfin hk
    log_clean := by
      intro hroom hh fin' hfin
      rcases List.mem_cons.mp hfin with rfl | hfin
      · exact hcode hroom hh
      · exact hi.log_clean hroom hh hfin }

/-- The token of an owned fiber is handed out, and ownership ends with it. -/
theorem poolInv_publish (hi : PoolInv S R s) {f k : Nat} (hclaim : s.claim t = none)
    (hown : s.own t = some f) (hpos : word S s f ≠ 0) (hk : k = continuationValue f (word S s f)) :
    PoolInv S R { s with own := update s.own t none, returned := k :: s.returned } := by
  have hclaim' : (abs S s).claim t = none := congrArg (Option.map tokenPair) hclaim
  have hlt := hi.own_lt hown
  have h16 : f < 2 ^ 16 - 1 := Setup.lt_two_pow_of_lt hlt
  have hpair : tokenPair k = (f, word S s f) := by
    rw [hk, tokenPair_continuationValue _ (by omega)]
  have habs : abs S { s with own := update s.own t none, returned := k :: s.returned } =
      { abs S s with own := update (abs S s).own t none,
                     returned := insert (f, (abs S s).word f) (abs S s).returned } := by
    refine Lease.State.ext rfl rfl rfl rfl ?_ rfl
    ext p
    show (∃ j ∈ k :: s.returned, tokenPair j = p) ↔
      p = (f, word S s f) ∨ ∃ j ∈ s.returned, tokenPair j = p
    rw [eq_comm]
    simp only [List.mem_cons, exists_eq_or_imp, hpair]
  obtain ⟨lease, kept⟩ := hi.moves habs (.publish t f hown hclaim')
  -- the owner of a published current token still holds its claim
  have hfresh : k ∉ s.returned := by
    intro hmem
    have hc := hi.lease.owner_of_current ⟨k, hmem, hpair⟩ hown
    rw [hclaim'] at hc
    cases hc
  exact
    { hi with
      lease, kept
      own_lt := hi.update_own_lt fun _ heq => by cases heq
      presented_returned := fun hgen _ _ h => List.mem_cons_of_mem _ (hi.presented_returned hgen h)
      returned_valid := by
        intro j hj
        rcases List.mem_cons.mp hj with rfl | hj
        · have hfib : tokenFiber j = f := congrArg Prod.fst hpair
          have hgen : tokenGeneration j = word S s f := congrArg Prod.snd hpair
          exact ⟨hfib ▸ hlt, hgen ▸ hpos⟩
        · exact hi.returned_valid hj
      returned_nodup := List.nodup_cons.mpr ⟨hfresh, hi.returned_nodup⟩ }

theorem poolInv_leave (hi : PoolInv S R s) {e : Entry} {r : Returned} (hclaim : s.claim t = none)
    (hmay : MayLeave S t r.result s)
    (hans : ∀ k, e.token? = some k → Answered R (s.took t) r.result)
    (hcode : R.room → R.honest → r.result.code ≠ poolCorrupt) :
    PoolInv S R (leave t e r s) := by
  have hlog := poolInv_log hi ⟨e, s.took t, r⟩ hans hcode
  rcases hmay with ⟨hno, hown⟩ | ⟨f, hown, hpos, htok⟩
  · have hleave : leave t e r s = { s with log := ⟨e, s.took t, r⟩ :: s.log } := by
      have hsame : update s.own t none = s.own := by rw [← hown, Function.update_eq_self]
      simp only [leave, hno, if_true, hsame]
    rw [hleave]
    exact hlog
  · have hne : r.result.continuation ≠ noContinuation := by
      rw [htok]
      exact continuationValue_ne_noContinuation (Setup.lt_two_pow_of_lt (hi.own_lt hown))
    have hleave : leave t e r s =
        { s with own := update s.own t none, returned := r.result.continuation :: s.returned,
                 log := ⟨e, s.took t, r⟩ :: s.log } := by
      simp only [leave, if_neg hne]
    rw [hleave]
    exact poolInv_publish hlog hclaim hown hpos htok

theorem view_leave_of_ne {u : Nat} (hu : u ≠ t) (e : Entry) (r : Returned) :
    view u (leave t e r s) = view u s := by
  have ho : (leave t e r s).own u = s.own u := update_of_ne hu _ _
  simp only [view, ho]
  rfl

theorem view_enter_of_ne {u : Nat} (hu : u ≠ t) (e : Entry) : view u (enter t e s) = view u s := by
  have hp : (enter t e s).presented u = s.presented u := update_of_ne hu _ _
  have ht : (enter t e s).took u = s.took u := update_of_ne hu _ _
  simp only [view, hp, ht]
  rfl

end Ends

end BpfCapsule.Pool

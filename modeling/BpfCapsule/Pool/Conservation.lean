import BpfCapsule.Pool.Arena
import BpfCapsule.Pool.Fixed

/-!
# BpfCapsule — no fiber is lost

Every configured fiber has a place: it can be acquired, an entry in flight owns it, or it is
suspended under a token the client has not used yet. The lease protocol knows this abstractly
(`Lease.Kept` and the two facts about spent tokens); here it is read off the maps and the tokens.
On the arena tier it holds in every interleaving. On the fixed tier it holds in every interleaving
that stays out of the two windows of `Pool.Fixed`; `lost_computation` is a run through the first of
them, after which a fiber is free for the next call and suspended for the client at once.
-/

namespace BpfCapsule.Pool

open Interleave

/-! ## Where a fiber can be -/

/-- The fiber can be acquired, and by one call: the arena tier either has not issued it or has it
on the free stack once, the fixed tier has no lease for it. -/
def FreeOnce (S : Setup) (s : Shared) (f : Nat) : Prop :=
  match S.tier with
  | .arena => (s.issued f = false ∧ f ∉ s.free) ∨ (s.issued f = true ∧ s.free.count f = 1)
  | .fixed => s.leases f = none

def outstanding (s : Shared) (f : Nat) : List Nat :=
  s.returned.filter fun k => tokenFiber k = f ∧ k ∉ s.accepted

/-- The place of a fiber: free, with an entry in flight, or suspended. -/
inductive Place (S : Setup) (s : Shared) (f : Nat) : Prop where
  | free (hfree : FreeOnce S s f) (hown : ∀ t, s.own t ≠ some f) (hout : outstanding s f = [])
  | held (t : Nat) (hown : s.own t = some f) (hout : outstanding s f = [])
  | suspended (k : Nat) (hav : ¬ avail S s f) (hown : ∀ t, s.own t ≠ some f)
      (hout : outstanding s f = [k])

section Place

variable {S : Setup} {R : Regime} {s : Shared} {f k : Nat}

theorem freeOnce_of_avail (hi : PoolInv S R s) (hav : avail S s f) : FreeOnce S s f := by
  obtain ⟨-, hav⟩ := hav
  unfold FreeOnce
  split
  · rename_i htier
    simp only [htier] at hav
    by_cases hmem : f ∈ s.free
    · exact .inr ⟨(hi.free_issued hmem).1, List.count_eq_one_of_mem hi.free_nodup hmem⟩
    · exact .inl ⟨hav.resolve_right hmem, hmem⟩
  · rename_i htier
    simpa only [htier] using hav

theorem mem_abs_accepted (hmem : tokenPair k ∈ (abs S s).accepted) : k ∈ s.accepted := by
  obtain ⟨k', hk', heq⟩ := List.mem_map.mp hmem
  exact tokenPair_injective heq ▸ hk'

/-- Only a fiber's current token can be outstanding. -/
theorem current_of_outstanding (hi : PoolInv S R s) (hk : k ∈ outstanding s f) :
    k ∈ s.returned ∧ tokenPair k = (f, word S s f) ∧ k ∉ s.accepted := by
  obtain ⟨hret, hcond⟩ := List.mem_filter.mp hk
  obtain ⟨hfib, hacc⟩ := of_decide_eq_true hcond
  have hpair : tokenPair k = (f, tokenGeneration k) := by rw [← hfib]; rfl
  refine ⟨hret, ?_, hacc⟩
  by_contra hne
  have hg : tokenGeneration k ≠ word S s f := fun h => hne (by rw [hpair, h])
  have hpast := hi.lease.past_accepted ⟨k, hret, hpair⟩ hg
  exact hacc (mem_abs_accepted (hpair ▸ hpast))

theorem outstanding_eq_nil (hi : PoolInv S R s)
    (h : (f, word S s f) ∈ (abs S s).returned → (f, word S s f) ∈ (abs S s).accepted) :
    outstanding s f = [] := by
  refine List.eq_nil_iff_forall_not_mem.mpr fun k hk => ?_
  obtain ⟨hret, hpair, hacc⟩ := current_of_outstanding hi hk
  exact hacc (mem_abs_accepted (hpair ▸ h ⟨k, hret, hpair⟩))

/-- A returned current token that nobody owns the fiber of is the only one outstanding. -/
theorem outstanding_eq_singleton (hi : PoolInv S R s) (hown : ∀ t, s.own t ≠ some f)
    (hret : k ∈ s.returned) (hpair : tokenPair k = (f, word S s f)) : outstanding s f = [k] := by
  have hacc : k ∉ s.accepted := by
    intro hacc
    have hspent : (f, word S s f) ∈ (abs S s).accepted := hpair ▸ List.mem_map_of_mem hacc
    obtain ⟨t, ht, -⟩ := hi.lease.accepted_spent hspent
    exact hown t ht
  have hmem : k ∈ outstanding s f :=
    List.mem_filter.mpr ⟨hret, decide_eq_true ⟨congrArg Prod.fst hpair, hacc⟩⟩
  have honly : ∀ j ∈ outstanding s f, j = k := fun j hj =>
    tokenPair_injective ((current_of_outstanding hi hj).2.1.trans hpair.symm)
  have hnodup : (outstanding s f).Nodup := hi.returned_nodup.filter _
  rcases hl : outstanding s f with _ | ⟨j, tail⟩
  · rw [hl] at hmem
    cases hmem
  · rw [hl] at honly hnodup
    obtain rfl := honly j List.mem_cons_self
    have htail : tail = [] := by
      refine List.eq_nil_iff_forall_not_mem.mpr fun i htl => ?_
      have hij : i = j := honly i (List.mem_cons_of_mem _ htl)
      exact (List.nodup_cons.mp hnodup).1 (hij ▸ htl)
    rw [htail]

/-- **Every fiber of the pool has a place.** -/
theorem place_of_poolInv (hi : PoolInv S R s) (hf : f < S.fiberCount) : Place S s f := by
  by_cases hav : avail S s f
  · have hown : ∀ t, s.own t ≠ some f := fun t ht => hi.lease.own_unavail ht hav
    exact .free (freeOnce_of_avail hi hav) hown
      (outstanding_eq_nil hi fun hret => absurd hret (hi.lease.avail_fresh hav))
  by_cases hex : ∃ t, s.own t = some f
  · obtain ⟨t, ht⟩ := hex
    exact .held t ht (outstanding_eq_nil hi (hi.lease.own_accepted ht))
  · have hown : ∀ t, s.own t ≠ some f := fun t ht => hex ⟨t, ht⟩
    rcases hi.kept f hf with hav' | hown' | ⟨k, hret, hpair⟩
    · exact absurd hav' hav
    · exact absurd hown' hex
    · exact .suspended k hav hown (outstanding_eq_singleton hi hown hret hpair)

end Place

/-! ## The runs -/

/-- On the fixed tier neither window is hit; on the arena tier nothing is asked. -/
def tierFresh (S : Setup) : Cond Op Shared := fun t o s s' =>
  S.tier = .fixed → leaseFresh t o s s'

instance (S : Setup) (t : Nat) (o : Op) (s s' : Shared) : Decidable (tierFresh S t o s s') := by
  unfold tierFresh; infer_instance

theorem tierRules_of_fresh {S : Setup} {R : Regime} {C : Cond Op Shared}
    (hbound : ∀ {t o s s'}, C t o s s' → Unwrapped s')
    (hfresh : ∀ {t o s s'}, C t o s s' → tierFresh S t o s s')
    (hroom : R.room → ∀ {t o s s'}, C t o s s' → claimRoom S t o s s')
    (hgen : R.genuine ∨ ∀ {t o s s'}, C t o s s' → acceptsReturned t o s s') :
    TierRules S R C := by
  cases htier : S.tier with
  | arena => exact arena_tierRules htier hbound hroom hgen
  | fixed => exact fixed_tierRules htier hbound (fun hC => hfresh hC htier) hroom hgen

/-- **Fiber conservation.** In every interleaving that hits no window of the fixed tier, for any
number of fibers and any guest: whenever no entry is in flight, each configured fiber is free and
acquirable once with none of its tokens unused, or not acquirable with exactly one unused token.
An entry that returns `OK` or `EXITED` has given its fiber back and returns no token; one that
returns `PENDING` or `YIELD` still owns its fiber and returns its current token. At no time is a
fiber without a place. -/
theorem fiber_conservation (S : Setup) (c : Config Op Resp Entry Returned Shared)
    (h : Reaches S (tierFresh S) c) (hb : Unwrapped c.shared) :
    ((∀ t, c.running t = none) → ∀ f, f < S.fiberCount →
      (FreeOnce S c.shared f ∧ outstanding c.shared f = []) ∨
      (¬ avail S c.shared f ∧ ∃ k, outstanding c.shared f = [k])) ∧
    (∀ t e r, c.running t = some (e, .ret r) →
      ((r.result.status = .ok ∨ r.result.status = .exited) ∧ c.shared.own t = none ∧
        r.result.continuation = noContinuation) ∨
      ((r.result.status = .pending ∨ r.result.status = .yield) ∧
        ∃ f, c.shared.own t = some f ∧ ¬ avail S c.shared f ∧
          r.result.continuation = continuationValue f (word S c.shared f))) ∧
    (∀ f, f < S.fiberCount → Place S c.shared f) := by
  have hgood := (tierRules_of_fresh (R := ⟨False, True, False⟩) (fun hC => hC.2) (fun hC => hC.1)
    False.elim (.inl trivial)).good_of_reaches id (reaches_unwrapped h hb)
  have hi : PoolInv S ⟨False, True, False⟩ c.shared := hgood.inv
  refine ⟨?_, ?_, fun f hf => place_of_poolInv hi hf⟩
  · intro hquiet f hf
    have hown : ∀ t, c.shared.own t = none := fun t => (hgood.idle t (hquiet t)).1
    cases place_of_poolInv hi hf with
    | free hfree _ hout => exact .inl ⟨hfree, hout⟩
    | held t ht _ => rw [hown t] at ht; cases ht
    | suspended k hav _ hout => exact .inr ⟨hav, k, hout⟩
  · intro t e r hr
    have hpost : TierRules.Post S ⟨False, True, False⟩ e r (view t c.shared) := hgood.safe t e _ hr
    have hmay := hpost.mayLeave
    rcases hpost.ends with ⟨hown, hno, hstatus⟩ | ⟨_, _, f, g, ⟨_, _, _, _, hv⟩, _, htok, hstatus⟩
    · exact .inl ⟨hstatus, hown, hno⟩
    · have hown : c.shared.own t = some f := (view_eq_owner hv).1
      rcases hmay with ⟨-, hnone⟩ | ⟨f', hown', -, hcont⟩
      · rw [hown] at hnone
        cases hnone
      · exact .inr ⟨hstatus, f', hown', hi.lease.own_unavail hown', hcont⟩

/-- A call that stays pending, one that exits with code 7, and a continue of the first token that
yields. -/
def placesSchedule : List (Label Entry) :=
  .enter 0 (callOf 0 0) :: Label.acts 0 18 ++ .leave 0 ::
  .enter 0 (.call 0 ⟨[], 0, 0x100, 2048, 16⟩ ⟨true, [.outcome .exited 7]⟩) ::
  Label.acts 0 27 ++ .leave 0 ::
  .enter 0 (continueOf 0 1 0 [.outcome .yield 0]) :: Label.acts 0 13 ++ [.leave 0]

theorem fiber_conservation_places :
    ∃ c, Reaches (twoFibers .arena) (tierFresh (twoFibers .arena)) c ∧ Unwrapped c.shared ∧
      (∀ t, c.running t = none) ∧
      c.shared.log.map (fun fin => fin.returned.result.status) = [.yield, .exited, .pending] ∧
      (∃ k, outstanding c.shared 0 = [k]) ∧ FreeOnce (twoFibers .arena) c.shared 1 := by
  have hrun : ((system (twoFibers .arena)).runIf (tierFresh (twoFibers .arena)) placesSchedule
      (System.start Shared.init)).map (fun c => ((c.running 0).isNone,
        c.shared.log.map (fun fin => fin.returned.result.status), outstanding c.shared 0,
        outstanding c.shared 1))
      = some (true, [.yield, .exited, .pending], [continuationValue 0 2], []) := by decide
  obtain ⟨c, hc, hobs⟩ := Option.map_eq_some_iff.mp hrun
  simp only [Prod.mk.injEq, Option.isNone_iff_eq_none] at hobs
  obtain ⟨hidle, hlog, hout0, hout1⟩ := hobs
  have hreach : Reaches (twoFibers .arena) (tierFresh (twoFibers .arena)) c := steps_of_runIf hc
  have hb : Unwrapped c.shared := unwrapped_of_run (run_of_runIf hc) (by decide)
  have hquiet : ∀ t, c.running t = none := by
    intro t
    by_cases ht : t = 0
    · rw [ht]; exact hidle
    · refine running_of_run (run_of_runIf hc) rfl fun u e hu => ?_
      simp [placesSchedule, Label.acts] at hu
      omega
  have hplaces := (fiber_conservation (twoFibers .arena) c hreach hb).1 hquiet
  refine ⟨c, hreach, hb, hquiet, hlog, ?_, ?_⟩
  · rcases hplaces 0 (by decide) with ⟨-, hout⟩ | ⟨-, hout⟩
    · rw [hout0] at hout; cases hout
    · exact hout
  · rcases hplaces 1 (by decide) with ⟨hfree, -⟩ | ⟨-, k, hout⟩
    · exact hfree
    · rw [hout1] at hout; cases hout

/-- After the replayed token has been accepted a second time, its reset cancels the computation of
the entry that leased the fiber under the stale generation; that entry then returns `PENDING`. -/
def lostComputationSchedule : List (Label Entry) :=
  staleLeaseSchedule ++ Label.acts 0 11 ++ .leave 0 :: Label.acts 1 14 ++ [.leave 1]

/-- **A lost computation**: with no entry in flight, the fiber has no lease, so any call can
acquire it, and the client still holds the unused token of a computation reported `PENDING`. -/
theorem lost_computation :
    ∃ c, Reaches (oneFiber .fixed) anyStep c ∧ Unwrapped c.shared ∧
      (∀ t, c.running t = none) ∧ FreeOnce (oneFiber .fixed) c.shared 0 ∧
      outstanding c.shared 0 = [continuationValue 0 2] ∧
      c.shared.log.map (fun fin => fin.returned.result.status) = [.pending, .ok, .ok, .pending] := by
  have hrun : ((system (oneFiber .fixed)).run lostComputationSchedule
      (System.start Shared.init)).map (fun c => ((c.running 0).isNone, (c.running 1).isNone,
        c.shared.leases 0, outstanding c.shared 0,
        c.shared.log.map (fun fin => fin.returned.result.status)))
      = some (true, true, none, [continuationValue 0 2], [.pending, .ok, .ok, .pending]) := by
    decide
  obtain ⟨c, hc, hobs⟩ := Option.map_eq_some_iff.mp hrun
  simp only [Prod.mk.injEq, Option.isNone_iff_eq_none] at hobs
  obtain ⟨hidle0, hidle1, hlease, hout, hlog⟩ := hobs
  refine ⟨c, steps_of_run hc, unwrapped_of_run hc (by decide), ?_, hlease, hout, hlog⟩
  intro t
  by_cases ht : t = 0 ∨ t = 1
  · rcases ht with rfl | rfl
    · exact hidle0
    · exact hidle1
  · refine running_of_run hc rfl fun u e hu => ?_
    simp [lostComputationSchedule, staleLeaseSchedule, Label.acts] at hu
    omega

end BpfCapsule.Pool

import BpfCapsule.Pool.Corruption
import Mathlib.Algebra.BigOperators.Ring.Finset
import Mathlib.Algebra.Group.Action.Defs

/-!
# BpfCapsule — tokens that clients make up, and tokens of the past

Clients of `openPool` may present any number as a token. As long as none that was not handed out is
found current, the pool is as safe as with honest clients. The word of a fiber counts the
generations installed in it and never goes back, so a token it has moved past stays refused.
Counting the places of the fibers gives an equation between what is free, held and handed out.
-/

namespace BpfCapsule.Pool

open Interleave
open scoped List

variable {S : Setup} {c c' : PoolConfig}

/-- A call stays pending; a made-up token is refused, and the call's own one is reset. -/
def resetSchedule : List (Label Entry) :=
  acceptedPrefix ++ .enter 0 (resetOf 0 1) :: acceptedRest

theorem run_resetSchedule : ∃ c, Unwrapped c.shared ∧
    (openPool (oneFiber .arena)).runIf (poolSound (oneFiber .arena)) resetSchedule
      (System.start Shared.init) = some c ∧
    c.shared.returned = [continuationValue 0 1] ∧ c.shared.accepted = [continuationValue 0 1] := by
  have hrun : ((openPool (oneFiber .arena)).runIf (poolSound (oneFiber .arena)) resetSchedule
      (System.start Shared.init)).map (fun c => (c.shared.returned, c.shared.accepted))
      = some ([continuationValue 0 1], [continuationValue 0 1]) := by decide
  obtain ⟨c, hc, hobs⟩ := Option.map_eq_some_iff.mp hrun
  exact ⟨c, unwrapped_of_run (run_of_runIf hc) (by decide), hc, Prod.mk.inj hobs⟩

/-- **Refused tokens do no harm.** Clients may present any tokens whatsoever. As long as no made-up one
is found current, no fiber has two owners, no token is accepted twice, and every fiber is free, held
by one entry or suspended under one token. -/
theorem open_pool_exclusive (S : Setup) (c : Config Op Resp Entry Returned Shared)
    (h : Steps (openPool S) (poolSound S) (System.start Shared.init) c) (hb : Unwrapped c.shared) :
    (∀ t u f, c.shared.own t = some f → c.shared.own u = some f → t = u) ∧
    c.shared.accepted.Nodup ∧ ∀ f < S.fiberCount, Place S c.shared f := by
  have hi := ((inOrder_start S).steps h hb).1.lease.inv
  exact ⟨fun t u f => hi.lease.own_inj, hi.lease.accepted_nodup.of_map _,
    fun f hf => place_of_poolInv hi hf⟩

theorem open_pool_exclusive_reset :
    ∃ c : Config Op Resp Entry Returned Shared, c.shared.accepted = [continuationValue 0 1] ∧
      Place (oneFiber .arena) c.shared 0 := by
  obtain ⟨c, hb, hc, -, haccepted⟩ := run_resetSchedule
  exact ⟨c, haccepted, (open_pool_exclusive _ c (steps_of_runIf hc) hb).2.2 0 (by decide)⟩

/-- Generations and returned tokens only grow in number. -/
theorem history_of_steps {A : Entry → Shared → Bool} {C : Cond Op Shared}
    (h : Steps (admitting S A) C c c') :
    (∀ f, c.shared.bumps f ≤ c'.shared.bumps f) ∧ c.shared.returned ⊆ c'.shared.returned := by
  induction h with
  | refl => exact ⟨fun f => Nat.le_refl _, List.Subset.refl _⟩
  | tail l _ hstep _ ih =>
    obtain ⟨t, e, -, -, -, rfl⟩ | ⟨t, n, e, o, k, x, s', -, -, hx, rfl⟩ | ⟨t, e, r, -, -, rfl⟩ :=
      step_cases hstep
    · exact ih
    · have hframed := exec_framed hx
      exact ⟨fun f => (ih.1 f).trans (hframed.bumps f).1, hframed.returned ▸ ih.2⟩
    · refine ⟨ih.1, fun k hk => ?_⟩
      show k ∈ if r.result.continuation = noContinuation then _ else r.result.continuation :: _
      split
      · exact ih.2 hk
      · exact List.mem_cons_of_mem _ (ih.2 hk)

/-- **A token the word has moved past stays so.** It was accepted once, and whatever happens next it
is never found current and never accepted again. -/
theorem superseded_forever (S : Setup) (c c' : Config Op Resp Entry Returned Shared)
    (h : Steps (openPool S) (poolSound S) (System.start Shared.init) c)
    (h' : Steps (openPool S) (poolSound S) c c') (hb : Unwrapped c'.shared) (k : Nat)
    (hk : k ∈ c.shared.returned) (hpast : tokenGeneration k ≠ word S c.shared (tokenFiber k)) :
    tokenGeneration k < word S c'.shared (tokenFiber k) ∧
      c.shared.accepted.count k = 1 ∧ c'.shared.accepted.count k = 1 := by
  have hi := ((inOrder_start S).steps h (unwrapped_of_steps h' hb)).1.lease.inv
  have hi' := ((inOrder_start S).steps (h.trans h') hb).1.lease.inv
  obtain ⟨hbumps, hreturned⟩ := history_of_steps h'
  have hret : (tokenFiber k, tokenGeneration k) ∈ (abs S c.shared).returned := ⟨k, hk, rfl⟩
  have hlt : tokenGeneration k < word S c'.shared (tokenFiber k) := by
    refine lt_of_lt_of_le (lt_of_le_of_ne (hi.lease.returned_le hret) hpast) ?_
    rw [hi'.word_bumps]
    exact (hi.word_bumps _).trans_le (hbumps _)
  -- a token of the past has been accepted, in either state
  have hacc := mem_abs_accepted (hi.lease.past_accepted hret hpast)
  have hacc' := mem_abs_accepted (hi'.lease.past_accepted ⟨k, hreturned hk, rfl⟩ hlt.ne)
  exact ⟨hlt, List.count_eq_one_of_mem (hi.lease.accepted_nodup.of_map _) hacc,
    List.count_eq_one_of_mem (hi'.lease.accepted_nodup.of_map _) hacc'⟩

/-- The reset is over, and a second call leases the fiber. -/
def leaseAgain : List (Label Entry) := .leave 0 :: .enter 1 (callOf 0 0) :: Label.acts 1 12

theorem superseded_forever_lease :
    ∃ c c', Steps (openPool (oneFiber .arena)) (poolSound (oneFiber .arena)) c c' ∧
      c'.shared.own 1 = some 0 ∧ c'.shared.accepted.count (continuationValue 0 1) = 1 := by
  have hrun : ((openPool (oneFiber .arena)).runIf (poolSound (oneFiber .arena)) resetSchedule
      (System.start Shared.init)).bind (fun c =>
        ((openPool (oneFiber .arena)).runIf (poolSound (oneFiber .arena)) leaseAgain c).map
          fun c' => (c.shared.returned, word (oneFiber .arena) c.shared 0, c'.shared.own 1))
      = some ([continuationValue 0 1], 2, some 0) := by decide
  obtain ⟨c, hc, hrest⟩ := Option.bind_eq_some_iff.mp hrun
  obtain ⟨c', hc', hobs⟩ := Option.map_eq_some_iff.mp hrest
  simp only [Prod.mk.injEq] at hobs
  obtain ⟨hreturned, hword, hown⟩ := hobs
  have hall : (openPool (oneFiber .arena)).run (resetSchedule ++ leaseAgain)
      (System.start Shared.init) = some c' := by
    rw [System.run_append, run_of_runIf hc, Option.bind_some]
    exact run_of_runIf hc'
  refine ⟨c, c', steps_of_runIf hc', hown, (superseded_forever _ c c' (steps_of_runIf hc)
    (steps_of_runIf hc') (unwrapped_of_run hall (by decide)) _ ?_ ?_).2.2⟩
  · rw [hreturned]
    exact List.mem_cons_self
  · rw [show tokenFiber (continuationValue 0 1) = 0 by decide, hword]
    decide

theorem mem_returned_of_accepted {R : Regime} {s : Shared} {k : Nat} (hi : PoolInv S R s)
    (hk : k ∈ s.accepted) : k ∈ s.returned := by
  obtain ⟨k', hk', heq⟩ := hi.lease.accepted_returned (List.mem_map_of_mem hk)
  exact tokenPair_injective heq ▸ hk'

open scoped Classical in
/-- A fiber of the pool counts once. -/
theorem one_place {R : Regime} {s : Shared} {f : Nat} (hi : PoolInv S R s) (hf : f < S.fiberCount) :
    (if avail S s f then 1 else 0) + (if ∃ t, s.own t = some f then 1 else 0) +
      (outstanding s f).length = 1 := by
  by_cases hav : avail S s f
  · have hown : ¬ ∃ t, s.own t = some f := fun ⟨t, ht⟩ => hi.lease.own_unavail ht hav
    have hout := outstanding_eq_nil hi fun hret => absurd hret (hi.lease.avail_fresh hav)
    simp [hav, hown, hout]
  by_cases hex : ∃ t, s.own t = some f
  · have hout := outstanding_eq_nil hi (hi.lease.own_accepted hex.choose_spec)
    simp [hav, hex, hout]
  · obtain ⟨k, hret, hpair⟩ := ((hi.kept f hf).resolve_left hav).resolve_left hex
    have hout := outstanding_eq_singleton hi (fun t ht => hex ⟨t, ht⟩) hret hpair
    simp [hav, hex, hout]

theorem sum_outstanding {s : Shared} {n : Nat} (h : ∀ k ∈ s.returned, tokenFiber k < n) :
    ∑ f ∈ Finset.range n, (outstanding s f).length = (s.returned.filter (· ∉ s.accepted)).length := by
  unfold outstanding
  generalize s.returned = returned at h
  induction returned with
  | nil => simp
  | cons k returned ih =>
    obtain ⟨hk, hrest⟩ := List.forall_mem_cons.mp h
    have hone : ∑ f ∈ Finset.range n, (if tokenFiber k = f ∧ k ∉ s.accepted then 1 else 0) =
        if k ∉ s.accepted then 1 else 0 := by
      by_cases hacc : k ∈ s.accepted <;> simp [hacc, hk]
    have hcons (q : Nat → Bool) : ((k :: returned).filter q).length =
        (if q k then 1 else 0) + (returned.filter q).length := by
      rw [List.filter_cons]
      split <;> simp [Nat.add_comm]
    simp only [hcons, decide_eq_true_eq, Finset.sum_add_distrib, ih hrest, hone]

open scoped Classical in
/-- **The fibers add up.** At every moment, with any clients, the fibers that can be acquired, those
that entries hold and the tokens handed out are as many as the fibers and the tokens accepted. -/
theorem fibers_accounted (S : Setup) (c : Config Op Resp Entry Returned Shared)
    (h : Steps (openPool S) (poolSound S) (System.start Shared.init) c) (hb : Unwrapped c.shared) :
    ((Finset.range S.fiberCount).filter fun f => avail S c.shared f).card +
        ((Finset.range S.fiberCount).filter fun f => ∃ t, c.shared.own t = some f).card +
        c.shared.returned.length = S.fiberCount + c.shared.accepted.length := by
  have hi := ((inOrder_start S).steps h hb).1.lease.inv
  have hplaces := Finset.sum_congr rfl fun f hf => one_place hi (Finset.mem_range.mp hf)
  rw [Finset.sum_add_distrib, Finset.sum_add_distrib, ← Finset.card_filter, ← Finset.card_filter,
    sum_outstanding fun k hk => (hi.returned_valid hk).1, Finset.sum_const, Finset.card_range,
    smul_eq_mul, Nat.mul_one] at hplaces
  have hsplit := c.shared.returned.length_eq_length_filter_add (· ∈ c.shared.accepted)
  have hperm : c.shared.returned.filter (· ∈ c.shared.accepted) ~ c.shared.accepted := by
    refine (List.perm_ext_iff_of_nodup (hi.returned_nodup.filter _)
      (hi.lease.accepted_nodup.of_map _)).mpr fun k => ?_
    rw [List.mem_filter, decide_eq_true_eq, and_iff_right_iff_imp]
    exact mem_returned_of_accepted hi
  have hrest : (c.shared.returned.filter fun k => !decide (k ∈ c.shared.accepted)).length =
      (c.shared.returned.filter (· ∉ c.shared.accepted)).length := by
    simp only [decide_not]
  rw [hperm.length_eq] at hsplit
  omega

open scoped Classical in
/-- The one fiber of the pool, after the reset. -/
theorem fibers_accounted_reset :
    ∃ c : Config Op Resp Entry Returned Shared, c.shared.accepted = [continuationValue 0 1] ∧
      ((Finset.range 1).filter fun f => avail (oneFiber .arena) c.shared f).card +
        ((Finset.range 1).filter fun f => ∃ t, c.shared.own t = some f).card = 1 := by
  obtain ⟨c, hb, hc, hreturned, haccepted⟩ := run_resetSchedule
  have hall := fibers_accounted _ c (steps_of_runIf hc) hb
  rw [hreturned, haccepted] at hall
  exact ⟨c, haccepted, Nat.add_right_cancel hall⟩

end BpfCapsule.Pool

import BpfCapsule.Pool.Follow

/-!
# BpfCapsule — who writes a fiber's control record

Follows the code of the three entry points through the ownership of the entry that runs it: a
control record or stack slice is written between the step that acquired or consumed the fiber and
the step that released it. One path breaks this. When a `capsule_continue` finds its computation
complete but `return_size != output_size`, `__bpf_capsule_fiber_cancel` has released the fiber by
the time the tail of `__bpf_capsule_finish_continue` stores `return_size = 0`, and another entry
may own the fiber by then. `writes_only_while_owning` is the discipline of every run that does not
take that path; `write_after_release` is a run that does, on either tier.
-/

namespace BpfCapsule.Pool

open Interleave
open Function (update_self update_of_ne)

/-- An entry relies on nothing but its own ownership, and writes only what it owns, up to the late
store of `return_size` where `lax` lets it pass. -/
def ownership (lax : Prop) : Protocol Op Shared (Option Nat) where
  inv _ := True
  view t s := s.own t
  guar o v := ∀ f, o.writes = some f → v = some f ∨ lax ∧ o = .store f .returnSize 0

def returnSizeAgrees : Cond Op Shared
  | _, .returnSizeIs f size, s, _ => (s.controls f).returnSize = size
  | _, _, _, _ => True

instance (t : Nat) (o : Op) (s s' : Shared) : Decidable (returnSizeAgrees t o s s') := by
  unfold returnSizeAgrees; split <;> infer_instance

section Follow

variable {S : Setup} {lax : Prop} {C : Cond Op Shared} {t f : Nat} {v : Option Nat} {o : Op}

theorem owns_perform {Q : Resp o → Option Nat → Prop} (hg : (ownership lax).guar o v)
    (h : ∀ s n x s', s.own t = v → exec S t o n s = some (x, s') → C t o s s' → Q x (s'.own t)) :
    Safe (system S) (ownership lax) C t Q (perform o) v :=
  safe_op hg fun s n x s' _ hv hx hC =>
    ⟨trivial, fun _ hu => (exec_framed hx).own _ hu, h s n x s' hv hx hC⟩

/-- Most operations leave ownership as it is. -/
theorem owns_keep (hm : o.movesOwner = false) (hg : (ownership lax).guar o v) :
    Safe (system S) (ownership lax) C t (fun _ w => w = v) (perform o) v :=
  owns_perform hg fun _ _ _ _ hv hx _ => by rw [exec_own_of_not_moves hx hm]; exact hv

theorem owns_writes (hv : v = some f) (ho : o.writes = some f) : (ownership lax).guar o v := by
  intro g hg
  rw [ho] at hg
  exact .inl (hv.trans hg)

theorem owns_reads (ho : o.writes = none) : (ownership lax).guar o v := by
  intro g hg
  rw [ho] at hg
  cases hg

theorem movesOwner_of_quiet (h : o.quiet = true) : o.movesOwner = false := by
  cases o <;> first | rfl | cases h

theorem owns_releaseSlot :
    Safe (system S) (ownership lax) C t (fun b w => if b then w = none else w = some f)
      (releaseSlot S f) (some f) := by
  unfold releaseSlot
  split
  · refine owns_perform (owns_reads rfl) fun s n x s' hv hx _ => ?_
    simp only [exec] at hx
    split at hx <;> cases hx
    · exact update_self ..
    · exact hv
  · refine owns_perform (owns_reads rfl) fun s n x s' hv hx _ => ?_
    simp only [exec] at hx
    split at hx <;> cases hx
    · exact hv
    · exact update_self ..

theorem owns_leaseFiber (f : Nat) :
    Safe (system S) (ownership lax) C t (Took f) (leaseFiber S f) none := by
  unfold leaseFiber
  split
  · refine owns_perform (owns_reads rfl) fun s n x s' hv hx _ => ?_
    simp only [exec] at hx
    split at hx <;> cases hx
    · exact hv
    · exact update_self ..
  · refine safe_then (owns_keep rfl (owns_reads rfl)) fun current => ?_
    have hinsert : Safe (system S) (ownership lax) C t (Took f)
        (perform (.leaseInsert f (nextGeneration current))) none := by
      refine owns_perform (owns_reads rfl) fun s n x s' hv hx _ => ?_
      simp only [exec] at hx
      split at hx
      · cases hx
        exact hv
      · cases hx
      · cases hx
        exact update_self ..
    refine safe_took hinsert rfl (safe_then (owns_keep rfl (owns_writes rfl rfl)) fun _ => ?_)
    exact safe_pure rfl

theorem owns_pop :
    Safe (system S) (ownership lax) C t (fun r w => w = r) (perform .freePop) none := by
  refine owns_perform (owns_reads rfl) fun s n x s' hv hx _ => ?_
  simp only [exec] at hx
  split at hx <;> cases hx
  · exact hv
  · exact update_self ..

variable (hsize : lax ∨ ∀ {t o s s'}, C t o s s' → returnSizeAgrees t o s s')

include hsize

theorem owns_follows (S : Setup) (t : Nat) :
    Follows S (ownership lax) C t False True (fun f w => w = some f) (ownership lax).guar
      (fun _ _ _ => True) (fun w => w = none) where
  keep o w hq hg _ := owns_keep (movesOwner_of_quiet hq) (hg.elim owns_reads id)
  writable _ _ _ h ho := owns_writes h ho
  code _ _ _ := safe_mono (owns_keep rfl (owns_reads rfl)) fun _ _ h => ⟨h, False.elim⟩
  generation _ _ _ _ := safe_mono (owns_keep rfl (owns_reads rfl)) fun _ _ h => ⟨h, trivial⟩
  release := by
    rintro f _ _ rfl
    refine safe_mono owns_releaseSlot ?_
    rintro (_ | _) w hw
    · exact ⟨hw, trivial⟩
    · exact hw
  stuck_honest _ := id
  reap f w size _ := by
    refine owns_perform (owns_reads rfl) fun s n x s' hv hx hC => ?_
    cases hx
    refine ⟨hv, fun hne w'' => ?_⟩
    rcases hsize with hlax | hagrees
    · -- the late store is allowed
      rintro g ⟨⟩
      exact .inr ⟨hlax, rfl⟩
    · -- the condition rules the mismatch out
      have heq : (s.controls f).returnSize = size := hagrees hC
      rw [heq] at hne
      simp at hne

/-- The check that accepts a token is where ownership begins. -/
theorem owns_consumeGeneration (f g : Nat) :
    Safe (system S) (ownership lax) C t (Took f) (consumeGeneration S f g) none := by
  unfold consumeGeneration
  split
  · refine safe_bind_of ((owns_follows hsize S t).hasOutcome f) ?_
    rintro (_ | _) _ rfl
    · exact safe_pure rfl
    have hcheck : Safe (system S) (ownership lax) C t (Took f) (perform (.generationIs f g)) none := by
      refine owns_perform (owns_reads rfl) fun s n x s' hv hx _ => ?_
      simp only [exec] at hx
      split at hx <;> cases hx
      · exact update_self ..
      · exact hv
    refine safe_took hcheck rfl (safe_then (owns_keep rfl (owns_writes rfl rfl)) fun _ => ?_)
    exact safe_pure rfl
  · refine safe_bind_of (owns_keep rfl (owns_reads rfl)) ?_
    rintro (_ | elem) _ rfl
    · exact safe_pure rfl
    have hcheck : Safe (system S) (ownership lax) C t (Took f) (perform (.leaseIs elem f g)) none := by
      refine owns_perform (owns_reads rfl) fun s n x s' hv hx _ => ?_
      simp only [exec] at hx
      split at hx <;> cases hx
      · exact update_self ..
      · exact hv
    refine safe_took hcheck rfl (safe_then (owns_keep rfl (owns_reads rfl)) fun _ => ?_)
    refine safe_then (owns_keep rfl (owns_writes rfl rfl)) fun _ => ?_
    exact safe_pure rfl

theorem owns_takes (S : Setup) (t : Nat) : Takes S (ownership lax) C t (ownership lax).guar where
  toFollows := owns_follows hsize S t
  lease := owns_leaseFiber
  pop := owns_pop
  renew _ _ := owns_keep rfl (owns_writes rfl rfl)
  consume f g _ := owns_consumeGeneration hsize f g
  claims _ _ _ ho := by rcases ho with rfl | rfl <;> exact owns_keep rfl (owns_reads rfl)

end Follow

theorem ownership_sound (S : Setup) :
    Sound (system S) (ownership False) returnSizeAgrees (fun v => v = none)
      (fun _ _ _ => True) where
  enter_ok t e s _ hidle _ := by
    refine ⟨trivial, fun _ _ => rfl, ?_⟩
    rw [show (ownership False).view t ((system S).enter t e s) = none from hidle]
    exact (owns_takes (.inr id) S t).entryCode e
  leave_ok t _ _ s _ _ :=
    ⟨trivial, fun _ hu => update_of_ne hu _ _, update_self ..⟩

/-- **Writes come from owners.** In every run in which no reap finds the wrong return size, an
entry about to write a fiber's control record or stack slice owns that fiber at that moment, and
no other step changes either of them. -/
theorem writes_only_while_owning (S : Setup) (c : Config Op Resp Entry Returned Shared)
    (h : Reaches S returnSizeAgrees c) :
    (∀ t f, nextWrite c t = some f → c.shared.own t = some f) ∧
    (∀ l c' f, (system S).step c l = some c' →
      c'.shared.controls f ≠ c.shared.controls f ∨ c'.shared.slices f ≠ c.shared.slices f →
      ∃ t n, l = .act t n ∧ c.shared.own t = some f) := by
  have hgood := (ownership_sound S).steps h (good_start trivial fun _ => rfl)
  have howns : ∀ t f, nextWrite c t = some f → c.shared.own t = some f := by
    intro t f hw
    obtain ⟨o, ho, hof⟩ := Option.bind_eq_some_iff.mp hw
    exact (hgood.guar ho f hof).resolve_right And.left
  refine ⟨howns, ?_⟩
  intro l c' f hstep hchanged
  obtain ⟨t, e, -, -, -, rfl⟩ | ⟨t, n, e, o, k, x, s', rfl, hr, hx, rfl⟩ | ⟨t, e, a, -, -, rfl⟩ :=
    step_cases hstep
  · exact absurd hchanged (by simp [system, enter])
  · refine ⟨t, n, rfl, howns t f ?_⟩
    by_contra hw
    have hne : o.writes ≠ some f := by
      simpa [nextWrite, Config.next?, hr] using hw
    obtain ⟨hc, hs⟩ := exec_fiber_of_not_writes hx hne
    exact hchanged.elim (fun h => h hc) (fun h => h hs)
  · exact absurd hchanged (by simp [system, leave])

/-- A continue that reaps a computation of the right size, about to store to the record. -/
theorem writes_only_while_owning_reap :
    ∃ c, Reaches (oneFiber .arena) returnSizeAgrees c ∧ nextWrite c 0 = some 0 ∧
      c.shared.own 0 = some 0 := by
  have hrun : ((system (oneFiber .arena)).runIf returnSizeAgrees
      (.enter 0 (callOf 0 4) :: Label.acts 0 22 ++ .leave 0 ::
        .enter 0 (continueOf 0 1 4 [.resumeRegionId 0]) :: Label.acts 0 19 ++ .leave 0 ::
        .enter 0 (callOf 0 4) :: Label.acts 0 2)
      (System.start Shared.init)).map (fun c => nextWrite c 0) = some (some 0) := by decide
  obtain ⟨c, hc, hobs⟩ := Option.map_eq_some_iff.mp hrun
  have hreach : Reaches (oneFiber .arena) returnSizeAgrees c := steps_of_runIf hc
  exact ⟨c, hreach, hobs, (writes_only_while_owning (oneFiber .arena) c hreach).1 0 0 hobs⟩

/-- A call that stays pending is continued with an output of the wrong size; the computation
completes, the mismatch cancels it, and a second call leases the fiber just released. -/
def mismatchSchedule (callOps continueOps leaseOps : Nat) : List (Label Entry) :=
  .enter 0 (callOf 0 4) :: Label.acts 0 callOps ++
  .leave 0 :: .enter 0 (continueOf 0 1 8 [.resumeRegionId 0]) ::
  Label.acts 0 continueOps ++ .enter 1 (callOf 0 4) :: Label.acts 1 leaseOps

/-- **A write after release**: on both tiers, an entry is about to store to the record of a fiber
that it has released and another entry owns. -/
theorem write_after_release :
    (∃ c, Reaches (oneFiber .fixed) anyStep c ∧ nextWrite c 0 = some 0 ∧
      c.shared.own 0 = none ∧ c.shared.own 1 = some 0) ∧
    (∃ c, Reaches (oneFiber .arena) anyStep c ∧ nextWrite c 0 = some 0 ∧
      c.shared.own 0 = none ∧ c.shared.own 1 = some 0) := by
  have hfixed : ((system (oneFiber .fixed)).run (mismatchSchedule 21 22 2)
      (System.start Shared.init)).map (fun c => (nextWrite c 0, c.shared.own 0, c.shared.own 1))
      = some (some 0, none, some 0) := by decide
  have harena : ((system (oneFiber .arena)).run (mismatchSchedule 22 21 1)
      (System.start Shared.init)).map (fun c => (nextWrite c 0, c.shared.own 0, c.shared.own 1))
      = some (some 0, none, some 0) := by decide
  constructor
  · obtain ⟨c, hc, hobs⟩ := Option.map_eq_some_iff.mp hfixed
    simp only [Prod.mk.injEq] at hobs
    exact ⟨c, steps_of_run hc, hobs⟩
  · obtain ⟨c, hc, hobs⟩ := Option.map_eq_some_iff.mp harena
    simp only [Prod.mk.injEq] at hobs
    exact ⟨c, steps_of_run hc, hobs⟩

end BpfCapsule.Pool

import BpfCapsule.Pool.Entries

/-!
# BpfCapsule — what an operation leaves alone

Frame facts about `exec`, each proved once by going through the operations: an operation touches
the history of the entry that performs it and of no other, generations are only ever bumped, and
most operations (`Op.quiet`) touch neither a generation nor a map.
-/

namespace BpfCapsule.Pool

open Interleave
open Function (update update_self update_of_ne)

def Op.movesOwner : Op → Bool
  | .generationIs .. | .leaseInsert .. | .leaseIs .. | .leaseDelete .. | .issuedInsert ..
  | .freePop | .freePush .. => true
  | _ => false

def Op.quiet : Op → Bool
  | .load .. | .storeOutcome .. | .returnSizeIs .. | .loadSlice .. | .storeSlice ..
  | .leaseLookup _ => true
  | .store _ fld _ => fld ≠ .generation
  | _ => false

def Op.publishes : Op → Option Int
  | .store _ .code v => some v
  | .storeOutcome _ _ code => some code
  | _ => none

/-- Generated code exits with `capsule_exit`'s byte or a framework code of its own; it never
publishes the pool's. -/
def GuestStore.clean : GuestStore → Bool
  | .outcome _ code => code ≠ CapsuleError.poolCorrupt
  | _ => true

def Drive.clean (drive : Drive) : Bool := drive.stores.all GuestStore.clean

def Entry.clean : Entry → Bool
  | .call _ _ drive => drive.clean
  | .continue _ _ _ drive => drive.clean
  | .reset _ => true

section Frame

variable {S : Setup} {t n : Nat} {o : Op} {s s' : Shared} {x : Resp o}

theorem exec_own_of_not_moves (h : exec S t o n s = some (x, s')) (ho : o.movesOwner = false) :
    s'.own = s.own := by
  cases o <;> simp only [Op.movesOwner, Bool.true_eq_false] at ho <;> simp only [exec] at h <;>
    (repeat' split at h) <;> cases h <;> rfl

theorem bump_self (s : Shared) (f : Nat) : (s.bump f).bumps f = s.bumps f + 1 :=
  update_self ..

theorem bumps_bump (s : Shared) (fiber f : Nat) :
    s.bumps f ≤ (s.bump fiber).bumps f ∧ (s.bump fiber).bumps f ≤ s.bumps f + 1 := by
  show s.bumps f ≤ update s.bumps fiber _ f ∧ update s.bumps fiber _ f ≤ s.bumps f + 1
  by_cases hf : f = fiber
  · subst hf; rw [update_self]; omega
  · rw [update_of_ne hf]; omega

/-- What an operation of entry `t` leaves alone whichever it is: the history of every other entry
and the record of finished ones. It installs at most one generation. -/
structure Framed (t : Nat) (s s' : Shared) : Prop where
  own : ∀ u, u ≠ t → s'.own u = s.own u
  claim : ∀ u, u ≠ t → s'.claim u = s.claim u
  took : ∀ u, u ≠ t → s'.took u = s.took u
  presented : s'.presented = s.presented
  returned : s'.returned = s.returned
  log : s'.log = s.log
  bumps : ∀ f, s.bumps f ≤ s'.bumps f ∧ s'.bumps f ≤ s.bumps f + 1

variable (h : exec S t o n s = some (x, s'))

include h

theorem exec_framed : Framed t s s' := by
  cases o <;> simp only [exec] at h <;> (repeat' split at h) <;> cases h <;>
    refine ⟨fun u hu => ?_, fun u hu => ?_, fun u hu => ?_, rfl, rfl, rfl, fun f => ?_⟩ <;>
    first
      | rfl
      | exact update_of_ne hu _ _
      | exact ⟨Nat.le_refl _, Nat.le_succ _⟩
      | exact bumps_bump _ _ f

/-- The tokens accepted so far grow by the acceptances of `generationIs` and `leaseIs`. -/
theorem exec_accepted :
    (s'.accepted = s.accepted ∧ (s.took t = true → s'.took t = true)) ∨
      ∃ f g, s' = s.accept t f g := by
  cases o with
  | generationIs f g | leaseIs e f g =>
    simp only [exec] at h
    split at h <;> cases h
    · exact .inr ⟨f, g, rfl⟩
    · exact .inl ⟨rfl, id⟩
  | _ =>
    simp only [exec] at h
    (repeat' split at h) <;> cases h <;> exact .inl ⟨rfl, id⟩

theorem exec_fiber_of_not_writes {f : Nat}
    (hw : o.writes ≠ some f) : s'.controls f = s.controls f ∧ s'.slices f = s.slices f := by
  cases o <;> simp only [exec] at h <;> (repeat' split at h) <;>
    cases h <;>
    first
      | exact ⟨rfl, rfl⟩
      | (have hf : f ≠ _ := fun he => hw (congrArg some he.symm)
         first
           | exact ⟨update_of_ne hf _ _, rfl⟩
           | exact ⟨rfl, update_of_ne hf _ _⟩)

/-- The exit code in a record is the one it had, or the one the operation publishes. -/
theorem exec_code (f : Nat) :
    (s'.controls f).code = (s.controls f).code ∨ o.publishes = some (s'.controls f).code := by
  by_cases hw : o.writes = some f
  · cases o with
    | store fiber fld v =>
      obtain rfl : fiber = f := Option.some.inj hw
      have hc : s'.controls fiber = (s.controls fiber).set fld v := by
        cases h
        split <;> exact update_self ..
      rw [hc]
      cases fld with
      | code => exact .inr rfl
      | _ => exact .inl rfl
    | storeOutcome fiber status code =>
      obtain rfl : fiber = f := Option.some.inj hw
      cases h
      refine .inr ?_
      show some code = some (update s.controls fiber _ fiber).code
      rw [update_self]
    | storeSlice fiber offset byte =>
      cases h
      exact .inl rfl
    | _ => cases hw
  · exact .inl (congrArg FiberControl.code (exec_fiber_of_not_writes h hw).1)

/-- A quiet operation changes control records outside their generations, and slices. -/
theorem exec_quiet (ho : o.quiet = true) :
    ∃ controls slices, (∀ f, (controls f).generation = (s.controls f).generation) ∧
      s' = { s with controls := controls, slices := slices } := by
  cases o with
  | store fiber fld v =>
    have hfld : fld ≠ .generation := by simpa [Op.quiet] using ho
    simp only [exec, hfld, and_false, if_false, Option.some.injEq, Prod.mk.injEq, true_and] at h
    refine ⟨_, _, ?_, h.symm⟩
    intro f
    by_cases hf : f = fiber
    · subst hf; rw [update_self]; exact FiberControl.set_generation_of_ne _ v hfld
    · rw [update_of_ne hf]
  | storeOutcome fiber status code =>
    simp only [exec, Option.some.injEq, Prod.mk.injEq, true_and] at h
    refine ⟨_, _, ?_, h.symm⟩
    intro f
    by_cases hf : f = fiber
    · subst hf; rw [update_self]
    · rw [update_of_ne hf]
  | load fiber fld | returnSizeIs fiber size | loadSlice fiber offset | leaseLookup fiber =>
    simp only [exec, Option.some.injEq, Prod.mk.injEq] at h
    exact ⟨s.controls, s.slices, fun _ => rfl, h.2.symm⟩
  | storeSlice fiber offset byte =>
    simp only [exec, Option.some.injEq, Prod.mk.injEq, true_and] at h
    exact ⟨s.controls, _, fun _ => rfl, h.symm⟩
  | _ => simp [Op.quiet] at ho

end Frame

/-- A schedule installs at most one generation a step. -/
theorem bumps_le_length {S : Setup} {A : Entry → Shared → Bool} {ls : List (Label Entry)}
    {c c' : PoolConfig} (h : (admitting S A).run ls c = some c') (f : Nat) :
    c'.shared.bumps f ≤ c.shared.bumps f + ls.length := by
  induction ls generalizing c with
  | nil => cases h; exact Nat.le_refl _
  | cons l ls ih =>
    obtain ⟨d, hd, hrest⟩ := Option.bind_eq_some_iff.mp h
    have hstep : d.shared.bumps f ≤ c.shared.bumps f + 1 := by
      obtain ⟨t, e, -, -, -, rfl⟩ | ⟨t, n, e, o, k, x, s', -, -, hx, rfl⟩ |
        ⟨t, e, a, -, -, rfl⟩ := step_cases hd
      · exact Nat.le_succ _
      · exact ((exec_framed hx).bumps f).2
      · exact Nat.le_succ _
    have := ih hrest
    rw [List.length_cons]
    omega

end BpfCapsule.Pool

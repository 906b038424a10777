import BpfCapsule.Lib.Interleave

/-!
# Interleave — programs run alone, handled and checked against a contract

Three readings of one `Prog`:

* `eval` runs it alone over a state in which every operation has one outcome;
* `handle` replaces its operations by programs over other operations, and `safe_handle` says that a
  handled program does in any interleaving what it does alone, as long as each operation does: this
  is the rule for a critical section;
* `Meets` checks it against a contract of its operations, for callers that only know the contract.
-/

namespace Interleave

variable {Op Op' : Type} {Resp : Op → Type} {Resp' : Op' → Type} {α β κ ρ : Type}

namespace Prog

/-! ## Alone -/

def eval (exec : (o : Op) → κ → Resp o × κ) : Prog Op Resp α → κ → α × κ
  | .ret a, s => (a, s)
  | .act o k, s => (k (exec o s).1).eval exec (exec o s).2

section

variable {exec : (o : Op) → κ → Resp o × κ}

@[simp] theorem eval_pure (a : α) (s : κ) : (pure a : Prog Op Resp α).eval exec s = (a, s) := rfl

@[simp] theorem eval_op (o : Op) (s : κ) : (op o : Prog Op Resp (Resp o)).eval exec s = exec o s := rfl

@[simp] theorem eval_bind (p : Prog Op Resp α) (f : α → Prog Op Resp β) (s : κ) :
    (p >>= f).eval exec s = (f (p.eval exec s).1).eval exec (p.eval exec s).2 := by
  induction p generalizing s with
  | ret a => rfl
  | act o k ih => exact ih _ _

end

/-- Every operation of the program, run alone, meets `g` in the state it is performed in. -/
def Guarded (exec : (o : Op) → κ → Resp o × κ) (g : Op → κ → Prop) : Prog Op Resp α → κ → Prop
  | .ret _, _ => True
  | .act o k, s => g o s ∧ (k (exec o s).1).Guarded exec g (exec o s).2

section

variable {exec : (o : Op) → κ → Resp o × κ} {g : Op → κ → Prop}

theorem guarded_pure (a : α) (s : κ) : (pure a : Prog Op Resp α).Guarded exec g s := trivial

theorem guarded_bind {p : Prog Op Resp α} {f : α → Prog Op Resp β} {s : κ} (hp : p.Guarded exec g s)
    (hf : (f (p.eval exec s).1).Guarded exec g (p.eval exec s).2) : (p >>= f).Guarded exec g s := by
  induction p generalizing s with
  | ret a => exact hf
  | act o k ih => exact ⟨hp.1, ih _ hp.2 hf⟩

end

/-! ## Handled -/

def handle (h : (o : Op') → Prog Op Resp (Resp' o)) : Prog Op' Resp' α → Prog Op Resp α
  | .ret a => .ret a
  | .act o k => (h o).bind fun x => (k x).handle h

/-! ## Against a contract -/

/-- The program asks only for what the contract allows (`pre`), and returns with `Q` whatever answers
and changes the contract permits (`step`). -/
def Meets (pre : Op → κ → Prop) (step : (o : Op) → κ → Resp o → κ → Prop) (Q : α → κ → Prop) :
    Prog Op Resp α → κ → Prop
  | .ret a, s => Q a s
  | .act o k, s => pre o s ∧ ∀ x s', step o s x s' → (k x).Meets pre step Q s'

section

variable {pre : Op → κ → Prop} {step : (o : Op) → κ → Resp o → κ → Prop} {Q : α → κ → Prop}

theorem meets_pure {a : α} {s : κ} (h : Q a s) : (pure a : Prog Op Resp α).Meets pre step Q s := h

theorem meets_op {o : Op} {s : κ} {Q : Resp o → κ → Prop} (hpre : pre o s)
    (h : ∀ x s', step o s x s' → Q x s') : (op o : Prog Op Resp (Resp o)).Meets pre step Q s :=
  ⟨hpre, h⟩

theorem meets_bind {R : β → κ → Prop} {p : Prog Op Resp α} {f : α → Prog Op Resp β} {s : κ}
    (h : p.Meets pre step (fun a s' => (f a).Meets pre step R s') s) :
    (p >>= f).Meets pre step R s := by
  induction p generalizing s with
  | ret a => exact h
  | act o k ih => exact ⟨h.1, fun x s' hstep => ih x (h.2 x s' hstep)⟩

end

end Prog

/-! ## Critical sections -/

section

variable {Entry Result σ : Type} {sys : System Op Resp Entry Result σ} {P : Protocol Op σ ρ}
  {C : Cond Op σ} {t : Nat}

/-- A section that has the state `κ` to itself: if every operation, where it is guarded, does to the
view what it does alone, the whole program does. -/
theorem safe_handle {exec : (o : Op') → κ → Resp' o × κ} {g : Op' → κ → Prop} (hold : κ → ρ)
    {h : (o : Op') → Prog Op Resp (Resp' o)} (hop : ∀ o s, g o s → Safe sys P C t
      (fun x v => x = (exec o s).1 ∧ v = hold (exec o s).2) (h o) (hold s))
    {p : Prog Op' Resp' α} {s : κ} (hguard : p.Guarded exec g s) :
    Safe sys P C t (fun a v => a = (p.eval exec s).1 ∧ v = hold (p.eval exec s).2) (p.handle h)
      (hold s) := by
  induction p generalizing s with
  | ret a => exact ⟨rfl, rfl⟩
  | act o k ih =>
    refine safe_bind_of (hop o s hguard.1) fun x v hx => ?_
    rw [hx.1, hx.2]
    exact ih _ hguard.2

end

end Interleave

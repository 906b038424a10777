import BpfCapsule.Lib.Interleave

/-!
# Interleave — one call followed through a run

A property such as "the call finds a slot that stays free" is about one call of one entry while all
others go on. `Path` is the call seen alone: the operations it performed and their answers. `Call`
is the call inside a run: entry `t` advances through it, other entries take any steps in between,
and every state the call is in meets a condition on the shared state. `Call.path` connects the two.
-/

namespace Interleave

variable {Op : Type} {Resp : Op → Type} {Entry Result σ : Type} {α β : Type}

abbrev Event (Op : Type) (Resp : Op → Type) := Σ o : Op, Resp o

theorem Prog.bind_assoc {γ : Type} (p : Prog Op Resp α) (f : α → Prog Op Resp β)
    (g : β → Prog Op Resp γ) : (p.bind f).bind g = p.bind fun a => (f a).bind g := by
  induction p with
  | ret a => rfl
  | act o k ih =>
    exact congrArg (Prog.act o) (funext ih)

/-! ## The call alone -/

/-- `p`, with the operations and answers `evs`, becomes `q`. -/
inductive Path : Prog Op Resp α → List (Event Op Resp) → Prog Op Resp α → Prop where
  | nil (p : Prog Op Resp α) : Path p [] p
  | cons {o : Op} {k : Resp o → Prog Op Resp α} {x : Resp o} {evs : List (Event Op Resp)}
      {q : Prog Op Resp α} (h : Path (k x) evs q) : Path (.act o k) (⟨o, x⟩ :: evs) q

variable {evs : List (Event Op Resp)}

theorem Path.snoc {p : Prog Op Resp α} {o : Op} {k : Resp o → Prog Op Resp α}
    (h : Path p evs (.act o k)) (x : Resp o) : Path p (evs ++ [⟨o, x⟩]) (k x) := by
  generalize hq : Prog.act o k = q at h
  induction h with
  | nil p =>
    subst hq
    exact .cons (.nil _)
  | cons _ ih => exact .cons (ih hq)

theorem Path.trans {p q r : Prog Op Resp α} {evs' : List (Event Op Resp)} (h : Path p evs q)
    (h' : Path q evs' r) : Path p (evs ++ evs') r := by
  induction h with
  | nil => exact h'
  | cons _ ih => exact .cons (ih h')

def Label.who : Label Entry → Nat
  | .enter t _ => t
  | .act t _ => t
  | .leave t => t

section

variable (sys : System Op Resp Entry Result σ) (A : σ → Prop) (t : Nat) (e : Entry)
  (cont : α → Prog Op Resp Result)

/-- The call `p` of entry `t`, made in configuration `c`, has come to `q` in configuration `c'`;
`cont` is what the entry does with the call's result. Every state in which a step was taken since
the call was made meets `A`. -/
inductive Call (p : Prog Op Resp α) (c : Config Op Resp Entry Result σ) :
    List (Event Op Resp) → Prog Op Resp α → Config Op Resp Entry Result σ → Prop where
  | made (hr : c.running t = some (e, p.bind cont)) : Call p c [] p c
  | own {evs o k n x s d} (h : Call p c evs (.act o k) d) (hA : A d.shared)
      (hexec : sys.exec t o n d.shared = some (x, s)) :
      Call p c (evs ++ [⟨o, x⟩]) (k x)
        ⟨s, Function.update d.running t (some (e, (k x).bind cont))⟩
  | other {evs q l d d'} (h : Call p c evs q d) (hA : A d.shared) (hl : l.who ≠ t)
      (hstep : sys.step d l = some d') : Call p c evs q d'

end

section

variable {sys : System Op Resp Entry Result σ} {A : σ → Prop} {t : Nat} {e : Entry}
  {cont : α → Prog Op Resp Result} {p q : Prog Op Resp α} {c c' : Config Op Resp Entry Result σ}

theorem step_running_of_ne {l : Label Entry} (hstep : sys.step c l = some c') (hl : l.who ≠ t) :
    c'.running t = c.running t := by
  obtain ⟨u, e, rfl, -, -, rfl⟩ | ⟨u, n, e, o, k, x, s', rfl, -, -, rfl⟩ | ⟨u, e, a, rfl, -, rfl⟩ :=
    step_cases hstep <;> exact Function.update_of_ne (Ne.symm hl) _ _

/-- The entry is where the call has come to. -/
theorem Call.running (h : Call sys A t e cont p c evs q c') :
    c'.running t = some (e, q.bind cont) := by
  induction h with
  | made hr => exact hr
  | own => exact Function.update_self ..
  | other _ _ hl hstep ih => exact (step_running_of_ne hstep hl).trans ih

/-- The own operations of a call are a path through its code. -/
theorem Call.path (h : Call sys A t e cont p c evs q c') : Path p evs q := by
  induction h with
  | made => exact .nil p
  | own _ _ _ ih => exact ih.snoc _
  | other _ _ _ _ ih => exact ih

theorem Call.step_own {o : Op} {k : Resp o → Prog Op Resp α} {n : Nat} {x : Resp o} {s : σ}
    (h : Call sys A t e cont p c evs (.act o k) c')
    (hexec : sys.exec t o n c'.shared = some (x, s)) :
    sys.step c' (.act t n)
      = some ⟨s, Function.update c'.running t (some (e, (k x).bind cont))⟩ := by
  have hr := h.running
  unfold System.step
  simp only [hr, Prog.bind, hexec]
  rfl

theorem Call.steps (h : Call sys A t e cont p c evs q c') : Steps sys anyStep c c' := by
  induction h with
  | made => exact .refl c
  | own h _ hexec ih => exact ih.tail _ (h.step_own hexec) (permits_anyStep _ _ _)
  | other _ _ _ hstep ih => exact ih.tail _ hstep (permits_anyStep _ _ _)

theorem Call.events {Q : Event Op Resp → Prop}
    (hQ : ∀ d o n x s', Steps sys anyStep c d → A d.shared →
      sys.exec t o n d.shared = some (x, s') → Q ⟨o, x⟩)
    (h : Call sys A t e cont p c evs q c') : ∀ ev ∈ evs, Q ev := by
  induction h with
  | made => exact fun ev hev => absurd hev List.not_mem_nil
  | own hcall hA hexec ih =>
    intro ev hev
    rcases List.mem_append.mp hev with hev | hev
    · exact ih ev hev
    · rw [List.mem_singleton.mp hev]
      exact hQ _ _ _ _ _ hcall.steps hA hexec
  | other _ _ _ _ ih => exact ih

end

end Interleave

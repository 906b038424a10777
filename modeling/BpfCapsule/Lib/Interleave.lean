import Mathlib.Logic.Function.Basic
import Mathlib.Tactic.Common

/-!
# Interleave — entries that run one atomic operation at a time over a shared state

A concurrent component is given as a `System`: the code of each entry is a `Prog`, a finite tree
of atomic operations whose next step depends on the answer to the last one, and `exec` says what
one operation does to the shared state. A `Config` holds the shared state and the remaining
program of every entry in flight; `step` advances one entry by one operation, so the runs of a
`System` are exactly the interleavings of its entries' operations.

The second half is a proof rule for those runs. A `Protocol` names an invariant of the shared
state and, for every entry, the *view* of the state that entry relies on. `Safe` says that a
program, started from a view, keeps the invariant and everybody else's view at each of its own
operations; it is proved by following the program text (`safe_bind`, `safe_op`) and never looks at
the other entries. `Sound.steps` then gives the invariant for every interleaving.
-/

namespace Interleave

open Function (update update_self)

/-! ## Programs -/

/-- A program over atomic operations `Op`: it returns, or performs one operation and continues
with the answer. -/
inductive Prog (Op : Type) (Resp : Op → Type) (α : Type) where
  | ret (a : α)
  | act (o : Op) (k : Resp o → Prog Op Resp α)

namespace Prog

variable {Op : Type} {Resp : Op → Type} {α β : Type}

/-- Sequencing grafts the continuation at every return of the first program. -/
def bind : Prog Op Resp α → (α → Prog Op Resp β) → Prog Op Resp β
  | ret a, f => f a
  | act o k, f => act o (fun x => (k x).bind f)

instance : Monad (Prog Op Resp) where
  pure := ret
  bind := bind

def op (o : Op) : Prog Op Resp (Resp o) := act o ret

def next? : Prog Op Resp α → Option Op
  | ret _ => none
  | act o _ => some o

@[simp] theorem next?_ret (a : α) : (ret a : Prog Op Resp α).next? = none := rfl

@[simp] theorem next?_act (o : Op) (k : Resp o → Prog Op Resp α) :
    (act o k).next? = some o := rfl

end Prog

/-! ## Systems and their runs -/

/-- The code of a concurrent component and the meaning of its operations. `exec t o n s` is the
effect of entry `t` performing `o`; the number `n` resolves whatever the environment is free to
choose, and `none` means the choice is not possible. `allow` says when a client may start an
entry; `enter` and `leave` update the shared state at the two ends of an entry. -/
structure System (Op : Type) (Resp : Op → Type) (Entry Result σ : Type) where
  code : Entry → Prog Op Resp Result
  exec : Nat → (o : Op) → Nat → σ → Option (Resp o × σ)
  allow : Entry → σ → Bool
  enter : Nat → Entry → σ → σ
  leave : Nat → Entry → Result → σ → σ

/-- The shared state, and for every entry in flight what was started and what is left to run. -/
structure Config (Op : Type) (Resp : Op → Type) (Entry Result σ : Type) where
  shared : σ
  running : Nat → Option (Entry × Prog Op Resp Result)

/-- One scheduling decision: start an entry, advance one, or let a finished one return. -/
inductive Label (Entry : Type) where
  | enter (t : Nat) (e : Entry)
  | act (t : Nat) (choice : Nat)
  | leave (t : Nat)

/-- Advance entry `t` by `n` operations. -/
def Label.acts {Entry : Type} (t n : Nat) : List (Label Entry) := List.replicate n (.act t 0)

variable {Op : Type} {Resp : Op → Type} {Entry Result σ : Type}

def Config.next? (c : Config Op Resp Entry Result σ) (t : Nat) : Option Op :=
  (c.running t).bind fun p => p.2.next?

namespace System

variable (sys : System Op Resp Entry Result σ)

def step (c : Config Op Resp Entry Result σ) :
    Label Entry → Option (Config Op Resp Entry Result σ)
  | .enter t e =>
    match c.running t with
    | some _ => none
    | none =>
      if sys.allow e c.shared then
        some ⟨sys.enter t e c.shared, update c.running t (some (e, sys.code e))⟩
      else none
  | .act t n =>
    match c.running t with
    | some (e, .act o k) =>
      (sys.exec t o n c.shared).map fun p =>
        ⟨p.2, update c.running t (some (e, k p.1))⟩
    | _ => none
  | .leave t =>
    match c.running t with
    | some (e, .ret a) => some ⟨sys.leave t e a c.shared, update c.running t none⟩
    | _ => none

def run :
    List (Label Entry) → Config Op Resp Entry Result σ → Option (Config Op Resp Entry Result σ)
  | [], c => some c
  | l :: ls, c => (sys.step c l).bind (run ls)

/-- Follow a schedule as long as every operation meets the condition `C`. -/
def runIf (C : Nat → Op → σ → σ → Prop)
    [∀ t o s s', Decidable (C t o s s')] :
    List (Label Entry) → Config Op Resp Entry Result σ → Option (Config Op Resp Entry Result σ)
  | [], c => some c
  | l :: ls, c =>
    (sys.step c l).bind fun c' =>
      match l with
      | .act t _ =>
        match c.next? t with
        | some o => if C t o c.shared c'.shared then runIf C ls c' else none
        | none => runIf C ls c'
      | _ => runIf C ls c'

/-- Run a program of entry `t` with nobody else running; the list resolves what the environment is
free to choose at each operation. -/
def alone {α : Type} (t : Nat) :
    Prog Op Resp α → List Nat → σ → Option (α × σ)
  | .ret a, _, s => some (a, s)
  | .act _ _, [], _ => none
  | .act o k, n :: choices, s =>
    (sys.exec t o n s).bind fun p => alone t (k p.1) choices p.2

def start (s : σ) : Config Op Resp Entry Result σ := ⟨s, fun _ => none⟩

end System

abbrev Cond (Op σ : Type) := Nat → Op → σ → σ → Prop

/-- The scheduling decision `l` from `c` to `c'` meets the condition `C`. -/
def Permits (C : Cond Op σ) (c c' : Config Op Resp Entry Result σ) : Label Entry → Prop
  | .act t _ => ∀ e o k, c.running t = some (e, .act o k) → C t o c.shared c'.shared
  | _ => True

/-- The runs of a system all of whose operations meet `C`. -/
inductive Steps (sys : System Op Resp Entry Result σ) (C : Cond Op σ) :
    Config Op Resp Entry Result σ → Config Op Resp Entry Result σ → Prop where
  | refl (c) : Steps sys C c c
  | tail {c c' c''} (l : Label Entry) : Steps sys C c c' → sys.step c' l = some c'' →
      Permits C c' c'' l → Steps sys C c c''

def anyStep : Cond Op σ := fun _ _ _ _ => True

theorem permits_anyStep (c c' : Config Op Resp Entry Result σ) (l : Label Entry) :
    Permits anyStep c c' l := by
  cases l with
  | enter t e => exact trivial
  | act t n => exact fun _ _ _ _ => trivial
  | leave t => exact trivial

section Runs

variable {sys : System Op Resp Entry Result σ} {C : Cond Op σ}
variable {c c' : Config Op Resp Entry Result σ} {l : Label Entry}

/-- What one scheduling decision can do. -/
theorem step_cases (h : sys.step c l = some c') :
    (∃ t e, l = .enter t e ∧ c.running t = none ∧ sys.allow e c.shared = true ∧
      c' = ⟨sys.enter t e c.shared, update c.running t (some (e, sys.code e))⟩) ∨
    (∃ t n e o k x s', l = .act t n ∧ c.running t = some (e, .act o k) ∧
      sys.exec t o n c.shared = some (x, s') ∧
      c' = ⟨s', update c.running t (some (e, k x))⟩) ∨
    (∃ t e a, l = .leave t ∧ c.running t = some (e, .ret a) ∧
      c' = ⟨sys.leave t e a c.shared, update c.running t none⟩) := by
  cases l with
  | enter t e =>
    cases hr : c.running t with
    | some p => simp [System.step, hr] at h
    | none =>
      simp only [System.step, hr] at h
      split at h
      · rename_i hadm
        exact .inl ⟨t, e, rfl, hr, hadm, (Option.some.inj h).symm⟩
      · cases h
  | act t n =>
    rcases hr : c.running t with _ | ⟨e, p⟩
    · simp [System.step, hr] at h
    · cases p with
      | ret a => simp [System.step, hr] at h
      | act o k =>
        simp only [System.step, hr, Option.map_eq_some_iff] at h
        obtain ⟨⟨x, s'⟩, hexec, rfl⟩ := h
        exact .inr (.inl ⟨t, n, e, o, k, x, s', rfl, hr, hexec, rfl⟩)
  | leave t =>
    rcases hr : c.running t with _ | ⟨e, p⟩
    · simp [System.step, hr] at h
    · cases p with
      | act o k => simp [System.step, hr] at h
      | ret a =>
        simp only [System.step, hr] at h
        exact .inr (.inr ⟨t, e, a, rfl, hr, (Option.some.inj h).symm⟩)

theorem step_enter {t : Nat} {e : Entry} (h : sys.step c (.enter t e) = some c') :
    c.running t = none ∧ sys.allow e c.shared = true ∧
      c' = ⟨sys.enter t e c.shared, update c.running t (some (e, sys.code e))⟩ := by
  obtain ⟨_, _, heq, hstarts⟩ | ⟨_, _, _, _, _, _, _, heq, -⟩ | ⟨_, _, _, heq, -⟩ := step_cases h
  all_goals cases heq
  exact hstarts

theorem Steps.trans {a b d : Config Op Resp Entry Result σ} (hab : Steps sys C a b)
    (hbd : Steps sys C b d) : Steps sys C a d := by
  induction hbd with
  | refl => exact hab
  | tail l _ hstep hperm ih => exact ih.tail l hstep hperm

theorem Permits.imp {C' : Cond Op σ} (h : Permits C c c' l)
    (hC : ∀ t o, C t o c.shared c'.shared → C' t o c.shared c'.shared) : Permits C' c c' l := by
  cases l with
  | enter t e => exact trivial
  | act t n => exact fun e o k hr => hC t o (h e o k hr)
  | leave t => exact trivial

theorem Steps.mono {C' : Cond Op σ} (h : Steps sys C c c')
    (hC : ∀ t o s s', C t o s s' → C' t o s s') : Steps sys C' c c' := by
  induction h with
  | refl => exact .refl c
  | tail l _ hstep hperm ih => exact ih.tail l hstep (hperm.imp fun t o => hC t o _ _)

theorem System.run_append (ls ls' : List (Label Entry)) :
    sys.run (ls ++ ls') c = (sys.run ls c).bind (sys.run ls') := by
  induction ls generalizing c with
  | nil => rfl
  | cons l ls ih =>
    show (sys.step c l).bind (sys.run (ls ++ ls')) = ((sys.step c l).bind (sys.run ls)).bind _
    rw [Option.bind_assoc]
    exact congrArg _ (funext fun d => ih)

variable {ls : List (Label Entry)}

theorem steps_of_run (h : sys.run ls c = some c') : Steps sys anyStep c c' := by
  induction ls generalizing c with
  | nil => cases h; exact .refl _
  | cons l ls ih =>
    obtain ⟨d, hd, hrest⟩ := Option.bind_eq_some_iff.mp h
    exact ((Steps.refl c).tail l hd (permits_anyStep c d l)).trans (ih hrest)

theorem steps_of_runIf [∀ t o s s', Decidable (C t o s s')] (h : sys.runIf C ls c = some c') :
    Steps sys C c c' := by
  induction ls generalizing c with
  | nil => cases h; exact .refl _
  | cons l ls ih =>
    obtain ⟨d, hd, hrest⟩ := Option.bind_eq_some_iff.mp h
    cases l with
    | enter t e => exact ((Steps.refl c).tail _ hd trivial).trans (ih hrest)
    | leave t => exact ((Steps.refl c).tail _ hd trivial).trans (ih hrest)
    | act t n =>
      obtain ⟨e, o, k, hr⟩ : ∃ e o k, c.running t = some (e, .act o k) := by
        obtain ⟨_, _, hl, -⟩ | ⟨_, _, e, o, k, _, _, hl, hr, -⟩ | ⟨_, _, _, hl, -⟩ :=
          step_cases hd <;> cases hl
        exact ⟨e, o, k, hr⟩
      simp only [Config.next?, hr, Option.bind_some, Prog.next?_act] at hrest
      split at hrest
      · rename_i hC
        refine ((Steps.refl c).tail _ hd ?_).trans (ih hrest)
        intro e' o' k' hr'
        rw [hr] at hr'
        cases hr'
        exact hC
      · cases hrest

theorem run_of_runIf [∀ t o s s', Decidable (C t o s s')] (h : sys.runIf C ls c = some c') :
    sys.run ls c = some c' := by
  induction ls generalizing c with
  | nil => exact h
  | cons l ls ih =>
    obtain ⟨d, hd, hrest⟩ := Option.bind_eq_some_iff.mp h
    refine Option.bind_eq_some_iff.mpr ⟨d, hd, ?_⟩
    cases l with
    | enter t e => exact ih hrest
    | leave t => exact ih hrest
    | act t n =>
      simp only at hrest
      split at hrest
      · split at hrest
        · exact ih hrest
        · cases hrest
      · exact ih hrest

/-- The slot of an entry that a schedule never starts stays empty. -/
theorem running_of_run (h : sys.run ls c = some c') {t : Nat} (ht : c.running t = none)
    (hls : ∀ u e, Label.enter u e ∈ ls → u ≠ t) : c'.running t = none := by
  induction ls generalizing c with
  | nil => cases h; exact ht
  | cons l ls ih =>
    obtain ⟨d, hd, hrest⟩ := Option.bind_eq_some_iff.mp h
    refine ih hrest ?_ fun u e hu => hls u e (List.mem_cons_of_mem _ hu)
    obtain ⟨u, e, rfl, -, -, rfl⟩ | ⟨u, n, e, o, k, x, s', -, hr, -, rfl⟩ |
      ⟨u, e, a, -, hr, rfl⟩ := step_cases hd
    · have hut : t ≠ u := (hls u e List.mem_cons_self).symm
      simpa [hut] using ht
    · have hut : t ≠ u := by rintro rfl; rw [ht] at hr; cases hr
      simpa [hut] using ht
    · have hut : t ≠ u := by rintro rfl; rw [ht] at hr; cases hr
      simpa [hut] using ht

theorem System.alone_act {α : Type} {t n : Nat} {o : Op} {k : Resp o → Prog Op Resp α}
    {choices : List Nat} {s s' : σ} {x : Resp o} (h : sys.exec t o n s = some (x, s')) :
    sys.alone t (.act o k) (n :: choices) s = sys.alone t (k x) choices s' := by
  rw [System.alone, h]
  rfl

theorem run_of_alone {t : Nat} {e : Entry} {p : Prog Op Resp Result} {choices : List Nat} {s' : σ}
    {a : Result} (h : sys.alone t p choices c.shared = some (a, s'))
    (hr : c.running t = some (e, p)) : ∃ ls c', sys.run ls c = some c' ∧ c'.shared = s' ∧
      c'.running t = some (e, .ret a) := by
  induction p generalizing c choices with
  | ret b =>
    cases h
    exact ⟨[], c, rfl, rfl, hr⟩
  | act o k ih =>
    cases choices with
    | nil => cases h
    | cons n choices =>
      obtain ⟨⟨x, s₁⟩, hexec, hrest⟩ := Option.bind_eq_some_iff.mp h
      have hstep : sys.step c (.act t n) =
          some ⟨s₁, update c.running t (some (e, k x))⟩ := by
        simp only [System.step, hr, hexec]
        rfl
      obtain ⟨ls, c', hrun, hshared, hret⟩ :=
        ih x (c := ⟨s₁, update c.running t (some (e, k x))⟩) hrest (update_self ..)
      refine ⟨.act t n :: ls, c', ?_, hshared, hret⟩
      rw [System.run, hstep]
      exact hrun

/-- A bound that holds at the end of a run, on something no step decreases, holds after each of
its operations, so it may be assumed operation by operation. -/
theorem Steps.with_bound {B : σ → Prop} (h : Steps sys C c c') (hB : B c'.shared)
    (hback : ∀ {c l c'}, sys.step c l = some c' → B c'.shared → B c.shared) :
    Steps sys (fun t o s s' => C t o s s' ∧ B s') c c' := by
  induction h with
  | refl => exact .refl c
  | tail l _ hstep hperm ih =>
    exact (ih (hback hstep hB)).tail l hstep (hperm.imp fun _ _ h => ⟨h, hB⟩)

end Runs

/-! ## The proof rule -/

/-- What the entries of a system agree on: an invariant of the shared state, the part of it each
entry may rely on between its own operations, and the operations allowed under a view. -/
structure Protocol (Op σ ρ : Type) where
  inv : σ → Prop
  view : Nat → σ → ρ
  guar : Op → ρ → Prop

section Logic

variable {ρ : Type} (sys : System Op Resp Entry Result σ) (P : Protocol Op σ ρ) (C : Cond Op σ)
variable (t : Nat) {α β : Type}

/-- `Safe sys P C t Q p v`: entry `t`, running `p` from view `v` amid any interference that keeps
the invariant and its view, performs only allowed operations, keeps the invariant and every other
entry's view at each of them, and returns with `Q`. -/
def Safe (Q : α → ρ → Prop) : Prog Op Resp α → ρ → Prop
  | .ret a, v => Q a v
  | .act o k, v => P.guar o v ∧ ∀ s n x s', P.inv s → P.view t s = v →
      sys.exec t o n s = some (x, s') → C t o s s' →
      P.inv s' ∧ (∀ u, u ≠ t → P.view u s' = P.view u s) ∧ Safe Q (k x) (P.view t s')

variable {sys P C t}

variable {v : ρ} {p : Prog Op Resp α}

theorem safe_pure {Q : α → ρ → Prop} {a : α} (h : Q a v) : Safe sys P C t Q (pure a) v := h

theorem safe_mono {Q Q' : α → ρ → Prop} (h : Safe sys P C t Q p v) (hQ : ∀ a v, Q a v → Q' a v) :
    Safe sys P C t Q' p v := by
  induction p generalizing v with
  | ret a => exact hQ a v h
  | act o k ih =>
    refine ⟨h.1, fun s n x s' hi hv hx hC => ?_⟩
    obtain ⟨hi', hu, hk⟩ := h.2 s n x s' hi hv hx hC
    exact ⟨hi', hu, ih x hk⟩

variable {f : α → Prog Op Resp β} {Q : β → ρ → Prop}

/-- Sequencing: the continuation is safe from every view the first program returns with. -/
theorem safe_bind
    (h : Safe sys P C t (fun a w => Safe sys P C t Q (f a) w) p v) :
    Safe sys P C t Q (p >>= f) v := by
  induction p generalizing v with
  | ret a => exact h
  | act o k ih =>
    refine ⟨h.1, fun s n x s' hi hv hx hC => ?_⟩
    obtain ⟨hi', hu, hk⟩ := h.2 s n x s' hi hv hx hC
    exact ⟨hi', hu, ih x hk⟩

/-- Sequencing after a program whose specification `R` is already known. -/
theorem safe_bind_of {R : α → ρ → Prop}
    (hp : Safe sys P C t R p v) (hf : ∀ a w, R a w → Safe sys P C t Q (f a) w) :
    Safe sys P C t Q (p >>= f) v :=
  safe_bind (safe_mono hp hf)

theorem safe_then
    (h : Safe sys P C t (fun _ w => w = v) p v) (hf : ∀ a, Safe sys P C t Q (f a) v) :
    Safe sys P C t Q (p >>= f) v :=
  safe_bind_of h fun a _ hw => hw ▸ hf a

/-- What is safe depends on a system only through the meaning of its operations. -/
theorem safe_of_exec {sys' : System Op Resp Entry Result σ} (hexec : sys'.exec = sys.exec)
    {Q : α → ρ → Prop} (h : Safe sys P C t Q p v) : Safe sys' P C t Q p v := by
  induction p generalizing v with
  | ret a => exact h
  | act o k ih =>
    refine ⟨h.1, fun s n x s' hi hv hx hC => ?_⟩
    obtain ⟨hi', hu, hk⟩ := h.2 s n x s' hi hv (hexec ▸ hx) hC
    exact ⟨hi', hu, ih x hk⟩

/-- One operation: it is allowed, keeps the invariant and the views of the others. -/
theorem safe_op {o : Op} {Q : Resp o → ρ → Prop} (hg : P.guar o v)
    (h : ∀ s n x s', P.inv s → P.view t s = v → sys.exec t o n s = some (x, s') → C t o s s' →
      P.inv s' ∧ (∀ u, u ≠ t → P.view u s' = P.view u s) ∧ Q x (P.view t s')) :
    Safe sys P C t Q (Prog.op o) v := ⟨hg, h⟩

end Logic

section Soundness

variable {ρ : Type}

/-- What is left to prove about a system once its protocol is fixed: an idle entry may start any
admitted program, which is safe up to `post`, and leaving from `post` is idle again. -/
structure Sound (sys : System Op Resp Entry Result σ) (P : Protocol Op σ ρ) (C : Cond Op σ)
    (idle : ρ → Prop) (post : Entry → Result → ρ → Prop) : Prop where
  enter_ok : ∀ t e s, P.inv s → idle (P.view t s) → sys.allow e s = true →
    P.inv (sys.enter t e s) ∧ (∀ u, u ≠ t → P.view u (sys.enter t e s) = P.view u s) ∧
      Safe sys P C t (post e) (sys.code e) (P.view t (sys.enter t e s))
  leave_ok : ∀ t e a s, P.inv s → post e a (P.view t s) →
    P.inv (sys.leave t e a s) ∧ (∀ u, u ≠ t → P.view u (sys.leave t e a s) = P.view u s) ∧
      idle (P.view t (sys.leave t e a s))

/-- A configuration in order: the invariant holds, idle entries have an idle view, and what every
entry in flight has left to run is safe from its current view. -/
structure Good (sys : System Op Resp Entry Result σ) (P : Protocol Op σ ρ) (C : Cond Op σ)
    (idle : ρ → Prop) (post : Entry → Result → ρ → Prop) (c : Config Op Resp Entry Result σ) :
    Prop where
  inv : P.inv c.shared
  idle : ∀ t, c.running t = none → idle (P.view t c.shared)
  safe : ∀ t e p, c.running t = some (e, p) → Safe sys P C t (post e) p (P.view t c.shared)

variable {sys : System Op Resp Entry Result σ} {P : Protocol Op σ ρ} {C : Cond Op σ}
variable {idle : ρ → Prop} {post : Entry → Result → ρ → Prop}
variable {c c' : Config Op Resp Entry Result σ}

/-- Replacing one entry's slot keeps a configuration in order if the invariant, the other views
and that slot are in order afterwards. -/
theorem Good.update (h : Good sys P C idle post c) {t : Nat} {s' : σ}
    {slot : Option (Entry × Prog Op Resp Result)} (hinv : P.inv s')
    (hothers : ∀ u, u ≠ t → P.view u s' = P.view u c.shared)
    (hidle : slot = none → idle (P.view t s'))
    (hsafe : ∀ e p, slot = some (e, p) → Safe sys P C t (post e) p (P.view t s')) :
    Good sys P C idle post ⟨s', update c.running t slot⟩ where
  inv := hinv
  idle u hu := by
    by_cases hut : u = t
    · subst hut; exact hidle (by simpa using hu)
    · rw [hothers u hut]; exact h.idle u (by simpa [hut] using hu)
  safe u e p hu := by
    by_cases hut : u = t
    · subst hut; exact hsafe e p (by simpa using hu)
    · rw [hothers u hut]; exact h.safe u e p (by simpa [hut] using hu)

/-- Every scheduling decision keeps a configuration in order. -/
theorem Good.step (hs : Sound sys P C idle post) (h : Good sys P C idle post c)
    {l : Label Entry} (hstep : sys.step c l = some c') (hperm : Permits C c c' l) :
    Good sys P C idle post c' := by
  obtain ⟨t, e, rfl, hr, hadm, rfl⟩ | ⟨t, n, e, o, k, x, s', rfl, hr, hx, rfl⟩ |
    ⟨t, e, a, rfl, hr, rfl⟩ := step_cases hstep
  · obtain ⟨hi, hu, hsafe⟩ := hs.enter_ok t e _ h.inv (h.idle t hr) hadm
    exact h.update hi hu (by simp) (by rintro _ _ ⟨⟩; exact hsafe)
  · obtain ⟨hi, hu, hsafe⟩ := (h.safe t e _ hr).2 _ n x s' h.inv rfl hx (hperm e o k hr)
    exact h.update hi hu (by simp) (by rintro _ _ ⟨⟩; exact hsafe)
  · obtain ⟨hi, hu, hidle⟩ := hs.leave_ok t e a _ h.inv (h.safe t e _ hr)
    exact h.update hi hu (fun _ => hidle) (by simp)

/-- **Every interleaving is in order.** -/
theorem Sound.steps (hs : Sound sys P C idle post) (h : Steps sys C c c')
    (hc : Good sys P C idle post c) : Good sys P C idle post c' := by
  induction h with
  | refl => exact hc
  | tail l _ hstep hperm ih => exact ih.step hs hstep hperm

/-- What is known of every state of a run may be assumed at each of its operations. -/
theorem Sound.steps_with_inv (hs : Sound sys P C idle post) (h : Steps sys C c c')
    (hc : Good sys P C idle post c) :
    Steps sys (fun t o s s' => C t o s s' ∧ P.inv s ∧ P.inv s') c c' := by
  induction h with
  | refl => exact .refl c
  | @tail d d' l hsteps hstep hperm ih =>
    have hd := hs.steps hsteps hc
    exact ih.tail l hstep (hperm.imp fun _ _ h => ⟨h, hd.inv, (hd.step hs hstep hperm).inv⟩)

/-- The configuration with nothing in flight is in order as soon as its shared state is. -/
theorem good_start {s : σ} (hinv : P.inv s) (hidle : ∀ t, idle (P.view t s)) :
    Good sys P C idle post (System.start s) :=
  ⟨hinv, fun t _ => hidle t, fun _ _ _ h => by cases h⟩

theorem Good.guar (h : Good sys P C idle post c) {t : Nat} {o : Op} (ho : c.next? t = some o) :
    P.guar o (P.view t c.shared) := by
  obtain ⟨⟨e, p⟩, hr, hp⟩ := Option.bind_eq_some_iff.mp ho
  cases p with
  | ret a => cases hp
  | act o' k =>
    obtain rfl : o' = o := Option.some.inj hp
    exact (h.safe t e _ hr).1

end Soundness

end Interleave

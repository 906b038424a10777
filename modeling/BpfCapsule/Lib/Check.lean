import Mathlib.Data.List.Forall2
import Mathlib.Tactic.Common

/-!
# Sequences of checks

A checked computation stops with an error at the first check that fails. In `Except` an accepted run
passed every check (`bind_eq_ok`, `rejectIf_eq_ok`); in `EStateM` a check reads the state and never
changes it, so a computation whose checks all precede its assignments changes nothing when it fails
(`Restores.bind`).
-/

namespace Check

variable {ε σ α β : Type} {m : Type → Type}

/-- Stop with `e` when `c` holds. -/
def rejectIf [Monad m] [MonadExceptOf ε m] (c : Prop) [Decidable c] (e : ε) : m Unit :=
  if c then throwThe ε e else pure ()

variable {f : α → Except ε β} {e : ε} {c : Prop} {l : List α} {r : List β} {x : EStateM ε σ α}
    {s s' : σ}

theorem bind_eq_ok {x : Except ε α} {b : β} : (x >>= f) = .ok b ↔ ∃ a, x = .ok a ∧ f a = .ok b := by
  cases x with
  | error e => exact ⟨fun h => (nomatch h), fun ⟨_, h, _⟩ => (nomatch h)⟩
  | ok a => exact ⟨fun h => ⟨a, rfl, h⟩, fun ⟨_, ha, h⟩ => by cases ha; exact h⟩

theorem bind_eq_error {x : Except ε α} :
    (x >>= f) = .error e ↔ x = .error e ∨ ∃ a, x = .ok a ∧ f a = .error e := by
  cases x with
  | error e' =>
    exact ⟨fun h => .inl (by cases h; rfl), fun h => h.elim (fun h => by cases h; rfl)
      fun ⟨_, h, _⟩ => (nomatch h)⟩
  | ok a =>
    exact ⟨fun h => .inr ⟨a, rfl, h⟩, fun h => h.elim (nomatch ·) fun ⟨_, ha, h⟩ => by cases ha; exact h⟩

theorem rejectIf_eq_ok [Decidable c] {u : Unit} : (rejectIf c e : Except ε Unit) = .ok u ↔ ¬ c := by
  unfold rejectIf
  split
  · exact ⟨fun h => (nomatch h), fun h => absurd ‹c› h⟩
  · exact ⟨fun _ => ‹¬ c›, fun _ => rfl⟩

theorem rejectIf_eq_error [Decidable c] {e' : ε} :
    (rejectIf c e : Except ε Unit) = .error e' ↔ c ∧ e = e' := by
  unfold rejectIf
  split
  · exact ⟨fun h => ⟨‹c›, Except.error.inj h⟩, fun h => congrArg Except.error h.2⟩
  · exact ⟨fun h => (nomatch h), fun h => absurd h.1 ‹¬ c›⟩

theorem rejectIf_bind_eq_ok [Decidable c] {f : Unit → Except ε β} {b : β} :
    (rejectIf c e >>= f) = .ok b ↔ ¬ c ∧ f () = .ok b := by
  rw [bind_eq_ok]
  exact ⟨fun ⟨_, hc, hf⟩ => ⟨rejectIf_eq_ok.mp hc, hf⟩, fun ⟨hc, hf⟩ => ⟨(), rejectIf_eq_ok.mpr hc, hf⟩⟩

/-- What every accepted step keeps, an accepted fold keeps. -/
theorem foldlM_inv {f : β → α → Except ε β} (P : β → Prop)
    (hstep : ∀ b a b', f b a = .ok b' → P b → P b') (l : List α) {b b' : β}
    (h : l.foldlM f b = .ok b') (hb : P b) : P b' := by
  induction l generalizing b with
  | nil =>
    have hret : b = b' := Except.ok.inj h
    exact hret ▸ hb
  | cons a l ih =>
    rw [List.foldlM_cons, bind_eq_ok] at h
    obtain ⟨b₁, hfirst, hrest⟩ := h
    exact ih hrest (hstep b a b₁ hfirst hb)

/-- What the step over an element establishes and every later step keeps holds of every element
after an accepted fold. -/
theorem foldlM_forall {f : β → α → Except ε β} (Q : α → β → Prop)
    (hstep : ∀ b a b', f b a = .ok b' → Q a b')
    (hkeep : ∀ b a b' c, f b a = .ok b' → Q c b → Q c b') (l : List α) {b b' : β}
    (h : l.foldlM f b = .ok b') : ∀ a ∈ l, Q a b' := by
  induction l generalizing b with
  | nil => exact fun a ha => absurd ha List.not_mem_nil
  | cons a l ih =>
    rw [List.foldlM_cons, bind_eq_ok] at h
    obtain ⟨b₁, hfirst, hrest⟩ := h
    intro c hc
    rcases List.mem_cons.mp hc with rfl | hc
    · exact foldlM_inv (Q c) (fun b a b' => hkeep b a b' c) l hrest (hstep b c b₁ hfirst)
    · exact ih hrest c hc

theorem forM_eq_ok {f : α → Except ε PUnit} (h : ∀ a ∈ l, f a = .ok ()) : l.forM f = .ok () := by
  induction l with
  | nil => rfl
  | cons a l ih =>
    show (f a >>= fun _ => l.forM f) = .ok ()
    rw [h a (List.mem_cons_self ..)]
    exact ih fun b hb => h b (List.mem_cons_of_mem _ hb)

theorem of_forM_eq_ok {f : α → Except ε PUnit} (h : l.forM f = .ok ()) : ∀ a ∈ l, f a = .ok () := by
  induction l with
  | nil => exact fun a ha => absurd ha List.not_mem_nil
  | cons a l ih =>
    have hbind : (f a >>= fun _ => l.forM f) = .ok () := h
    obtain ⟨_, hfirst, hrest⟩ := bind_eq_ok.mp hbind
    intro b hb
    rcases List.mem_cons.mp hb with rfl | hb
    · exact hfirst
    · exact ih hrest b hb

theorem forall₂_of_mapM_eq_ok (h : l.mapM f = .ok r) : List.Forall₂ (fun a b => f a = .ok b) l r := by
  induction l generalizing r with
  | nil =>
    cases Except.ok.inj h
    exact .nil
  | cons a l ih =>
    rw [List.mapM_cons] at h
    obtain ⟨b, hfirst, hrest⟩ := bind_eq_ok.mp h
    obtain ⟨r', htail, hret⟩ := bind_eq_ok.mp hrest
    cases Except.ok.inj hret
    exact .cons hfirst (ih htail)

theorem of_mapM_eq_ok (h : l.mapM f = .ok r) : ∀ a ∈ l, ∃ b ∈ r, f a = .ok b := by
  intro a ha
  obtain ⟨i, hi, rfl⟩ := List.getElem_of_mem ha
  have hall := forall₂_of_mapM_eq_ok h
  exact ⟨_, List.getElem_mem (hall.length_eq ▸ hi), hall.get hi (hall.length_eq ▸ hi)⟩

theorem length_of_mapM_eq_ok (h : l.mapM f = .ok r) : r.length = l.length :=
  (forall₂_of_mapM_eq_ok h).length_eq.symm

theorem getElem?_of_mapM_eq_ok (h : l.mapM f = .ok r) {i : Nat} {a : α} {b : β}
    (ha : l[i]? = some a) (hb : r[i]? = some b) : f a = .ok b := by
  obtain ⟨hi, rfl⟩ := List.getElem?_eq_some_iff.mp ha
  obtain ⟨hi', rfl⟩ := List.getElem?_eq_some_iff.mp hb
  exact (forall₂_of_mapM_eq_ok h).get hi hi'

/-! ## Checks before the first assignment -/

def Reads (x : EStateM ε σ α) : Prop := ∀ s, (∃ a, x s = .ok a s) ∨ ∃ e, x s = .error e s

def Restores (x : EStateM ε σ α) : Prop := ∀ s e s', x s = .error e s' → s' = s

theorem Reads.get : Reads (get : EStateM ε σ σ) := fun s => .inl ⟨s, rfl⟩

theorem Reads.pure (a : α) : Reads (pure a : EStateM ε σ α) := fun _ => .inl ⟨a, rfl⟩

theorem Reads.rejectIf (c : Prop) [Decidable c] (e : ε) :
    Reads (rejectIf c e : EStateM ε σ Unit) := by
  intro s
  unfold Check.rejectIf
  split
  · exact .inr ⟨e, rfl⟩
  · exact .inl ⟨(), rfl⟩

variable {f : α → EStateM ε σ β}

theorem Reads.bind (hx : Reads x) (hf : ∀ a, Reads (f a)) : Reads (x >>= f) := by
  intro s
  show (∃ b, EStateM.bind x f s = .ok b s) ∨ ∃ e, EStateM.bind x f s = .error e s
  unfold EStateM.bind
  obtain ⟨a, ha⟩ | ⟨e, he⟩ := hx s
  · rw [ha]
    exact hf a s
  · rw [he]
    exact .inr ⟨e, rfl⟩

theorem Restores.set (s : σ) : Restores (set s : EStateM ε σ PUnit) :=
  fun _ _ _ h => (nomatch h)

theorem Restores.bind (hx : Reads x) (hf : ∀ a, Restores (f a)) : Restores (x >>= f) := by
  intro s e s' h
  change EStateM.bind x f s = .error e s' at h
  unfold EStateM.bind at h
  obtain ⟨a, ha⟩ | ⟨e₀, he⟩ := hx s
  · rw [ha] at h
    exact hf a s e s' h
  · rw [he] at h
    exact (EStateM.Result.error.inj h).2.symm

theorem rejectIf_bind_run [Decidable c] {f : Unit → EStateM ε σ α} :
    (rejectIf c e >>= f) s = if c then .error e s else f () s := by
  unfold rejectIf
  split <;> rfl

theorem bind_run_ok {a : α} (h : x s = .ok a s') : (x >>= f) s = f a s' := by
  show EStateM.bind x f s = _
  rw [EStateM.bind, h]

theorem bind_run_error (h : x s = .error e s') : (x >>= f) s = .error e s' := by
  show EStateM.bind x f s = _
  rw [EStateM.bind, h]

theorem get_bind_run {f : σ → EStateM ε σ α} : ((get : EStateM ε σ σ) >>= f) s = f s s := rfl

/-! ## What a run ends in -/

/-- The run of `x` from `s` returns with `Q` or stops with `E`. -/
def Post (x : EStateM ε σ α) (s : σ) (Q : α → σ → Prop) (E : ε → σ → Prop) : Prop :=
  match x s with
  | .ok a s' => Q a s'
  | .error e s' => E e s'

namespace Post

variable {E : ε → σ → Prop}

theorem of_ok {Q : α → σ → Prop} {a : α} (h : Post x s Q E) (hx : x s = .ok a s') : Q a s' := by
  unfold Post at h
  rwa [hx] at h

theorem of_error {Q : α → σ → Prop} (h : Post x s Q E) (hx : x s = .error e s') : E e s' := by
  unfold Post at h
  rwa [hx] at h

theorem bind {Q : β → σ → Prop}
    (h : Post x s (fun a s' => Post (f a) s' Q E) E) : Post (x >>= f) s Q E := by
  show match EStateM.bind x f s with
    | .ok a s' => Q a s'
    | .error e s' => E e s'
  unfold Post at h
  unfold EStateM.bind
  cases hx : x s with
  | ok a s' =>
    rw [hx] at h
    exact h
  | error e s' =>
    rw [hx] at h
    exact h

theorem imp {Q Q' : α → σ → Prop} {E' : ε → σ → Prop} (h : Post x s Q E)
    (hQ : ∀ a s', Q a s' → Q' a s') (hE : ∀ e s', E e s' → E' e s') : Post x s Q' E' := by
  unfold Post at h ⊢
  cases hx : x s with
  | ok a s' =>
    rw [hx] at h
    exact hQ a s' h
  | error e s' =>
    rw [hx] at h
    exact hE e s' h

theorem mono {Q Q' : α → σ → Prop} (h : Post x s Q E) (hQ : ∀ a s', Q a s' → Q' a s') :
    Post x s Q' E :=
  h.imp hQ fun _ _ => id

theorem get {Q : σ → σ → Prop} (h : Q s s) : Post MonadState.get s Q E := h

theorem set {Q : PUnit → σ → Prop} (h : Q ⟨⟩ s') : Post (MonadStateOf.set s') s Q E := h

theorem rejectIf [Decidable c] {Q : Unit → σ → Prop} (hE : c → E e s)
    (hQ : ¬ c → Q () s) : Post (Check.rejectIf c e) s Q E := by
  unfold Check.rejectIf
  split
  next h => exact hE h
  next h => exact hQ h

end Post

/-- The run of `x` from `s` ends in `s'`, with a result or with an error. -/
def Ends (x : EStateM ε σ α) (s s' : σ) : Prop :=
  (∃ a, x s = .ok a s') ∨ ∃ e, x s = .error e s'

theorem Ends.of_post {Q : α → σ → Prop} {E : ε → σ → Prop} {P : σ → Prop} (h : Ends x s s')
    (hpost : Post x s Q E) (hQ : ∀ a, Q a s' → P s') (hE : ∀ e, E e s' → P s') : P s' := by
  obtain ⟨a, ha⟩ | ⟨e, he⟩ := h
  · exact hQ a (hpost.of_ok ha)
  · exact hE e (hpost.of_error he)

end Check

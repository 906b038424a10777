import Mathlib.Tactic.Common

/-!
# Bounded loops that can stop early

A body takes a state to the next one, emits events and says whether to stop. Nested bounded loops
over one body are one loop over it: `loop_loop` multiplies the bounds, `loop_add` adds them.
-/

namespace BoundedLoop

variable {σ ε : Type*}

/-- The state after the body, what it emitted, and whether it asks to stop. -/
structure Result (σ ε : Type*) where
  state : σ
  events : List ε
  stop : Bool

/-- Run `first` and, unless it stops, `second`. -/
def andThen (first second : σ → Result σ ε) (s : σ) : Result σ ε :=
  let r := first s
  if r.stop then r
  else
    let r' := second r.state
    ⟨r'.state, r.events ++ r'.events, r'.stop⟩

/-- Run the body at most `n` times. -/
def loop (body : σ → Result σ ε) : Nat → σ → Result σ ε
  | 0, s => ⟨s, [], false⟩
  | n + 1, s => andThen body (loop body n) s

theorem andThen_assoc (a b c : σ → Result σ ε) :
    andThen (andThen a b) c = andThen a (andThen b c) := by
  funext s
  unfold andThen
  cases ha : (a s).stop with
  | true => simp [ha]
  | false =>
    cases hb : (b (a s).state).stop with
    | true => simp [ha, hb]
    | false => simp [ha, hb, List.append_assoc]

theorem andThen_skip (a : σ → Result σ ε) : andThen (fun s => ⟨s, [], false⟩) a = a := by
  funext s
  simp [andThen]

theorem loop_one (body : σ → Result σ ε) : loop body 1 = body := by
  funext s
  show andThen body (fun s => ⟨s, [], false⟩) s = body s
  unfold andThen
  obtain ⟨state, events, stop⟩ := body s
  cases stop <;> simp

theorem loop_add (body : σ → Result σ ε) (m n : Nat) :
    loop body (m + n) = andThen (loop body m) (loop body n) := by
  induction m with
  | zero =>
    rw [Nat.zero_add]
    exact (andThen_skip _).symm
  | succ m ih =>
    rw [Nat.succ_add]
    show andThen body (loop body (m + n)) = andThen (andThen body (loop body m)) (loop body n)
    rw [ih, andThen_assoc]

/-- A loop of loops is one loop. -/
theorem loop_loop (body : σ → Result σ ε) (m n : Nat) :
    loop (loop body n) m = loop body (m * n) := by
  induction m with
  | zero =>
    rw [Nat.zero_mul]
    rfl
  | succ m ih =>
    show andThen (loop body n) (loop (loop body n) m) = loop body ((m + 1) * n)
    rw [ih, Nat.succ_mul, Nat.add_comm, loop_add]

/-- A loop that stopped does the same with a larger bound. -/
theorem loop_of_stop {body : σ → Result σ ε} {m n : Nat} {s : σ} (hle : m ≤ n)
    (hstop : (loop body m s).stop = true) : loop body n s = loop body m s := by
  obtain ⟨k, rfl⟩ := Nat.exists_eq_add_of_le hle
  rw [loop_add]
  show (if (loop body m s).stop then loop body m s else _) = loop body m s
  rw [if_pos hstop]

/-- What every run of the body keeps, a loop keeps; `emitted` is what came before. -/
theorem loop_invariant {body : σ → Result σ ε} {P : List ε → σ → Prop}
    (hbody : ∀ emitted s, P emitted s → P (emitted ++ (body s).events) (body s).state)
    (n : Nat) {emitted : List ε} {s : σ} (h : P emitted s) :
    P (emitted ++ (loop body n s).events) (loop body n s).state := by
  induction n generalizing emitted s with
  | zero =>
    show P (emitted ++ []) s
    rwa [List.append_nil]
  | succ n ih =>
    show P (emitted ++ (andThen body (loop body n) s).events) (andThen body (loop body n) s).state
    unfold andThen
    cases hstop : (body s).stop with
    | true =>
      simp only [hstop, if_true]
      exact hbody emitted s h
    | false =>
      have hrest := ih (hbody emitted s h)
      rw [List.append_assoc] at hrest
      simp only [hstop, Bool.false_eq_true, if_false]
      exact hrest

end BoundedLoop

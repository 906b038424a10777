import Mathlib.Data.List.Forall2
import Mathlib.Data.List.Induction
import Mathlib.Logic.Function.Basic

/-!
# Linearizability from linearization points

Threads call operations that are carried out in several steps, and the steps of different threads
interleave in any order. The run is stamped with a clock, the number of steps taken, so that a call
that returned before another began carries the smaller stamps.

`Linearizes` says that a run is equivalent to carrying the operations out one after the other: there
is an order of them that gives the same results and the same memory, and each operation has its place
in that order at one of the steps between its call and its return. `Points` is what has to be shown of
each step on its own; `Points.linearizes` is the rule.
-/

namespace Linearize

universe u

variable {Mem Op Res : Type} {T : Type u}

abbrev Object (Mem Op Res : Type) := Op → Mem → Mem × Res

def Object.run (A : Object Mem Op Res) : List Op → Mem → Mem × List Res
  | [], m => (m, [])
  | op :: ops, m => ((A.run ops (A op m).1).1, (A op m).2 :: (A.run ops (A op m).1).2)

theorem Object.run_append (A : Object Mem Op Res) (ops : List Op) (op : Op) (m : Mem) :
    A.run (ops ++ [op]) m =
      ((A op (A.run ops m).1).1, (A.run ops m).2 ++ [(A op (A.run ops m).1).2]) := by
  induction ops generalizing m with
  | nil => rfl
  | cons o ops ih =>
    show ((A.run (ops ++ [op]) (A o m).1).1, _ :: (A.run (ops ++ [op]) (A o m).1).2) = _
    rw [ih]
    rfl

/-- The operations in steps: a step is one access of the memory, and ends in a state of the
operation or in its result. -/
structure Implementation (Mem Op Res : Type) where
  Local : Type
  call : Op → Local
  step : Local → Mem → Mem × (Local ⊕ Res)

/-! ## Threads -/

structure Call (Op Res : Type) where
  op : Op
  result : Res
  called : Nat
  returned : Nat

variable (I : Implementation Mem Op Res)

structure Pending where
  op : Op
  state : I.Local
  called : Nat

structure Thread where
  returned : List (Call Op Res)
  pending : Option (Pending I)

structure State (T : Type u) where
  mem : Mem
  clock : Nat
  threads : T → Thread I

def start (T : Type u) (m : Mem) : State I T :=
  ⟨m, 0, fun _ => ⟨[], none⟩⟩

abbrev Program (T : Type u) (Op Res : Type) := T → List Res → Option Op

variable {I} (program : Program T Op Res)

/-- The operation a thread is in, or the one it calls at time `now`. -/
def current (t : T) (now : Nat) (th : Thread I) : Option (Pending I) :=
  match th.pending with
  | some p => some p
  | none => (program t (th.returned.map Call.result)).map fun op => ⟨op, I.call op, now⟩

/-- The thread after a step of the operation `p`. -/
def Thread.after (th : Thread I) (p : Pending I) (now : Nat) : I.Local ⊕ Res → Thread I
  | .inl l => ⟨th.returned, some ⟨p.op, l, p.called⟩⟩
  | .inr r => ⟨th.returned ++ [⟨p.op, r, p.called, now⟩], none⟩

/-! ## Orders -/

/-- An operation of a thread that takes effect in the step made at `time`. -/
structure Point (T : Type u) (Op Res : Type) where
  thread : T
  op : Op
  result : Res
  time : Nat

/-- The point is one of the call: it lies between the call and its return. -/
structure Point.Of (e : Point T Op Res) (c : Call Op Res) : Prop where
  op : e.op = c.op
  result : e.result = c.result
  called : c.called ≤ e.time
  returned : e.time ≤ c.returned

/-- The points of a thread are one for each call that has returned, in the order of the calls, and
at most one more, for the call that has not. -/
def Covers (points : List (Point T Op Res)) (th : Thread I) : Prop :=
  ∃ done rest, points = done ++ rest ∧ List.Forall₂ Point.Of done th.returned ∧
    (rest = [] ∨ ∃ e p, rest = [e] ∧ th.pending = some p ∧ e.op = p.op ∧ p.called ≤ e.time)

/-- Every call that has returned has its point. -/
theorem Covers.exists_point {points : List (Point T Op Res)} {th : Thread I} (h : Covers points th)
    {c : Call Op Res} (hc : c ∈ th.returned) : ∃ e ∈ points, e.Of c := by
  obtain ⟨done, rest, rfl, hdone, _⟩ := h
  generalize th.returned = calls at hdone hc
  induction hdone with
  | nil => simp at hc
  | @cons e c' done calls he _ ih =>
    rcases List.mem_cons.mp hc with rfl | hc
    · exact ⟨e, by simp, he⟩
    · obtain ⟨e', he', hof⟩ := ih hc
      exact ⟨e', List.mem_cons_of_mem _ he', hof⟩

/-! ## Points -/

/-- What a step may do in an operation that has taken effect with result `d`, if it has. -/
inductive Allowed (A : Object Mem Op Res) (decided : I.Local → Option Res)
    (Inv : Op → I.Local → Prop) (op : Op) (d : Option Res) (m : Mem) :
    Mem × (I.Local ⊕ Res) → Prop
  | wait {l : I.Local} (hl : Inv op l) (hd : decided l = d) : Allowed A decided Inv op d m (m, .inl l)
  | take {l : I.Local} {m' : Mem} {r : Res} (hl : Inv op l) (hd : d = none) (hr : decided l = some r)
    (heffect : A op m = (m', r)) : Allowed A decided Inv op d m (m', .inl l)
  | finish {m' : Mem} {r : Res} (hd : d = none) (heffect : A op m = (m', r)) :
    Allowed A decided Inv op d m (m', .inr r)
  | give {r : Res} (hd : d = some r) : Allowed A decided Inv op d m (m, .inr r)

/-- The linearization points of an implementation: `decided` is the result of an operation that has
taken effect and has not returned yet. -/
structure Points (A : Object Mem Op Res) (I : Implementation Mem Op Res) where
  decided : I.Local → Option Res
  Inv : Op → I.Local → Prop
  inv_call : ∀ op, Inv op (I.call op)
  decided_call : ∀ op, decided (I.call op) = none
  allowed : ∀ op l m, Inv op l → Allowed A decided Inv op (decided l) m (I.step l m)

namespace Points

variable {A : Object Mem Op Res} (P : Points A I)

/-- The points `rest` are those of the unfinished call `p`. -/
structure At (now : Nat) (p : Pending I) (rest : List (Point T Op Res)) : Prop where
  inv : P.Inv p.op p.state
  called : p.called ≤ now
  undecided : P.decided p.state = none → rest = []
  decided : ∀ r, P.decided p.state = some r →
    ∃ e : Point T Op Res, rest = [e] ∧ e.op = p.op ∧ e.result = r ∧ p.called ≤ e.time ∧ e.time < now

/-- `Covers`, and the unfinished call has its point exactly if it has taken effect. -/
def Holds (now : Nat) (points : List (Point T Op Res)) (th : Thread I) : Prop :=
  ∃ done rest, points = done ++ rest ∧ List.Forall₂ Point.Of done th.returned ∧
    match th.pending with
    | none => rest = []
    | some p => P.At now p rest

variable {P}

variable {now : Nat} {p : Pending I} {points : List (Point T Op Res)} {th : Thread I}

theorem At.mono {rest : List (Point T Op Res)} (h : P.At now p rest) : P.At (now + 1) p rest where
  inv := h.inv
  called := Nat.le_succ_of_le h.called
  undecided := h.undecided
  decided r hr := by
    obtain ⟨e, he, hop, hres, hcalled, hlt⟩ := h.decided r hr
    exact ⟨e, he, hop, hres, hcalled, Nat.lt_succ_of_lt hlt⟩

theorem Holds.mono (h : P.Holds now points th) : P.Holds (now + 1) points th := by
  obtain ⟨done, rest, hpoints, hdone, hrest⟩ := h
  refine ⟨done, rest, hpoints, hdone, ?_⟩
  cases hp : th.pending with
  | none => simpa only [hp] using hrest
  | some p =>
    rw [hp] at hrest
    exact At.mono hrest

theorem Holds.covers (h : P.Holds now points th) : Covers points th := by
  obtain ⟨done, rest, hpoints, hdone, hrest⟩ := h
  refine ⟨done, rest, hpoints, hdone, ?_⟩
  cases hp : th.pending with
  | none =>
    rw [hp] at hrest
    exact .inl hrest
  | some p =>
    rw [hp] at hrest
    cases hd : P.decided p.state with
    | none => exact .inl (hrest.undecided hd)
    | some r =>
      obtain ⟨e, he, hop, _, hcalled, _⟩ := hrest.decided r hd
      exact .inr ⟨e, p, he, rfl, hop, hcalled⟩

variable {t : T}

/-- The operation a thread is in, whether it called it before or calls it now. -/
theorem Holds.current (h : P.Holds now points th) (hp : current program t now th = some p) :
    ∃ done rest, points = done ++ rest ∧ List.Forall₂ Point.Of done th.returned ∧ P.At now p rest := by
  obtain ⟨done, rest, hpoints, hdone, hrest⟩ := h
  refine ⟨done, rest, hpoints, hdone, ?_⟩
  unfold Linearize.current at hp
  cases hpending : th.pending with
  | some q =>
    rw [hpending] at hp hrest
    cases hp
    exact hrest
  | none =>
    rw [hpending] at hp hrest
    obtain ⟨op, _, rfl⟩ := Option.map_eq_some_iff.mp hp
    have hnone := P.decided_call op
    exact ⟨P.inv_call op, Nat.le_refl now, fun _ => hrest, fun r hr => by simp [hnone] at hr⟩

/-- The points a step of the thread adds, and the memory it leaves. -/
inductive Effect (A : Object Mem Op Res) (t : T) (now : Nat) (m : Mem) :
    Mem → List (Point T Op Res) → Prop
  | silent : Effect A t now m m []
  | point {op : Op} {m' : Mem} {r : Res} (heffect : A op m = (m', r)) :
    Effect A t now m m' [⟨t, op, r, now⟩]

variable {extra : List (Point T Op Res)}

theorem Effect.of_mem {m m' : Mem}
    (h : Effect A t now m m' extra) {e : Point T Op Res} (he : e ∈ extra) :
    e.time = now ∧ A e.op m = (m', e.result) := by
  cases h with
  | silent => simp at he
  | point heffect =>
    rw [List.mem_singleton.mp he]
    exact ⟨rfl, heffect⟩

theorem Effect.eq_of_forall_ne {m m' : Mem}
    (h : Effect A t now m m' extra) (hno : ∀ e ∈ extra, e.time ≠ now) : m' = m := by
  cases h with
  | silent => rfl
  | point _ => exact absurd rfl (hno _ (List.mem_singleton_self _))

/-- A step of an operation adds its point if it takes effect there. -/
theorem At.after {done rest : List (Point T Op Res)}
    (hdone : List.Forall₂ Point.Of done th.returned) (hp : P.At now p rest) (m : Mem) :
    ∃ extra, Effect A t now m (I.step p.state m).1 extra ∧
      P.Holds (now + 1) (done ++ rest ++ extra) (th.after p now (I.step p.state m).2) := by
  have hallowed := P.allowed p.op p.state m hp.inv
  generalize I.step p.state m = out at hallowed
  cases hallowed with
  | wait hl hd =>
    refine ⟨[], .silent, done, rest, by simp, hdone, ?_⟩
    have hmono := hp.mono
    exact ⟨hl, hmono.called, fun h => hp.undecided (hd ▸ h), fun r hr => hmono.decided r (hd ▸ hr)⟩
  | @take l m' r hl hd hr heffect =>
    have hrest := hp.undecided hd
    refine ⟨_, .point heffect, done, [⟨t, p.op, r, now⟩], by simp [hrest], hdone, ?_⟩
    refine ⟨hl, Nat.le_succ_of_le hp.called, fun h => by simp [hr] at h, fun r' hr' => ?_⟩
    have hrr : r = r' := Option.some.inj (hr.symm.trans hr')
    exact ⟨_, rfl, rfl, hrr, hp.called, Nat.lt_succ_self now⟩
  | @finish m' r hd heffect =>
    have hrest := hp.undecided hd
    refine ⟨_, .point heffect, done ++ [⟨t, p.op, r, now⟩], [], by simp [hrest], ?_, rfl⟩
    exact List.rel_append hdone (.cons ⟨rfl, rfl, hp.called, Nat.le_refl now⟩ .nil)
  | @give r hd =>
    obtain ⟨e, he, hop, hres, hcalled, hlt⟩ := hp.decided r hd
    refine ⟨[], .silent, done ++ [e], [], by simp [he], ?_, rfl⟩
    exact List.rel_append hdone (.cons ⟨hop, hres, hcalled, Nat.le_of_lt hlt⟩ .nil)

end Points

/-! ## Schedules -/

variable [DecidableEq T]

def step (s : State I T) (t : T) : State I T :=
  match current program t s.clock (s.threads t) with
  | none => ⟨s.mem, s.clock + 1, s.threads⟩
  | some p =>
    ⟨(I.step p.state s.mem).1, s.clock + 1,
      Function.update s.threads t ((s.threads t).after p s.clock (I.step p.state s.mem).2)⟩

def run (s : State I T) (schedule : List T) : State I T := schedule.foldl (step program) s

@[simp] theorem clock_step (s : State I T) (t : T) : (step program s t).clock = s.clock + 1 := by
  unfold step
  split <;> rfl

theorem run_append (s : State I T) (schedule : List T) (t : T) :
    run program s (schedule ++ [t]) = step program (run program s schedule) t := by
  simp [run]

theorem clock_run (m : Mem) (schedule : List T) :
    (run program (start I T m) schedule).clock = schedule.length := by
  induction schedule using List.reverseRecOn with
  | nil => rfl
  | append_singleton schedule t ih =>
    rw [run_append, clock_step, ih, List.length_append, List.length_singleton]

/-! A thread that runs alone returns if its operation does. -/

/-- The operation returns within `n` steps if nothing else runs. -/
def Implementation.ReturnsIn (I : Implementation Mem Op Res) : Nat → I.Local → Mem → Prop
  | 0, _, _ => False
  | n + 1, l, m =>
    match (I.step l m).2 with
    | .inr _ => True
    | .inl l' => I.ReturnsIn n l' (I.step l m).1

variable {n : Nat} {s : State I T} {p : Pending I} {m : Mem}

theorem returnsIn_of_inr {l : I.Local} {r : Res} (h : (I.step l m).2 = .inr r) :
    I.ReturnsIn (n + 1) l m := by
  simp only [Implementation.ReturnsIn, h]

theorem returnsIn_of_inl {l l' : I.Local} {m' : Mem} (h : I.step l m = (m', .inl l'))
    (hn : I.ReturnsIn n l' m') : I.ReturnsIn (n + 1) l m := by
  simp only [Implementation.ReturnsIn, h]
  exact hn

theorem Implementation.ReturnsIn.next {l l' : I.Local} (h : I.ReturnsIn (n + 1) l m)
    (hout : (I.step l m).2 = .inl l') : I.ReturnsIn n l' (I.step l m).1 := by
  simpa only [Implementation.ReturnsIn, hout] using h

variable {t : T}

theorem step_of_current (hp : current program t s.clock (s.threads t) = some p) :
    step program s t = ⟨(I.step p.state s.mem).1, s.clock + 1,
      Function.update s.threads t ((s.threads t).after p s.clock (I.step p.state s.mem).2)⟩ := by
  simp only [step, hp]

theorem threads_step_of_current (hp : current program t s.clock (s.threads t) = some p) (t' : T) :
    (step program s t).threads t' =
      if t' = t then (s.threads t).after p s.clock (I.step p.state s.mem).2 else s.threads t' := by
  rw [step_of_current program hp]
  exact Function.update_apply ..

/-- A step keeps what has returned. -/
theorem length_returned_step_le (s : State I T) (t t' : T) :
    (s.threads t').returned.length ≤ ((step program s t).threads t').returned.length := by
  cases hp : current program t s.clock (s.threads t) with
  | none => simp only [step, hp, Nat.le_refl]
  | some p =>
    rw [threads_step_of_current program hp]
    split
    next h =>
      subst h
      cases (I.step p.state s.mem).2 <;> simp [Thread.after]
    next => exact Nat.le_refl _

theorem length_returned_run_le (s : State I T) (schedule : List T) (t' : T) :
    (s.threads t').returned.length ≤ ((run program s schedule).threads t').returned.length := by
  induction schedule generalizing s with
  | nil => exact Nat.le_refl _
  | cons t schedule ih => exact Nat.le_trans (length_returned_step_le program s t t') (ih _)

theorem returned_of_alone (hp : current program t s.clock (s.threads t) = some p)
    (hn : I.ReturnsIn n p.state s.mem) :
    (s.threads t).returned.length <
      ((run program s (List.replicate n t)).threads t).returned.length := by
  induction n generalizing s p with
  | zero => exact hn.elim
  | succ n ih =>
    have hthread := threads_step_of_current program hp t
    rw [if_pos rfl] at hthread
    show _ < ((run program (step program s t) (List.replicate n t)).threads t).returned.length
    cases hout : (I.step p.state s.mem).2 with
    | inr r =>
      refine Nat.lt_of_lt_of_le ?_ (length_returned_run_le program _ _ t)
      rw [hthread, hout]
      simp [Thread.after]
    | inl l =>
      have hnext : current program t (step program s t).clock ((step program s t).threads t) =
          some ⟨p.op, l, p.called⟩ := by
        rw [hthread, hout]
        rfl
      have hlt := ih hnext (by rw [step_of_current program hp]; exact hn.next hout)
      refine Nat.lt_of_le_of_lt ?_ hlt
      exact length_returned_step_le program s t t

variable (I) in
/-- The run of the schedule is the sequential execution `order`. -/
structure Linearizes (A : Object Mem Op Res) (m : Mem) (schedule : List T)
    (order : List (Point T Op Res)) : Prop where
  sequential : A.run (order.map Point.op) m =
    ((run program (start I T m) schedule).mem, order.map Point.result)
  increasing : order.Pairwise fun e e' => e.time < e'.time
  before : ∀ e ∈ order, e.time < schedule.length
  covers : ∀ t, Covers (order.filter fun e => e.thread = t)
    ((run program (start I T m) schedule).threads t)
  /-- The operation has its effect and its result in the step made at its time, … -/
  effect : ∀ e ∈ order, A e.op (run program (start I T m) (schedule.take e.time)).mem =
    ((run program (start I T m) (schedule.take (e.time + 1))).mem, e.result)
  /-- … and the other steps leave the memory alone. -/
  silent : ∀ k < schedule.length, (∀ e ∈ order, e.time ≠ k) →
    (run program (start I T m) (schedule.take (k + 1))).mem =
      (run program (start I T m) (schedule.take k)).mem

theorem Linearizes.exists_point {A : Object Mem Op Res} {schedule : List T}
    {order : List (Point T Op Res)} (h : Linearizes I program A m schedule order)
    {c : Call Op Res} (hc : c ∈ ((run program (start I T m) schedule).threads t).returned) :
    ∃ e ∈ order, e.Of c := by
  obtain ⟨e, he, hof⟩ := (h.covers t).exists_point hc
  exact ⟨e, (List.mem_filter.mp he).1, hof⟩

/-! ## The rule -/

namespace Points

variable {A : Object Mem Op Res} {P : Points A I}

variable (P) in
structure Invariant (m : Mem) (s : State I T) (order : List (Point T Op Res)) : Prop where
  sequential : A.run (order.map Point.op) m = (s.mem, order.map Point.result)
  increasing : order.Pairwise fun e e' => e.time < e'.time
  before : ∀ e ∈ order, e.time < s.clock
  threads : ∀ t, P.Holds s.clock (order.filter fun e => e.thread = t) (s.threads t)

theorem Invariant.start (m : Mem) : P.Invariant m (start I T m) [] where
  sequential := rfl
  increasing := .nil
  before _ h := by simp at h
  threads _ := ⟨[], [], rfl, .nil, rfl⟩

/-- Adding the points of a step keeps the order sequential and increasing. -/
theorem Invariant.extend {m' : Mem} {order extra : List (Point T Op Res)}
    (h : P.Invariant m s order) (heffect : Effect A t s.clock s.mem m' extra) :
    A.run ((order ++ extra).map Point.op) m = (m', (order ++ extra).map Point.result) ∧
      (order ++ extra).Pairwise (fun e e' => e.time < e'.time) ∧
      ∀ e ∈ order ++ extra, e.time < s.clock + 1 := by
  have hbefore : ∀ e ∈ order, e.time < s.clock + 1 := fun e he => Nat.lt_succ_of_lt (h.before e he)
  cases heffect with
  | silent =>
    rw [List.append_nil]
    exact ⟨h.sequential, h.increasing, hbefore⟩
  | point heffect =>
    refine ⟨?_, ?_, ?_⟩
    · simp only [List.map_append, List.map_cons, List.map_nil]
      rw [Object.run_append, h.sequential, heffect]
    · rw [List.pairwise_append]
      refine ⟨h.increasing, List.pairwise_singleton _ _, fun e he e' he' => ?_⟩
      rw [List.mem_singleton.mp he']
      exact h.before e he
    · intro e he
      rcases List.mem_append.mp he with he | he
      · exact hbefore e he
      · rw [List.mem_singleton.mp he]
        exact Nat.lt_succ_self _

/-- The points of a step are the stepping thread's. -/
theorem Effect.filter {m' : Mem} {extra : List (Point T Op Res)} {now : Nat}
    (h : Effect A t now m m' extra) (t' : T) :
    (extra.filter fun e => e.thread = t') = if t = t' then extra else [] := by
  cases h with
  | silent => simp
  | point _ => by_cases ht : t = t' <;> simp [ht]

theorem Invariant.step {order : List (Point T Op Res)} (h : P.Invariant m s order) (t : T) :
    ∃ extra, Effect A t s.clock s.mem (step program s t).mem extra ∧
      P.Invariant m (step program s t) (order ++ extra) := by
  cases hcurrent : current program t s.clock (s.threads t) with
  -- a thread with nothing to do only lets time pass
  | none =>
    have hstep : Linearize.step program s t = ⟨s.mem, s.clock + 1, s.threads⟩ := by
      simp only [Linearize.step, hcurrent]
    rw [hstep]
    obtain ⟨hsequential, hincreasing, hbefore⟩ := h.extend (t := t) .silent
    refine ⟨[], .silent, hsequential, hincreasing, hbefore, fun t' => ?_⟩
    rw [List.append_nil]
    exact (h.threads t').mono
  | some p =>
    obtain ⟨done, rest, hpoints, hdone, hat⟩ := (h.threads t).current program hcurrent
    obtain ⟨extra, heffect, hholds⟩ := hat.after hdone s.mem
    obtain ⟨hsequential, hincreasing, hbefore⟩ := h.extend heffect
    have hmem : (Linearize.step program s t).mem = (I.step p.state s.mem).1 := by
      rw [step_of_current program hcurrent]
    rw [← hmem] at heffect hsequential
    refine ⟨extra, heffect, hsequential, hincreasing, by simpa using hbefore, fun t' => ?_⟩
    rw [List.filter_append, Effect.filter heffect, threads_step_of_current program hcurrent, clock_step]
    by_cases ht : t' = t
    · subst ht
      rw [if_pos rfl, if_pos rfl, hpoints]
      exact hholds
    · rw [if_neg (Ne.symm ht), if_neg ht, List.append_nil]
      exact (h.threads t').mono

/-- An implementation with linearization points is linearizable: every run of every program is the
sequential execution of its points. -/
theorem linearizes (P : Points A I) (m : Mem) (schedule : List T) :
    ∃ order, P.Invariant m (run program (start I T m) schedule) order ∧
      Linearizes I program A m schedule order := by
  induction schedule using List.reverseRecOn with
  | nil =>
    refine ⟨[], .start m, rfl, .nil, fun e he => by simp at he, fun _ => ?_, fun e he => by simp at he,
      fun k hk => by simp at hk⟩
    exact ⟨[], [], rfl, .nil, .inl rfl⟩
  | append_singleton schedule t ih =>
    obtain ⟨order, hinv, hlin⟩ := ih
    obtain ⟨extra, heffect, hinv'⟩ := hinv.step program t
    have hclock := clock_run (I := I) program m schedule
    rw [← run_append] at heffect hinv'
    have hlength : (schedule ++ [t]).length = schedule.length + 1 := by simp
    -- The prefixes of the longer schedule are those of the shorter one and the whole.
    have htake : ∀ k ≤ schedule.length, (schedule ++ [t]).take k = schedule.take k :=
      fun k hk => List.take_append_of_le_length hk
    have hlast : (schedule ++ [t]).take (schedule.length + 1) = schedule ++ [t] := by
      rw [← hlength, List.take_length]
    refine ⟨order ++ extra, hinv', hinv'.sequential, hinv'.increasing, ?_, fun t' => ?_, ?_, ?_⟩
    · intro e he
      have := hinv'.before e he
      rwa [clock_run] at this
    · exact (hinv'.threads t').covers
    · intro e he
      rcases List.mem_append.mp he with he | he
      · have hlt := hlin.before e he
        rw [htake _ (Nat.le_of_lt hlt), htake _ hlt]
        exact hlin.effect e he
      · obtain ⟨htime, heffect⟩ := heffect.of_mem he
        rw [htime, hclock, htake _ (Nat.le_refl _), hlast, List.take_length]
        exact heffect
    · intro k hk hno
      rcases Nat.lt_or_ge k schedule.length with hlt | hge
      · rw [htake _ (Nat.le_of_lt hlt), htake _ hlt]
        exact hlin.silent k hlt fun e he => hno e (List.mem_append_left _ he)
      · obtain rfl : k = schedule.length := by omega
        rw [htake _ (Nat.le_refl _), hlast, List.take_length]
        apply heffect.eq_of_forall_ne
        intro e he
        rw [hclock]
        exact hno e (List.mem_append_right _ he)

end Points

end Linearize

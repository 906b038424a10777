import Mathlib.Data.List.Nodup
import Mathlib.Data.List.Perm.Basic
import Mathlib.Tactic.Common

/-!
# Neighbours in a list

What stands after an element of a list without repetitions, and how inserting elements changes it.
-/

namespace Sequence

variable {α : Type*} [DecidableEq α]

/-- The element after `x`. -/
def next : List α → α → Option α
  | a :: b :: l, x => if a = x then some b else next (b :: l) x
  | _, _ => none

/-- The element before `x`. -/
def prev : List α → α → Option α
  | a :: b :: l, x => if b = x then some a else prev (b :: l) x
  | _, _ => none

/-- The list with `r` before `b`. -/
def insertBefore (r b : α) : List α → List α
  | [] => []
  | a :: l => if a = b then r :: a :: l else a :: insertBefore r b l

variable {l : List α} {a b r x y : α}

@[simp] theorem next_nil : next ([] : List α) x = none := rfl

@[simp] theorem next_singleton : next [a] x = none := rfl

theorem next_cons_of_ne (h : a ≠ x) : next (a :: l) x = next l x := by
  cases l with
  | nil => rfl
  | cons b l => simp [next, h]

theorem next_cons (x : α) : next (a :: l) x = if a = x then l.head? else next l x := by
  cases l with
  | nil => simp
  | cons b l => simp [next]

theorem mem_of_next (h : next l x = some y) : x ∈ l ∧ y ∈ l := by
  induction l with
  | nil => simp at h
  | cons a l ih =>
    rw [next_cons] at h
    split at h
    next heq =>
      have hy : y ∈ l := List.mem_of_mem_head? h
      exact ⟨by simp [heq], List.mem_cons_of_mem _ hy⟩
    next =>
      obtain ⟨hx, hy⟩ := ih h
      exact ⟨List.mem_cons_of_mem _ hx, List.mem_cons_of_mem _ hy⟩

theorem next_ne_head (hl : (a :: l).Nodup) : next (a :: l) x ≠ some a := by
  rw [next_cons]
  have ha : a ∉ l := (List.nodup_cons.mp hl).1
  split
  · intro h
    exact ha (List.mem_of_mem_head? h)
  · intro h
    exact ha (mem_of_next h).2

theorem prev_cons (x : α) : prev (a :: l) x = if l.head? = some x then some a else prev l x := by
  cases l with
  | nil => rfl
  | cons b l => simp [prev]

/-- The element before `b` is the one that `b` comes after. -/
theorem prev_eq_some_iff (hl : l.Nodup) : prev l b = some x ↔ next l x = some b := by
  induction l with
  | nil => simp [prev]
  | cons a l ih =>
    obtain ⟨ha, hl'⟩ := List.nodup_cons.mp hl
    rw [prev_cons, next_cons]
    split
    next hhead =>
      constructor
      · intro h
        rw [if_pos (Option.some.inj h), hhead]
      · intro h
        split at h
        next heq => rw [heq]
        next =>
          -- `b` is the head of `l`, so it comes after nothing else there.
          cases l with
          | nil => simp at hhead
          | cons c l =>
            obtain rfl : c = b := by simpa using hhead
            exact absurd h (next_ne_head hl')
    next hhead =>
      rw [ih hl']
      split
      next heq =>
        subst heq
        constructor
        · intro h
          exact absurd (mem_of_next h).1 ha
        · intro h
          exact absurd h hhead
      next => rfl

theorem prev_eq_none_iff (hl : l.Nodup) : prev l b = none ↔ ∀ x, next l x ≠ some b := by
  constructor
  · intro h x hx
    rw [(prev_eq_some_iff hl).mpr hx] at h
    cases h
  · intro h
    cases hprev : prev l b with
    | none => rfl
    | some x => exact absurd ((prev_eq_some_iff hl).mp hprev) (h x)

theorem next_inj (hl : l.Nodup) (hx : next l x = some b) (hy : next l y = some b) : x = y := by
  have hprev := (prev_eq_some_iff hl).mpr hx
  rw [(prev_eq_some_iff hl).mpr hy] at hprev
  exact (Option.some.inj hprev).symm

theorem exists_next_eq (hl : l.Nodup) (hb : b ∈ l) (hhead : l.head? ≠ some b) :
    ∃ x, next l x = some b := by
  induction l with
  | nil => simp at hb
  | cons a l ih =>
    obtain ⟨ha, hl'⟩ := List.nodup_cons.mp hl
    have hb' : b ∈ l := by
      rcases List.mem_cons.mp hb with rfl | hb
      · simp at hhead
      · exact hb
    by_cases hhead' : l.head? = some b
    · exact ⟨a, by rw [next_cons, if_pos rfl, hhead']⟩
    · obtain ⟨x, hx⟩ := ih hl' hb' hhead'
      have hax : a ≠ x := fun h => ha (h ▸ (mem_of_next hx).1)
      exact ⟨x, by rw [next_cons_of_ne hax, hx]⟩

theorem ne_of_next (hl : l.Nodup) (h : next l x = some y) : x ≠ y := by
  rintro rfl
  induction l with
  | nil => simp at h
  | cons a l ih =>
    obtain ⟨ha, hl'⟩ := List.nodup_cons.mp hl
    rw [next_cons] at h
    split at h
    next heq =>
      subst heq
      exact ha (List.mem_of_mem_head? h)
    next => exact ih hl' h

/-! ## Inserting -/

theorem insertBefore_perm (hb : b ∈ l) : (insertBefore r b l).Perm (r :: l) := by
  induction l with
  | nil => simp at hb
  | cons a l ih =>
    unfold insertBefore
    split
    · exact List.Perm.refl _
    next hne =>
      have hb' : b ∈ l := by
        rcases List.mem_cons.mp hb with rfl | hb
        · exact absurd rfl hne
        · exact hb
      exact ((ih hb').cons a).trans (List.Perm.swap r a l)

theorem head?_insertBefore_of_ne (h : l.head? ≠ some b) (hl : l ≠ []) :
    (insertBefore r b l).head? = l.head? := by
  cases l with
  | nil => exact absurd rfl hl
  | cons a l =>
    have hab : a ≠ b := fun heq => h (by simp [heq])
    simp [insertBefore, hab]

/-- Inserting `r` before `b` puts it between `b` and the element before. -/
theorem next_insertBefore (hl : l.Nodup) (hr : r ∉ l) (hb : b ∈ l) (x : α) :
    next (insertBefore r b l) x =
      if x = r then some b else if next l x = some b then some r else next l x := by
  induction l with
  | nil => simp at hb
  | cons a l ih =>
    obtain ⟨ha, hl'⟩ := List.nodup_cons.mp hl
    have hra : r ≠ a := fun h => hr (by simp [h])
    have hr' : r ∉ l := fun h => hr (List.mem_cons_of_mem _ h)
    unfold insertBefore
    split
    next hab =>
      subst hab
      rw [next_cons]
      by_cases hx : x = r
      · simp [hx]
      · rw [if_neg (Ne.symm hx), if_neg hx, if_neg (next_ne_head hl)]
    next hab =>
      have hb' : b ∈ l := by
        rcases List.mem_cons.mp hb with rfl | hb
        · exact absurd rfl hab
        · exact hb
      rw [next_cons, next_cons, ih hl' hr' hb']
      by_cases hx : a = x
      · subst hx
        rw [if_pos rfl, if_pos rfl, if_neg (Ne.symm hra)]
        cases l with
        | nil => simp at hb'
        | cons c l =>
          unfold insertBefore
          split
          next hcb => simp [hcb]
          next hcb => simp [hcb]
      · rw [if_neg hx, if_neg hx]

theorem next_append_singleton (hl : l.Nodup) (hr : r ∉ l) (x : α) :
    next (l ++ [r]) x = if l.getLast? = some x then some r else next l x := by
  induction l with
  | nil => simp
  | cons a l ih =>
    obtain ⟨ha, hl'⟩ := List.nodup_cons.mp hl
    have hr' : r ∉ l := fun h => hr (List.mem_cons_of_mem _ h)
    rw [List.cons_append, next_cons, next_cons, ih hl' hr']
    cases l with
    | nil => simp
    | cons c l =>
      by_cases hx : a = x
      · subst hx
        have hlast : (a :: c :: l).getLast? ≠ some a := by
          intro h
          exact ha (List.mem_of_getLast? h)
        rw [if_pos rfl, if_pos rfl, if_neg hlast]
        rfl
      · rw [if_neg hx, if_neg hx, List.getLast?_cons_cons]

theorem next_eq_none_of_getLast? (hl : l.Nodup) (h : l.getLast? = some x) : next l x = none := by
  induction l with
  | nil => rfl
  | cons a l ih =>
    obtain ⟨ha, hl'⟩ := List.nodup_cons.mp hl
    cases l with
    | nil => rfl
    | cons c l =>
      have hne : a ≠ x := by
        rintro rfl
        exact ha (List.mem_of_getLast? h)
      rw [next_cons_of_ne hne, ih hl' h]

end Sequence

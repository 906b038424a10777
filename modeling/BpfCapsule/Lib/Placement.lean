import Mathlib.Algebra.Order.Ring.Nat
import Mathlib.Tactic.Common

/-!
# Placing objects one after another

A cursor moves up over a list of objects: each object starts at the first multiple of its alignment
at or above the cursor, and the cursor moves to its end. `Placed` is that relation between a start,
the objects, their offsets and the final cursor. It is functional (`Placed.unique`), splits where the
list splits (`placed_append`), and each step of it moves with a base that the alignment divides
(`FirstFit.shift`), so two walks over the same objects agree however each of them computes its next
offset.
-/

namespace Placement

structure Item where
  bytes : Nat
  align : Nat
deriving DecidableEq, Repr

/-- The first multiple of `align` at or above `cursor`. -/
structure FirstFit (cursor align start : Nat) : Prop where
  le : cursor ≤ start
  dvd : align ∣ start
  lt : start < cursor + align

theorem FirstFit.unique {cursor align start start' : Nat} (h : FirstFit cursor align start)
    (h' : FirstFit cursor align start') : start = start' := by
  -- two multiples in one window of `align` numbers coincide
  have hle := h.le
  have hle' := h'.le
  have hlt := h.lt
  have hlt' := h'.lt
  have hup : start' - start = 0 :=
    Nat.eq_zero_of_dvd_of_lt (Nat.dvd_sub h'.dvd h.dvd) (by omega)
  have hdown : start - start' = 0 :=
    Nat.eq_zero_of_dvd_of_lt (Nat.dvd_sub h.dvd h'.dvd) (by omega)
  omega

theorem FirstFit.shift {cursor align start base : Nat} (h : FirstFit cursor align start)
    (hbase : align ∣ base) : FirstFit (base + cursor) align (base + start) where
  le := Nat.add_le_add_left h.le base
  dvd := Nat.dvd_add hbase h.dvd
  lt := by have := h.lt; omega

inductive Placed : Nat → List Item → List Nat → Nat → Prop where
  | nil (cursor : Nat) : Placed cursor [] [] cursor
  | cons {cursor start last : Nat} {item : Item} {items : List Item} {starts : List Nat}
      (hfit : FirstFit cursor item.align start) (hrest : Placed (start + item.bytes) items starts last) :
      Placed cursor (item :: items) (start :: starts) last

section

variable {cursor last last' : Nat} {items : List Item} {starts starts' : List Nat}

namespace Placed

variable (h : Placed cursor items starts last)

include h

theorem unique (h' : Placed cursor items starts' last') : starts = starts' ∧ last = last' := by
  induction h generalizing starts' last' with
  | nil cursor =>
    cases h'
    exact ⟨rfl, rfl⟩
  | cons hfit _ ih =>
    cases h' with
    | cons hfit' hrest' =>
      cases hfit.unique hfit'
      have hrest := ih hrest'
      exact ⟨congrArg _ hrest.1, hrest.2⟩

theorem length_eq : starts.length = items.length := by
  induction h with
  | nil cursor => rfl
  | cons _ _ ih => exact congrArg (· + 1) ih

theorem le : cursor ≤ last := by
  induction h with
  | nil cursor => exact Nat.le_refl cursor
  | cons hfit _ ih => exact Nat.le_trans hfit.le (Nat.le_trans (Nat.le_add_right _ _) ih)

/-- Every object lies between the first cursor and the last, on its own alignment. -/
theorem slot {i start : Nat} {item : Item}
    (hi : items[i]? = some item) (hs : starts[i]? = some start) :
    cursor ≤ start ∧ item.align ∣ start ∧ start + item.bytes ≤ last := by
  induction h generalizing i with
  | nil cursor => simp at hi
  | cons hfit hrest ih =>
    cases i with
    | zero =>
      cases hi
      cases hs
      exact ⟨hfit.le, hfit.dvd, hrest.le⟩
    | succ i =>
      have hslot := ih hi hs
      have := hfit.le
      exact ⟨by omega, hslot.2⟩

theorem ordered {i j start start' : Nat} {item : Item}
    (hij : i < j) (hi : items[i]? = some item) (hs : starts[i]? = some start)
    (hs' : starts[j]? = some start') : start + item.bytes ≤ start' := by
  induction h generalizing i j with
  | nil cursor => simp at hi
  | @cons cursor first last head tail starts hfit hrest ih =>
    cases j with
    | zero => exact absurd hij (Nat.not_lt_zero i)
    | succ j =>
      cases i with
      | zero =>
        cases hi
        cases hs
        have hj : j < tail.length := by
          rw [← hrest.length_eq]
          exact Nat.lt_of_succ_lt_succ (List.getElem?_eq_some_iff.mp hs').1
        exact (hrest.slot (List.getElem?_eq_getElem hj) hs').1
      | succ i => exact ih (Nat.lt_of_succ_lt_succ hij) hi hs hs'

end Placed

/-- Placing two lists in a row is placing one, then the other from where it ended. -/
theorem placed_append {items' : List Item} : Placed cursor (items ++ items') starts last ↔
    ∃ front back middle, starts = front ++ back ∧ Placed cursor items front middle ∧
      Placed middle items' back last := by
  constructor
  · intro h
    induction items generalizing cursor starts with
    | nil => exact ⟨[], starts, cursor, rfl, .nil cursor, h⟩
    | cons item items ih =>
      cases h with
      | cons hfit hrest =>
        obtain ⟨front, back, middle, rfl, hfront, hback⟩ := ih hrest
        exact ⟨_ :: front, back, middle, rfl, .cons hfit hfront, hback⟩
  · intro ⟨front, back, middle, hstarts, hfront, hback⟩
    subst hstarts
    induction hfront with
    | nil cursor => exact hback
    | cons hfit _ ih => exact .cons hfit (ih hback)

end

end Placement

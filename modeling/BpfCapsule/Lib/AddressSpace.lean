import Mathlib.Data.Set.Basic
import Mathlib.Order.Interval.Set.Basic
import Mathlib.Tactic.Common

/-!
# Mappings of an address space

A log of the mappings that a program makes and removes, the addresses that are mapped after it, and
the logs in which nothing is unmapped that is not mapped.
-/

namespace AddressSpace

/-- A change of the mappings in the `size` addresses from `start`. -/
inductive Event where
  | map (start size : Nat)
  | unmap (start size : Nat)
  deriving DecidableEq, Repr

def range (start size : Nat) : Set Nat := Set.Ico start (start + size)

variable {start size : Nat} {log : List Event}

theorem mem_range {a : Nat} : a ∈ range start size ↔ start ≤ a ∧ a < start + size :=
  Iff.rfl

def Event.apply (mapped : Set Nat) : Event → Set Nat
  | .map start size => mapped ∪ range start size
  | .unmap start size => mapped \ range start size

def live (log : List Event) : Set Nat := log.foldl Event.apply ∅

@[simp] theorem live_map (log : List Event) (start size : Nat) :
    live (log ++ [.map start size]) = live log ∪ range start size := by
  simp [live, Event.apply]

@[simp] theorem live_unmap (log : List Event) (start size : Nat) :
    live (log ++ [.unmap start size]) = live log \ range start size := by
  simp [live, Event.apply]

def Clean (log : List Event) : Prop :=
  ∀ pre start size post, log = pre ++ .unmap start size :: post → range start size ⊆ live pre

theorem Clean.nil : Clean [] := by
  intro pre start size post h
  simp at h

/-- The last event is the only new one. -/
theorem Clean.concat (h : Clean log) {event : Event}
    (hevent : ∀ start size, event = .unmap start size → range start size ⊆ live log) :
    Clean (log ++ [event]) := by
  intro pre start size post heq
  rcases List.eq_nil_or_concat post with rfl | ⟨post, last, rfl⟩
  · obtain ⟨rfl, hlast⟩ := List.append_inj' heq rfl
    exact hevent start size (List.singleton_inj.mp hlast)
  · rw [List.concat_eq_append, ← List.cons_append, ← List.append_assoc] at heq
    exact h pre start size post (List.append_inj' heq rfl).1

theorem Clean.map (h : Clean log) (start size : Nat) : Clean (log ++ [.map start size]) :=
  h.concat fun _ _ heq => nomatch heq

theorem Clean.unmap (h : Clean log) (hmapped : range start size ⊆ live log) :
    Clean (log ++ [.unmap start size]) := by
  apply h.concat
  intro start' size' heq
  cases heq
  exact hmapped

theorem live_map_of_subset (h : range start size ⊆ live log) :
    live (log ++ [.map start size]) = live log := by
  rw [live_map]
  exact Set.union_eq_self_of_subset_right h

theorem range_subset_range {start' size' : Nat} (h : start' ≤ start)
    (h' : start + size ≤ start' + size') : range start size ⊆ range start' size' := by
  intro a ha
  rw [mem_range] at ha ⊢
  omega

end AddressSpace

import Mathlib.Data.List.Basic
import Mathlib.Data.List.Nodup
import Mathlib.Data.List.Pairwise
import Mathlib.Data.List.Perm.Basic
import Mathlib.Tactic.Common

/-!
# Components

The pieces of a graph, found one after the other: take an unvisited vertex, follow all edges from it
with a worklist, and what was found is a piece. `components_spec` says that the pieces partition the
vertices and none is empty, `Pieces.mem_of_adj` that, over a symmetric adjacency, no edge leaves one.
-/

namespace Components

open scoped List

variable {V : Type*} [DecidableEq V]

def visit (s : List V × List V) (a : V) : List V × List V :=
  if a ∈ s.1 then (s.1.erase a, a :: s.2) else s

def grow (adj : V → List V) : (fuel : Nat) → (unvisited work found : List V) → List V × List V
  | 0, unvisited, _, found => (unvisited, found)
  | _ + 1, unvisited, [], found => (unvisited, found)
  | fuel + 1, unvisited, b :: work, found =>
    let next := (adj b).foldl visit (unvisited, work)
    grow adj fuel next.1 next.2 (found ++ [b])

def components (adj : V → List V) : (fuel : Nat) → (unvisited : List V) → List (List V)
  | 0, _ => []
  | _ + 1, [] => []
  | fuel + 1, seed :: unvisited =>
    let piece := grow adj (unvisited.length + 1) unvisited [seed] []
    piece.2 :: components adj fuel piece.1

/-! ## The worklist -/

theorem visit_perm (s : List V × List V) (a : V) :
    ((visit s a).1 ++ (visit s a).2).Perm (s.1 ++ s.2) := by
  unfold visit
  split
  · rename_i ha
    calc s.1.erase a ++ a :: s.2
      _ ~ a :: (s.1.erase a ++ s.2) := List.perm_middle
      _ ~ s.1 ++ s.2 := (List.perm_cons_erase ha).symm.append_right s.2
  · exact List.Perm.refl _

theorem visit_subset (s : List V × List V) (a : V) : (visit s a).1.Sublist s.1 := by
  unfold visit
  split
  · exact List.erase_sublist
  · exact List.Sublist.refl _

theorem not_mem_visit {s : List V × List V} (hs : s.1.Nodup) (a : V) : a ∉ (visit s a).1 := by
  unfold visit
  split
  · exact hs.not_mem_erase
  · rename_i ha
    exact ha

theorem foldl_visit_perm (as : List V) (s : List V × List V) :
    ((as.foldl visit s).1 ++ (as.foldl visit s).2).Perm (s.1 ++ s.2) :=
  List.foldlRecOn as _ (.refl _)
    fun r hr a _ => (visit_perm r a).trans hr

theorem foldl_visit_sublist (as : List V) (s : List V × List V) :
    (as.foldl visit s).1.Sublist s.1 :=
  List.foldlRecOn as _ (.refl _)
    fun r hr a _ => (visit_subset r a).trans hr

/-- After a vertex was looked at, none of its neighbours is unvisited. -/
theorem not_mem_foldl_visit {as : List V} {s : List V × List V} (hs : s.1.Nodup) {a : V}
    (ha : a ∈ as) : a ∉ (as.foldl visit s).1 := by
  induction as generalizing s with
  | nil => cases ha
  | cons b as ih =>
    have hs' : (visit s b).1.Nodup := hs.sublist (visit_subset s b)
    rcases List.mem_cons.mp ha with rfl | ha
    · intro hmem
      exact not_mem_visit hs a ((foldl_visit_sublist as (visit s a)).subset hmem)
    · exact ih hs' ha

/-! ## One piece -/

variable {adj : V → List V}

/-- What a finished piece satisfies: nothing is lost, and no edge leads to what is unvisited. -/
structure Grown (adj : V → List V) (all : List V) (unvisited : List V) (result : List V × List V) :
    Prop where
  perm : (result.1 ++ result.2).Perm all
  sublist : result.1.Sublist unvisited
  closed : ∀ b ∈ result.2, ∀ a ∈ adj b, a ∉ result.1

theorem grow_spec {fuel : Nat} {unvisited work found : List V} (hnodup : unvisited.Nodup)
    (hfuel : unvisited.length + work.length ≤ fuel)
    (hfound : ∀ b ∈ found, ∀ a ∈ adj b, a ∉ unvisited) :
    Grown adj (unvisited ++ work ++ found) unvisited (grow adj fuel unvisited work found) := by
  -- the fuel counts what is unvisited or waiting: every round takes one vertex off the worklist
  induction fuel generalizing unvisited work found with
  | zero =>
    have hwork : work = [] := List.length_eq_zero_iff.mp (by omega)
    rw [hwork, List.append_nil]
    exact ⟨List.Perm.refl _, List.Sublist.refl _, hfound⟩
  | succ fuel ih =>
    cases work with
    | nil =>
      rw [List.append_nil]
      exact ⟨List.Perm.refl _, List.Sublist.refl _, hfound⟩
    | cons b work =>
      let next := (adj b).foldl visit (unvisited, work)
      have hperm : (next.1 ++ next.2).Perm (unvisited ++ work) := foldl_visit_perm _ _
      have hsub : next.1.Sublist unvisited := foldl_visit_sublist _ _
      have hlength := hperm.length_eq
      rw [List.length_append, List.length_append] at hlength
      have hclosed : ∀ c ∈ found ++ [b], ∀ a ∈ adj c, a ∉ next.1 := by
        intro c hc a ha
        rcases List.mem_append.mp hc with hc | hc
        · exact fun hmem => hfound c hc a ha (hsub.subset hmem)
        · rw [List.mem_singleton] at hc
          subst hc
          exact not_mem_foldl_visit hnodup ha
      have hnodup' := hnodup.sublist hsub
      rw [List.length_cons] at hfuel
      have hfuel' : next.1.length + next.2.length ≤ fuel := by omega
      have hrest := ih hnodup' hfuel' hclosed
      refine ⟨hrest.perm.trans ?_, hrest.sublist.trans hsub, hrest.closed⟩
      calc next.1 ++ next.2 ++ (found ++ [b])
        _ ~ unvisited ++ work ++ (found ++ [b]) := hperm.append_right _
        _ ~ unvisited ++ (b :: work) ++ found := by
          rw [List.append_assoc, List.append_assoc]
          refine List.Perm.append_left unvisited ?_
          rw [← List.append_assoc]
          exact List.perm_append_singleton b (work ++ found)

/-! ## All pieces -/

/-- The pieces of a graph: they share out the vertices, none is empty, and no edge of a piece leads
to a later one. -/
structure Pieces (adj : V → List V) (vertices : List V) (pieces : List (List V)) : Prop where
  perm : pieces.flatten ~ vertices
  nonempty : ∀ c ∈ pieces, c ≠ []
  apart : pieces.Pairwise fun c d => ∀ b ∈ c, ∀ a ∈ adj b, a ∉ d

/-- With fuel for every vertex, the search splits them into their connected pieces. -/
theorem components_spec {fuel : Nat} {vertices : List V} (hnodup : vertices.Nodup)
    (hfuel : vertices.length ≤ fuel) : Pieces adj vertices (components adj fuel vertices) := by
  induction fuel generalizing vertices with
  | zero =>
    have hempty : vertices = [] := List.length_eq_zero_iff.mp (by omega)
    subst hempty
    exact ⟨List.Perm.refl _, fun c hc => absurd hc List.not_mem_nil, List.Pairwise.nil⟩
  | succ fuel ih =>
    cases vertices with
    | nil => exact ⟨List.Perm.refl _, fun c hc => absurd hc List.not_mem_nil, List.Pairwise.nil⟩
    | cons seed unvisited =>
      -- the piece of the first vertex, then the rest without it
      let piece := grow adj (unvisited.length + 1) unvisited [seed] []
      have hgrown : Grown adj (unvisited ++ [seed] ++ []) unvisited piece :=
        grow_spec hnodup.of_cons (Nat.le_refl _) fun b hb => absurd hb List.not_mem_nil
      rw [List.append_nil] at hgrown
      have hsub := hgrown.sublist
      have hlength := hsub.length_le
      rw [List.length_cons] at hfuel
      have hrest := ih (hnodup.of_cons.sublist hsub) (by omega)
      have hseed : seed ∈ piece.2 := by
        have hmem : seed ∈ piece.1 ++ piece.2 := hgrown.perm.symm.subset (by simp)
        rcases List.mem_append.mp hmem with h | h
        · exact absurd (hsub.subset h) (List.nodup_cons.mp hnodup).1
        · exact h
      refine ⟨?_, fun c hc => ?_, List.Pairwise.cons (fun d hd b hb a ha had => ?_) hrest.apart⟩
      · calc piece.2 ++ (components adj fuel piece.1).flatten
          _ ~ piece.2 ++ piece.1 := hrest.perm.append_left _
          _ ~ piece.1 ++ piece.2 := List.perm_append_comm
          _ ~ unvisited ++ [seed] := hgrown.perm
          _ ~ seed :: unvisited := List.perm_append_singleton seed unvisited
      · rcases List.mem_cons.mp hc with rfl | hc
        · exact List.ne_nil_of_mem hseed
        · exact hrest.nonempty c hc
      · have hmem : a ∈ piece.1 := hrest.perm.subset (List.mem_flatten.mpr ⟨d, hd, had⟩)
        exact hgrown.closed b hb a ha hmem

namespace Pieces

variable {vertices : List V} {pieces : List (List V)} (h : Pieces adj vertices pieces)

include h

omit [DecidableEq V]

theorem mem_iff {a : V} : a ∈ vertices ↔ ∃ c ∈ pieces, a ∈ c := by
  rw [← h.perm.mem_iff, List.mem_flatten]

theorem pairwise_disjoint (hnodup : vertices.Nodup) : pieces.Pairwise List.Disjoint :=
  (List.nodup_flatten.mp (h.perm.nodup_iff.mpr hnodup)).2

/-- A vertex is in one piece only. -/
theorem eq_of_mem (hnodup : vertices.Nodup) {c d : List V} {a : V} (hc : c ∈ pieces) (hd : d ∈ pieces)
    (hac : a ∈ c) (had : a ∈ d) : c = d := by
  by_contra hne
  have hsymm : Std.Symm (@List.Disjoint V) := ⟨fun _ _ => List.disjoint_symm⟩
  exact (h.pairwise_disjoint hnodup).forall hc hd hne hac had

theorem nodup (hnodup : vertices.Nodup) : pieces.Nodup := by
  refine (h.pairwise_disjoint hnodup).imp_of_mem fun {c d} hc _ hcd heq => ?_
  subst heq
  exact h.nonempty c hc (List.eq_nil_iff_forall_not_mem.mpr fun a ha => hcd ha ha)

theorem mem_of_adj (hsymm : ∀ a ∈ vertices, ∀ b ∈ vertices, a ∈ adj b → b ∈ adj a) {c : List V}
    {a b : V} (hc : c ∈ pieces) (hb : b ∈ c) (ha : a ∈ adj b) (hvertex : a ∈ vertices) : a ∈ c := by
  obtain ⟨d, hd, had⟩ := h.mem_iff.mp hvertex
  by_cases hcd : c = d
  · rw [hcd]
    exact had
  · -- among the vertices the relation of `apart` is symmetric as the adjacency is
    let Apart (c d : List V) : Prop :=
      ∀ b ∈ c, b ∈ vertices → ∀ a ∈ adj b, a ∈ vertices → a ∉ d
    have hapart : pieces.Pairwise Apart :=
      h.apart.imp fun {c d} hcd b hb _ a ha _ => hcd b hb a ha
    have hsymm' : Std.Symm Apart := by
      refine ⟨fun c d hcd b hb hbv a ha hav hac => ?_⟩
      exact hcd a hac hav b (hsymm a hav b hbv ha) hbv hb
    have hbv : b ∈ vertices := h.mem_iff.mpr ⟨c, hc, hb⟩
    exact absurd had (hapart.forall hc hd hcd b hb hbv a ha hvertex)

end Pieces

end Components

import Mathlib.Data.Finset.Card
import Mathlib.Data.Finset.Lattice.Basic
import Mathlib.Data.List.GetD
import Mathlib.Tactic.Common
import Mathlib.Algebra.GroupWithZero.Nat

/-!
# Iterating to a fixed point

The three loops of an iterative program analysis, over any type of facts: `stabilise` repeats a round
until nothing changes, `closure` is the round that adds every item its rule asks for, in place and
in order, and `visit` is the depth-first walk that marks what it comes past. All three take fuel;
`stabilise_fixed`, `closure_closed` and `visit_spec` say how much of it is enough.
-/

namespace Fixpoint

section Stabilise

variable {α : Type*} [DecidableEq α] {f : α → α} {P : α → Prop}

/-- Repeat `f` until nothing changes, for at most `fuel` rounds. -/
def stabilise (f : α → α) : (fuel : Nat) → α → α
  | 0, x => x
  | fuel + 1, x => if f x = x then x else stabilise f fuel (f x)

theorem stabilise_inv (hstep : ∀ x, P x → P (f x)) {fuel : Nat} {x : α} (h : P x) :
    P (stabilise f fuel x) := by
  induction fuel generalizing x with
  | zero => exact h
  | succ fuel ih =>
    unfold stabilise
    split
    · exact h
    · exact ih (hstep x h)

/-- The loop ends in the state of some round. -/
theorem stabilise_eq_iterate (f : α → α) (fuel : Nat) (x : α) :
    ∃ n, stabilise f fuel x = f^[n] x := by
  induction fuel generalizing x with
  | zero => exact ⟨0, rfl⟩
  | succ fuel ih =>
    unfold stabilise
    split
    · exact ⟨0, rfl⟩
    · obtain ⟨n, hn⟩ := ih (f x)
      exact ⟨n + 1, hn⟩

/-- When every round that changes something makes a bounded measure grow, the rounds left under the
bound are enough fuel. -/
theorem stabilise_fixed (size : α → Nat) (bound : Nat) (hstep : ∀ x, P x → P (f x))
    (hgrow : ∀ x, P x → f x ≠ x → size x < size (f x)) (hbound : ∀ x, P x → size x ≤ bound)
    {fuel : Nat} {x : α} (h : P x) (hfuel : bound ≤ size x + fuel) :
    f (stabilise f fuel x) = stabilise f fuel x := by
  induction fuel generalizing x with
  | zero =>
    by_contra hne
    have hlt : size x < size (f x) := hgrow x h hne
    have hle : size (f x) ≤ bound := hbound _ (hstep x h)
    omega
  | succ fuel ih =>
    unfold stabilise
    split
    · assumption
    · rename_i hne
      have hlt : size x < size (f x) := hgrow x h hne
      exact ih (hstep x h) (by omega)

end Stabilise

section Closure

variable {α : Type*} [DecidableEq α] {rule : Finset α → α → Bool} {items : List α} {s : Finset α}

def pass (rule : Finset α → α → Bool) (items : List α) (s : Finset α) : Finset α :=
  items.foldl (fun s a => if rule s a then insert a s else s) s

def closure (rule : Finset α → α → Bool) (items : List α) (s : Finset α) : Finset α :=
  stabilise (pass rule items) items.length s

theorem subset_pass : s ⊆ pass rule items s := by
  refine List.foldlRecOn items _ (Finset.Subset.refl s) fun t ht a _ => ?_
  split
  · exact ht.trans (Finset.subset_insert a t)
  · exact ht

/-- What the first items have and the rule keeps, a round keeps. -/
theorem pass_forall {P : α → Prop} (hs : ∀ a ∈ s, P a)
    (hrule : ∀ t, (∀ a ∈ t, P a) → ∀ a ∈ items, rule t a = true → P a) :
    ∀ a ∈ pass rule items s, P a := by
  refine List.foldlRecOn (motive := fun t => ∀ a ∈ t, P a) items _ hs fun t ht b hb => ?_
  split
  · rename_i hasked
    exact (Finset.forall_mem_insert _ _ _).mpr ⟨hrule t ht b hb hasked, ht⟩
  · exact ht

theorem pass_subset : pass rule items s ⊆ s ∪ items.toFinset :=
  fun _ ha => pass_forall (fun _ => Finset.mem_union_left _)
    (fun _ _ _ hb _ => Finset.mem_union_right _ (List.mem_toFinset.mpr hb)) _ ha

/-- A round that adds nothing has nothing left to add. -/
theorem mem_of_pass_eq (hfix : pass rule items s = s) {a : α} (ha : a ∈ items)
    (hrule : rule s a = true) : a ∈ s := by
  induction items with
  | nil => simp at ha
  | cons b items ih =>
    have hrest : pass rule (b :: items) s
        = pass rule items (if rule s b then insert b s else s) := rfl
    -- the set after the first item lies between `s` and the result, which is `s`
    have hfirst : (if rule s b then insert b s else s) = s := by
      refine Finset.Subset.antisymm ?_ ?_
      · exact (subset_pass.trans hrest.symm.subset).trans hfix.subset
      · split
        · exact Finset.subset_insert b s
        · exact Finset.Subset.refl s
    rw [hrest, hfirst] at hfix
    rcases List.mem_cons.mp ha with rfl | ha
    · rw [if_pos hrule] at hfirst
      exact hfirst ▸ Finset.mem_insert_self a s
    · exact ih hfix ha

theorem subset_closure : s ⊆ closure rule items s :=
  stabilise_inv (fun _ h => h.trans subset_pass) (Finset.Subset.refl s)

/-- Rule induction: the closure has nothing that the rule did not ask for. -/
theorem closure_forall {P : α → Prop} (hs : ∀ a ∈ s, P a)
    (hrule : ∀ t, (∀ a ∈ t, P a) → ∀ a ∈ items, rule t a = true → P a) :
    ∀ a ∈ closure rule items s, P a :=
  stabilise_inv (P := fun t => ∀ a ∈ t, P a) (fun _ ht => pass_forall ht hrule) hs

/-- Rounds end: the closure contains every item its rule asks for. -/
theorem closure_closed {a : α} (ha : a ∈ items) (hrule : rule (closure rule items s) a = true) :
    a ∈ closure rule items s := by
  refine mem_of_pass_eq ?_ ha hrule
  refine stabilise_fixed (P := fun t => s ⊆ t ∧ t ⊆ s ∪ items.toFinset) Finset.card
    (s.card + items.length) ?_ ?_ ?_ ⟨Finset.Subset.refl s, Finset.subset_union_left⟩ (le_refl _)
  · intro t ⟨hs, ht⟩
    refine ⟨hs.trans subset_pass, pass_subset.trans (Finset.union_subset ht ?_)⟩
    exact Finset.subset_union_right
  · intro t _ hne
    exact Finset.card_lt_card (subset_pass.ssubset_of_ne (Ne.symm hne))
  · intro t ⟨_, ht⟩
    calc t.card ≤ (s ∪ items.toFinset).card := Finset.card_le_card ht
      _ ≤ s.card + items.toFinset.card := Finset.card_union_le _ _
      _ ≤ s.card + items.length := Nat.add_le_add_left (List.toFinset_card_le items) _

end Closure

section Visit

variable {α : Type*} [DecidableEq α] {ok : α → Bool} {next : α → List α}

/-- Mark `a` and what is reachable from it, through nodes that are `ok` and not yet marked. -/
def visit (ok : α → Bool) (next : α → List α) : (fuel : Nat) → Finset α → α → Finset α
  | 0, marked, _ => marked
  | fuel + 1, marked, a =>
    if ok a = true ∧ a ∉ marked then (next a).foldl (visit ok next fuel) (insert a marked)
    else marked

/-- What walks from a list of nodes guarantee: nothing is unmarked, every node of the list that is
`ok` is marked, and so is every successor that is `ok` of a newly marked node. -/
structure Visited (ok : α → Bool) (next : α → List α) (from_ : List α)
    (marked result : Finset α) : Prop where
  subset : marked ⊆ result
  started : ∀ a ∈ from_, ok a = true → a ∈ result
  closed : ∀ a ∈ result, a ∉ marked → ok a = true ∧ ∀ b ∈ next a, ok b = true → b ∈ result

variable {all marked : Finset α} {fuel : Nat}

theorem Visited.cons {a : α} {rest : List α} {middle result : Finset α}
    (h₁ : Visited ok next [a] marked middle) (h₂ : Visited ok next rest middle result) :
    Visited ok next (a :: rest) marked result where
  subset := h₁.subset.trans h₂.subset
  started b hb hok := by
    rcases List.mem_cons.mp hb with rfl | hb
    · exact h₂.subset (h₁.started b List.mem_cons_self hok)
    · exact h₂.started b hb hok
  closed b hb hnew := by
    by_cases hmid : b ∈ middle
    · obtain ⟨hok, hsucc⟩ := h₁.closed b hmid hnew
      exact ⟨hok, fun c hc hcok => h₂.subset (hsucc c hc hcok)⟩
    · exact h₂.closed b hb hmid

/-- Walks from one node after the other. -/
theorem visited_foldl {walk : Finset α → α → Finset α}
    (hwalk : ∀ marked a, (all \ marked).card ≤ fuel → Visited ok next [a] marked (walk marked a))
    (hfuel : (all \ marked).card ≤ fuel) (from_ : List α) :
    Visited ok next from_ marked (from_.foldl walk marked) := by
  induction from_ generalizing marked with
  | nil =>
    exact ⟨Finset.Subset.refl _, fun a ha => absurd ha List.not_mem_nil,
      fun a ha hnew => absurd ha hnew⟩
  | cons a rest ih =>
    have hfirst := hwalk marked a hfuel
    have hsub := Finset.sdiff_subset_sdiff (Finset.Subset.refl all) hfirst.subset
    exact hfirst.cons (ih ((Finset.card_le_card hsub).trans hfuel))

/-- The fuel needed is the number of nodes left to mark. -/
theorem visit_spec (hall : ∀ a, ok a = true → a ∈ all) {a : α} (hfuel : (all \ marked).card ≤ fuel) :
    Visited ok next [a] marked (visit ok next fuel marked a) := by
  induction fuel generalizing marked a with
  | zero =>
    have hempty : all \ marked = ∅ := Finset.card_eq_zero.mp (Nat.le_zero.mp hfuel)
    refine ⟨Finset.Subset.refl _, ?_, fun b hb hnew => absurd hb hnew⟩
    intro b _ hok
    exact Finset.sdiff_eq_empty_iff_subset.mp hempty (hall b hok)
  | succ fuel ih =>
    unfold visit
    split
    case isFalse hstop =>
      refine ⟨Finset.Subset.refl _, ?_, fun b hb hnew => absurd hb hnew⟩
      intro b hb hok
      rw [List.mem_singleton] at hb
      subst hb
      by_contra hnew
      exact hstop ⟨hok, hnew⟩
    case isTrue hgo =>
      -- the walks from the successors have one node less to mark
      have hcard : (all \ insert a marked).card ≤ fuel := by
        have hmem : a ∈ all \ marked := Finset.mem_sdiff.mpr ⟨hall a hgo.1, hgo.2⟩
        rw [Finset.sdiff_insert, Finset.card_erase_of_mem hmem]
        omega
      have hrest := visited_foldl (fun _ _ => ih) hcard (next a)
      refine ⟨(Finset.subset_insert a marked).trans hrest.subset, ?_, ?_⟩
      · intro b hb _
        rw [List.mem_singleton] at hb
        exact hrest.subset (hb ▸ Finset.mem_insert_self a marked)
      · intro b hb hnew
        by_cases hba : b = a
        · subst hba
          exact ⟨hgo.1, hrest.started⟩
        · refine hrest.closed b hb ?_
          rw [Finset.mem_insert, not_or]
          exact ⟨hba, hnew⟩

end Visit

section Table

variable {α : Type*} {transfer : (Nat → Finset α) → Nat → Finset α} {order : List Nat}
  {table : List (Finset α)}

def row (table : List (Finset α)) (b : Nat) : Finset α := table.getD b ∅

/-- Recompute the rows of `order` in place, one after the other. -/
def sweep (transfer : (Nat → Finset α) → Nat → Finset α) (order : List Nat)
    (table : List (Finset α)) : List (Finset α) :=
  order.foldl (fun table b => table.set b (transfer (row table) b)) table

/-- Sweeps over `n` rows, from empty ones, until no row changes. -/
def solve [DecidableEq α] (transfer : (Nat → Finset α) → Nat → Finset α) (order : List Nat)
    (n fuel : Nat) : List (Finset α) :=
  stabilise (sweep transfer order) fuel (List.replicate n ∅)

theorem row_set {b : Nat} (hb : b < table.length) (x : Finset α) (c : Nat) :
    row (table.set b x) c = if c = b then x else row table c := by
  unfold row
  rw [List.getD_eq_getElem?_getD, List.getElem?_set]
  by_cases hcb : c = b
  · subst hcb
    simp [hb]
  · rw [if_neg (Ne.symm hcb), if_neg hcb, List.getD_eq_getElem?_getD]

def Extends (transfer : (Nat → Finset α) → Nat → Finset α) (table : List (Finset α)) : Prop :=
  ∀ b, row table b ⊆ transfer (row table) b

theorem row_subset_set (hext : Extends transfer table) (b c : Nat) :
    row table c ⊆ row (table.set b (transfer (row table) b)) c := by
  by_cases hb : b < table.length
  · rw [row_set hb]
    split
    · rename_i hcb
      exact hcb ▸ hext c
    · exact Finset.Subset.refl _
  · rw [List.set_eq_of_length_le (by omega)]

theorem length_sweep : (sweep transfer order table).length = table.length :=
  List.foldlRecOn (motive := fun t : List _ => t.length = table.length) order _ rfl
    fun _ ht _ _ => List.length_set.trans ht

theorem ext_row {s t : List (Finset α)} (hlen : s.length = t.length)
    (hrow : ∀ c, row s c = row t c) : s = t := by
  refine List.ext_getElem hlen fun c hs ht => ?_
  have h := hrow c
  rwa [row, row, List.getD_eq_getElem _ _ hs, List.getD_eq_getElem _ _ ht] at h

theorem sum_card_le {s t : List (Finset α)} (h : List.Forall₂ (· ⊆ ·) s t) :
    (s.map Finset.card).sum ≤ (t.map Finset.card).sum ∧
      ((s.map Finset.card).sum = (t.map Finset.card).sum → s = t) := by
  induction h with
  | nil => exact ⟨le_refl _, fun _ => rfl⟩
  | cons hab _ ih =>
    rename_i a b _ _ _
    have hcard : a.card ≤ b.card := Finset.card_le_card hab
    rw [List.map_cons, List.map_cons, List.sum_cons, List.sum_cons]
    refine ⟨by omega, fun heq => ?_⟩
    have htail := ih.2 (by omega)
    rw [htail, Finset.eq_of_subset_of_card_le hab (by omega)]

theorem sum_card_le_mul {all : Finset α} (h : ∀ c, row table c ⊆ all) :
    (table.map Finset.card).sum ≤ table.length * all.card := by
  induction table with
  | nil => simp
  | cons s table ih =>
    have hhead : s.card ≤ all.card := Finset.card_le_card (h 0)
    have htail := ih fun c => h (c + 1)
    rw [List.map_cons, List.sum_cons, List.length_cons, Nat.succ_mul]
    omega

/-- What a transfer keeps of every element of every row, a sweep keeps. -/
theorem row_sweep_forall {S : Nat → α → Prop}
    (hS : ∀ r : Nat → Finset α, (∀ c, ∀ a ∈ r c, S c a) → ∀ b, ∀ a ∈ transfer r b, S b a)
    (h : ∀ c, ∀ a ∈ row table c, S c a) :
    ∀ c, ∀ a ∈ row (sweep transfer order table) c, S c a := by
  refine List.foldlRecOn (motive := fun t => ∀ c, ∀ a ∈ row t c, S c a) order _ h fun t ht b _ c => ?_
  by_cases hb : b < t.length
  · rw [row_set hb]
    split
    · rename_i hcb
      exact hcb ▸ hS _ ht b
    · exact ht c
  · rw [List.set_eq_of_length_le (by omega)]
    exact ht c

theorem row_replicate (n c : Nat) : row (List.replicate n (∅ : Finset α)) c = ∅ := by
  unfold row
  rw [List.getD_eq_getElem?_getD, List.getElem?_replicate]
  split <;> rfl

theorem solve_forall [DecidableEq α] {S : Nat → α → Prop}
    (hS : ∀ r : Nat → Finset α, (∀ c, ∀ a ∈ r c, S c a) → ∀ b, ∀ a ∈ transfer r b, S b a)
    {n fuel c : Nat} {a : α} (ha : a ∈ row (solve transfer order n fuel) c) : S c a := by
  refine stabilise_inv (P := fun t => ∀ c, ∀ a ∈ row t c, S c a)
    (fun t ht => row_sweep_forall hS ht) ?_ c a ha
  intro c a ha
  rw [row_replicate] at ha
  exact absurd ha (Finset.notMem_empty a)

theorem forall₂_of_row {s t : List (Finset α)} (hlen : s.length = t.length)
    (hrow : ∀ c, row s c ⊆ row t c) : List.Forall₂ (· ⊆ ·) s t := by
  rw [List.forall₂_iff_get]
  refine ⟨hlen, fun c hs ht => ?_⟩
  have h := hrow c
  rwa [row, row, List.getD_eq_getElem _ _ hs, List.getD_eq_getElem _ _ ht] at h

section

variable (hmono : ∀ r r' : Nat → Finset α, (∀ b, r b ⊆ r' b) → ∀ b, transfer r b ⊆ transfer r' b)

include hmono

theorem Extends.set (hext : Extends transfer table) (b : Nat) :
    Extends transfer (table.set b (transfer (row table) b)) := by
  intro c
  have hgrow := hmono _ _ (row_subset_set hext b) c
  by_cases hb : b < table.length
  · have hc : row (table.set b (transfer (row table) b)) c ⊆ transfer (row table) c := by
      rw [row_set hb]
      split
      · rename_i hcb
        rw [hcb]
      · exact hext c
    exact hc.trans hgrow
  · rw [List.set_eq_of_length_le (by omega)]
    exact hext c

theorem Extends.sweep (order : List Nat) (hext : Extends transfer table) :
    Extends transfer (sweep transfer order table) ∧
      ∀ c, row table c ⊆ row (sweep transfer order table) c := by
  induction order generalizing table with
  | nil => exact ⟨hext, fun c => Finset.Subset.refl _⟩
  | cons b order ih =>
    obtain ⟨hrest, hsub⟩ := ih (hext.set hmono b)
    exact ⟨hrest, fun c => (row_subset_set hext b c).trans (hsub c)⟩

/-- A sweep that changes nothing leaves every row it visits equal to its transfer. -/
theorem row_eq_of_sweep_eq (hext : Extends transfer table)
    (hfix : Fixpoint.sweep transfer order table = table) {b : Nat} (hb : b ∈ order)
    (hlt : b < table.length) : row table b = transfer (row table) b := by
  induction order with
  | nil => simp at hb
  | cons a order ih =>
    have hrest : Fixpoint.sweep transfer (a :: order) table
        = Fixpoint.sweep transfer order (table.set a (transfer (row table) a)) := rfl
    -- the table after the first row lies between the start and the result, which are equal
    have hfirst : table.set a (transfer (row table) a) = table := by
      refine ext_row List.length_set fun c => Finset.Subset.antisymm ?_ (row_subset_set hext a c)
      refine (((hext.set hmono a).sweep hmono order).2 c).trans ?_
      rw [← hrest, hfix]
    rcases List.mem_cons.mp hb with rfl | hb
    · have h := row_set hlt (transfer (row table) b) b
      rwa [hfirst, if_pos rfl] at h
    · rw [hrest, hfirst] at hfix
      exact ih hfix hb

variable [DecidableEq α] {all : Finset α} {n fuel : Nat}
  (hall : ∀ r : Nat → Finset α, (∀ c, r c ⊆ all) → ∀ b, transfer r b ⊆ all)
  (hfuel : n * all.card ≤ fuel)

include hall hfuel

/-- Sweeps end: the fuel for every element of every row to be added on its own is enough. -/
theorem sweep_solve (order : List Nat) :
    (sweep transfer order (solve transfer order n fuel) = solve transfer order n fuel) ∧
      (solve transfer order n fuel).length = n ∧
      Extends transfer (solve transfer order n fuel) := by
  let P (t : List (Finset α)) : Prop :=
    t.length = n ∧ Extends transfer t ∧ ∀ c, row t c ⊆ all
  have hstart : P (List.replicate n ∅) := by
    refine ⟨List.length_replicate, fun c => ?_, fun c => ?_⟩ <;>
      · rw [row_replicate]
        exact Finset.empty_subset _
  have hstep : ∀ t, P t → P (sweep transfer order t) := by
    intro t ⟨hlen, hext, hin⟩
    exact ⟨length_sweep.trans hlen, (hext.sweep hmono order).1, row_sweep_forall hall hin⟩
  have hgrow : ∀ t, P t → sweep transfer order t ≠ t →
      (t.map Finset.card).sum < ((sweep transfer order t).map Finset.card).sum := by
    intro t ⟨_, hext, _⟩ hne
    obtain ⟨hle, heq⟩ :=
      sum_card_le (forall₂_of_row length_sweep.symm (hext.sweep hmono order).2)
    exact lt_of_le_of_ne hle fun h => hne (heq h).symm
  have hbound : ∀ t, P t → (t.map Finset.card).sum ≤ n * all.card := by
    intro t ⟨hlen, _, hin⟩
    exact hlen ▸ sum_card_le_mul hin
  obtain ⟨hlen, hext, _⟩ : P (solve transfer order n fuel) := stabilise_inv hstep hstart
  exact ⟨stabilise_fixed _ _ hstep hgrow hbound hstart (by omega), hlen, hext⟩

/-- The solution solves the equations of the rows swept over. -/
theorem solve_eq {b : Nat} (hb : b ∈ order) (hlt : b < n) :
    row (solve transfer order n fuel) b = transfer (row (solve transfer order n fuel)) b := by
  obtain ⟨hfix, hlen, hext⟩ := sweep_solve hmono hall hfuel order
  exact row_eq_of_sweep_eq hmono hext hfix hb (by omega)

end

end Table

end Fixpoint

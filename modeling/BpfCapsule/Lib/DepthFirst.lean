import Mathlib.Data.Finset.Card
import Mathlib.Data.List.Chain
import Mathlib.Tactic.Common

/-!
# Depth-first order

Walks of a finite directed graph, given by its successor lists and its entries, and the depth-first
walk that orders the nodes it reaches:

* `WalkTo p v` — `p` is the part of a walk from an entry that comes before its last node `v`;
* `Topological` — every node comes once, before all its successors;
* `visit` — the recursive walk with its three colours, which stops at a node that is still active;
* **`search_spec`** — with as much fuel as there are nodes the search either gives the reverse of a
  topological order of exactly the nodes on walks, or there is a walk that meets a node twice.
-/

namespace DepthFirst

open Function (update update_apply)

variable {V : Type} {succ : V → List V} {entries : List V}

/-! ## Walks -/

/-- A walk from an entry to `v`, whose nodes before `v` are `p`. -/
inductive WalkTo (succ : V → List V) (entries : List V) : List V → V → Prop where
  | start {v : V} (h : v ∈ entries) : WalkTo succ entries [] v
  | step {p : List V} {u v : V} (h : WalkTo succ entries p u) (hs : v ∈ succ u) :
      WalkTo succ entries (p ++ [u]) v

/-- A nonempty path that begins at an entry and follows edges. -/
structure Walk (succ : V → List V) (entries path : List V) : Prop where
  starts : ∃ e ∈ entries, path.head? = some e
  follows : path.IsChain fun u v => v ∈ succ u

variable {p l : List V} {v : V}

theorem Walk.walkTo (h : Walk succ entries (p ++ [v])) : WalkTo succ entries p v := by
  induction p using List.reverseRecOn generalizing v with
  | nil =>
    obtain ⟨e, he, hhead⟩ := h.starts
    cases hhead
    exact .start he
  | append_singleton p u ih =>
    obtain ⟨hfront, _, hedge⟩ := List.isChain_append.mp h.follows
    have hwalk : Walk succ entries (p ++ [u]) := by
      refine ⟨?_, hfront⟩
      obtain ⟨e, he, hhead⟩ := h.starts
      refine ⟨e, he, ?_⟩
      rw [List.head?_append_of_ne_nil _ (by simp)] at hhead
      exact hhead
    exact .step (ih hwalk) (hedge u (by simp) v (by simp))

theorem WalkTo.walk (h : WalkTo succ entries p v) : Walk succ entries (p ++ [v]) := by
  induction h with
  | start h => exact ⟨⟨_, h, rfl⟩, List.isChain_singleton _⟩
  | @step p u v h hs ih =>
    refine ⟨?_, List.isChain_append.mpr ⟨ih.follows, List.isChain_singleton _, ?_⟩⟩
    · obtain ⟨e, he, hhead⟩ := ih.starts
      exact ⟨e, he, by rw [List.head?_append_of_ne_nil _ (by simp)]; exact hhead⟩
    · intro x hx y hy
      rw [List.getLast?_concat] at hx
      cases hx
      cases hy
      exact hs

/-- Every walk has a last node. -/
theorem Walk.exists_walkTo {path : List V} (h : Walk succ entries path) :
    ∃ p v, path = p ++ [v] ∧ WalkTo succ entries p v := by
  obtain ⟨e, _, hhead⟩ := h.starts
  have hne : path ≠ [] := by
    intro hnil
    rw [hnil] at hhead
    cases hhead
  refine ⟨path.dropLast, path.getLast hne, (List.dropLast_append_getLast hne).symm, ?_⟩
  apply Walk.walkTo
  rw [List.dropLast_append_getLast hne]
  exact h

theorem WalkTo.walk_append {q : List V} (h : WalkTo succ entries p v)
    (hq : (v :: q).IsChain fun u w => w ∈ succ u) : Walk succ entries (p ++ v :: q) := by
  induction q generalizing p v with
  | nil => exact h.walk
  | cons w q ih =>
    obtain ⟨hedge, hrest⟩ := List.isChain_cons_cons.mp hq
    have hnext := ih (h.step hedge) hrest
    rwa [List.append_assoc] at hnext

theorem WalkTo.of_walk_append {q : List V} (h : Walk succ entries (p ++ v :: q)) :
    WalkTo succ entries p v ∧ (v :: q).IsChain fun u w => w ∈ succ u := by
  refine ⟨?_, h.follows.right_of_append⟩
  apply Walk.walkTo
  have hsplit : p ++ v :: q = (p ++ [v]) ++ q := by rw [List.append_assoc]; rfl
  rw [hsplit] at h
  refine ⟨?_, h.follows.left_of_append⟩
  obtain ⟨e, he, hhead⟩ := h.starts
  exact ⟨e, he, by rwa [List.head?_append_of_ne_nil _ (by simp)] at hhead⟩

/-! ## Topological orders -/

def Topological (succ : V → List V) : List V → Prop
  | [] => True
  | u :: rest => u ∉ rest ∧ (∀ s ∈ succ u, s ∈ rest) ∧ Topological succ rest

theorem Topological.succ_mem (h : Topological succ l) {u s : V} (hu : u ∈ l) (hs : s ∈ succ u) :
    s ∈ l := by
  induction l with
  | nil => cases hu
  | cons w rest ih =>
    obtain ⟨_, hsucc, hrest⟩ := h
    rcases List.mem_cons.mp hu with rfl | hu
    · exact List.mem_cons_of_mem _ (hsucc s hs)
    · exact List.mem_cons_of_mem _ (ih hrest hu)

/-- What a node has when all its successors have it, every node of the order has. -/
theorem Topological.induction {P : V → Prop} (h : Topological succ l)
    (hstep : ∀ u ∈ l, (∀ s ∈ succ u, P s) → P u) : ∀ v ∈ l, P v := by
  induction l with
  | nil => exact fun v hv => (nomatch hv)
  | cons u rest ih =>
    obtain ⟨_, hsucc, hrest⟩ := h
    have hbelow := ih hrest fun w hw => hstep w (List.mem_cons_of_mem _ hw)
    intro v hv
    rcases List.mem_cons.mp hv with rfl | hv
    · exact hstep v List.mem_cons_self fun s hs => hbelow s (hsucc s hs)
    · exact hbelow v hv

theorem Topological.walkTo_mem (h : Topological succ l) (hentries : ∀ e ∈ entries, e ∈ l)
    (hw : WalkTo succ entries p v) : v ∈ l := by
  induction hw with
  | start he => exact hentries _ he
  | step _ hs ih => exact h.succ_mem ih hs

section Nodup

variable [DecidableEq V]

theorem Topological.idxOf_lt (h : Topological succ l) {u s : V} (hu : u ∈ l)
    (hs : s ∈ succ u) : l.idxOf u < l.idxOf s := by
  induction l with
  | nil => cases hu
  | cons w rest ih =>
    obtain ⟨hw, hsucc, hrest⟩ := h
    rcases List.mem_cons.mp hu with rfl | hu
    · have hne : u ≠ s := fun heq => hw (heq ▸ hsucc s hs)
      rw [List.idxOf_cons_self, List.idxOf_cons_ne _ hne]
      omega
    · have hwu : w ≠ u := fun heq => hw (heq ▸ hu)
      have hws : w ≠ s := fun heq => hw (heq ▸ hrest.succ_mem hu hs)
      rw [List.idxOf_cons_ne _ hwu, List.idxOf_cons_ne _ hws]
      have := ih hrest hu
      omega

theorem Topological.walkTo_nodup (h : Topological succ l) (hentries : ∀ e ∈ entries, e ∈ l)
    (hw : WalkTo succ entries p v) : (p ++ [v]).Nodup := by
  -- the index in the order grows along a walk
  suffices hgrows : (∀ x ∈ p, l.idxOf x < l.idxOf v) ∧ (p ++ [v]).Nodup from hgrows.2
  induction hw with
  | start _ => exact ⟨fun x hx => (nomatch hx), List.nodup_singleton _⟩
  | @step p u v hw hs ih =>
    have hedge : l.idxOf u < l.idxOf v := h.idxOf_lt (h.walkTo_mem hentries hw) hs
    have hlt : ∀ x ∈ p ++ [u], l.idxOf x < l.idxOf v := by
      intro x hx
      rcases List.mem_append.mp hx with hx | hx
      · exact (ih.1 x hx).trans hedge
      · exact List.mem_singleton.mp hx ▸ hedge
    refine ⟨hlt, List.nodup_append.mpr ⟨ih.2, List.nodup_singleton v, ?_⟩⟩
    rintro x hx y hy rfl
    exact (hlt x hx).ne (by rw [List.mem_singleton.mp hy])

end Nodup

/-! ## The search -/

/-- The state of the walk: colours 0, 1 and 2 for new, active and finished, the active nodes from
the entry down, and the finished ones in the order they finished. -/
structure State (V : Type) where
  color : V → Nat
  active : List V
  postorder : List V

variable {all : Finset V}

def fresh (all : Finset V) (st : State V) : Finset V := all.filter fun v => st.color v = 0

theorem fresh_subset (all : Finset V) {st st' : State V} (h : ∀ v, st'.color v = 0 → st.color v = 0) :
    fresh all st' ⊆ fresh all st := by
  intro v hv
  rw [fresh, Finset.mem_filter] at hv ⊢
  exact ⟨hv.1, h v hv.2⟩

section Search

variable [DecidableEq V]

/-- Visit `v`. An active node ends the search with the cycle from it back to itself. -/
def visit (succ : V → List V) : (fuel : Nat) → State V → V → Except (List V) (State V)
  | 0, st, _ => .ok st
  | fuel + 1, st, v =>
    if st.color v = 2 then .ok st
    else if st.color v = 1 then .error (st.active.dropWhile (· ≠ v) ++ [v])
    else do
      let st ← (succ v).foldlM (visit succ fuel)
        ⟨update st.color v 1, st.active ++ [v], st.postorder⟩
      pure ⟨update st.color v 2, st.active.dropLast, st.postorder ++ [v]⟩

def search (succ : V → List V) (entries : List V) (fuel : Nat) : Except (List V) (List V) := do
  let st ← entries.foldlM (visit succ fuel) ⟨fun _ => 0, [], []⟩
  pure st.postorder

structure Inv (succ : V → List V) (entries : List V) (st : State V) : Prop where
  color_le : ∀ v, st.color v ≤ 2
  active_iff : ∀ v, st.color v = 1 ↔ v ∈ st.active
  finished_iff : ∀ v, st.color v = 2 ↔ v ∈ st.postorder
  topological : Topological succ st.postorder.reverse
  walked : ∀ v ∈ st.postorder, ∃ p, WalkTo succ entries p v

/-- What visits of the nodes `vs` from `st` give: all of them are finished and nothing else that was
known has changed, or there is a walk that comes back to one of its nodes. -/
def Visited (succ : V → List V) (entries : List V) (st : State V) (vs : List V) :
    Except (List V) (State V) → Prop
  | .ok st' => Inv succ entries st' ∧ st'.active = st.active ∧
      (∀ v ∈ vs, v ∈ st'.postorder) ∧ (∀ v ∈ st.postorder, v ∈ st'.postorder) ∧
      ∀ v, st'.color v = 0 → st.color v = 0
  | .error _ => ∃ p v, WalkTo succ entries p v ∧ v ∈ p

variable {fuel : Nat} {st : State V}

/-- Visits one after the other, from the spec of one visit. -/
theorem visited_foldlM
    (hone : ∀ (st : State V) (v : V), Inv succ entries st → WalkTo succ entries st.active v →
      v ∈ all → (fresh all st).card < fuel → Visited succ entries st [v] (visit succ fuel st v))
    (vs : List V) (hinv : Inv succ entries st) (hwalk : ∀ v ∈ vs, WalkTo succ entries st.active v)
    (hall : ∀ v ∈ vs, v ∈ all) (hfuel : (fresh all st).card < fuel) :
    Visited succ entries st vs (vs.foldlM (visit succ fuel) st) := by
  induction vs generalizing st with
  | nil => exact ⟨hinv, rfl, fun v hv => (nomatch hv), fun v hv => hv, fun v hv => hv⟩
  | cons v vs ih =>
    rw [List.foldlM_cons]
    have hfirst := hone st v hinv (hwalk v List.mem_cons_self) (hall v List.mem_cons_self) hfuel
    generalize visit succ fuel st v = first at hfirst ⊢
    cases first with
    | error cycle => exact hfirst
    | ok st₁ =>
      obtain ⟨hinv₁, hactive₁, hdone₁, hkept₁, hnew₁⟩ := hfirst
      have hcard := Finset.card_le_card (fresh_subset all hnew₁)
      have hrest := ih hinv₁
        (fun w hw => hactive₁ ▸ hwalk w (List.mem_cons_of_mem _ hw))
        (fun w hw => hall w (List.mem_cons_of_mem _ hw)) (by omega)
      show Visited succ entries st (v :: vs) (vs.foldlM (visit succ fuel) st₁)
      generalize vs.foldlM (visit succ fuel) st₁ = rest at hrest ⊢
      cases rest with
      | error cycle => exact hrest
      | ok st₂ =>
        obtain ⟨hinv₂, hactive₂, hdone₂, hkept₂, hnew₂⟩ := hrest
        refine ⟨hinv₂, hactive₂.trans hactive₁, ?_, fun w hw => hkept₂ w (hkept₁ w hw),
          fun w hw => hnew₁ w (hnew₂ w hw)⟩
        intro w hw
        rcases List.mem_cons.mp hw with rfl | hw
        · exact hkept₂ w (hdone₁ w (List.mem_singleton_self w))
        · exact hdone₂ w hw

theorem Inv.enter (h : Inv succ entries st) (hv : st.color v = 0) :
    Inv succ entries ⟨update st.color v 1, st.active ++ [v], st.postorder⟩ where
  color_le w := by
    show update st.color v 1 w ≤ 2
    rw [update_apply]
    split
    · omega
    · exact h.color_le w
  active_iff w := by
    by_cases hw : w = v
    · subst hw
      simp
    · simp [hw, h.active_iff w]
  finished_iff w := by
    by_cases hw : w = v
    · subst hw
      have hnot := h.finished_iff w
      rw [hv] at hnot
      simpa using hnot
    · simp [hw, h.finished_iff w]
  topological := h.topological
  walked := h.walked

theorem Inv.leave (h : Inv succ entries st) (hactive : st.active = p ++ [v])
    (hv : v ∉ p) (hwalk : WalkTo succ entries p v) (hsucc : ∀ s ∈ succ v, s ∈ st.postorder) :
    Inv succ entries ⟨update st.color v 2, p, st.postorder ++ [v]⟩ := by
  have hcolor : st.color v = 1 := (h.active_iff v).mpr (by rw [hactive]; simp)
  have hnew : v ∉ st.postorder := fun hmem => by
    have := (h.finished_iff v).mpr hmem
    omega
  refine ⟨?_, ?_, ?_, ?_, ?_⟩
  · intro w
    show update st.color v 2 w ≤ 2
    rw [update_apply]
    split
    · omega
    · exact h.color_le w
  · intro w
    by_cases hw : w = v
    · subst hw
      simp [hv]
    · have := h.active_iff w
      rw [hactive] at this
      simpa [hw] using this
  · intro w
    by_cases hw : w = v
    · subst hw
      simp
    · simp [hw, h.finished_iff w]
  · rw [List.reverse_concat]
    exact ⟨by simpa using hnew, fun s hs => by simpa using hsucc s hs, h.topological⟩
  · intro w hw
    rcases List.mem_append.mp hw with hw | hw
    · exact h.walked w hw
    · rw [List.mem_singleton.mp hw]
      exact ⟨p, hwalk⟩

/-- One visit, with more fuel than there are new nodes. -/
theorem visit_spec (hclosed : ∀ u ∈ all, ∀ s ∈ succ u, s ∈ all) :
    ∀ (st : State V) (v : V), Inv succ entries st → WalkTo succ entries st.active v → v ∈ all →
      (fresh all st).card < fuel → Visited succ entries st [v] (visit succ fuel st v) := by
  induction fuel with
  | zero => intro st v _ _ _ hfuel; omega
  | succ fuel ih =>
    intro st v hinv hwalk hv hfuel
    unfold visit
    split
    case isTrue hdone =>
      refine ⟨hinv, rfl, ?_, fun w hw => hw, fun w hw => hw⟩
      intro w hw
      rw [List.mem_singleton.mp hw]
      exact (hinv.finished_iff v).mp hdone
    split
    case isTrue hactive => exact ⟨st.active, v, hwalk, (hinv.active_iff v).mp hactive⟩
    case isFalse hdone hactive =>
      have hzero : st.color v = 0 := by
        have := hinv.color_le v
        omega
      have hnot : v ∉ st.active := fun hmem => hactive ((hinv.active_iff v).mpr hmem)
      -- entering `v` takes it out of the new nodes, which pays for one level of the recursion
      have hshrink : fresh all ⟨update st.color v 1, st.active ++ [v], st.postorder⟩
          ⊂ fresh all st := by
        refine Finset.ssubset_iff_subset_ne.mpr ⟨fresh_subset all ?_, ?_⟩
        · intro w hw
          by_cases hwv : w = v
          · exact hwv ▸ hzero
          · simpa [hwv] using hw
        · intro heq
          have hmem : v ∈ fresh all st := Finset.mem_filter.mpr ⟨hv, hzero⟩
          rw [← heq] at hmem
          simp [fresh] at hmem
      have hcard := Finset.card_lt_card hshrink
      have hbelow := visited_foldlM ih (succ v) (hinv.enter hzero)
        (fun s hs => hwalk.step hs) (hclosed v hv) (by omega)
      generalize (succ v).foldlM (visit succ fuel) _ = below at hbelow ⊢
      cases below with
      | error cycle => exact hbelow
      | ok st₁ =>
        obtain ⟨hinv₁, hactive₁, hdone₁, hkept₁, hnew₁⟩ := hbelow
        show Visited succ entries st [v] (.ok ⟨update st₁.color v 2,
          st₁.active.dropLast, st₁.postorder ++ [v]⟩)
        rw [hactive₁, List.dropLast_concat]
        refine ⟨hinv₁.leave hactive₁ hnot hwalk hdone₁, rfl, ?_, ?_, ?_⟩
        · intro w hw
          exact List.mem_append_right _ hw
        · intro w hw
          exact List.mem_append_left _ (hkept₁ w hw)
        · intro w hw
          by_cases hwv : w = v
          · exact hwv ▸ hzero
          · have := hnew₁ w (by simpa [hwv] using hw)
            simpa [hwv] using this

/-- The whole search, with more fuel than there are nodes. -/
theorem search_spec (hclosed : ∀ u ∈ all, ∀ s ∈ succ u, s ∈ all)
    (hentries : ∀ e ∈ entries, e ∈ all) (hfuel : all.card < fuel) :
    match search succ entries fuel with
    | .ok postorder => Topological succ postorder.reverse ∧ (∀ e ∈ entries, e ∈ postorder) ∧
        ∀ v ∈ postorder, ∃ p, WalkTo succ entries p v
    | .error _ => ∃ p v, WalkTo succ entries p v ∧ v ∈ p := by
  have hinit : Inv succ entries ⟨fun _ => 0, [], []⟩ :=
    ⟨fun _ => Nat.zero_le 2, fun v => by simp, fun v => by simp, trivial, fun v hv => (nomatch hv)⟩
  have hfresh : (fresh all ⟨fun _ => 0, [], []⟩).card ≤ all.card :=
    Finset.card_le_card (Finset.filter_subset _ _)
  have hrun := visited_foldlM (visit_spec hclosed) entries hinit (fun e he => .start he) hentries
    (Nat.lt_of_le_of_lt hfresh hfuel)
  unfold search
  generalize entries.foldlM (visit succ fuel) _ = run at hrun ⊢
  cases run with
  | error cycle => exact hrun
  | ok st =>
    obtain ⟨hinv, _, hdone, _, _⟩ := hrun
    exact ⟨hinv.topological, hdone, hinv.walked⟩

end Search

end DepthFirst

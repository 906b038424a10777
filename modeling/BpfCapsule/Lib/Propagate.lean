import BpfCapsule.Lib.DepthFirst
import Mathlib.Order.Lattice

/-!
# Passes over a topological order

Two passes that compute one value per node in a single sweep, over any lattice of values:

* `pass` goes forward: it checks a node's value and joins what the node sends along each edge into
  the successors' values. When every check passes the result is closed under sending (`pass_ok`);
  whatever can be said of the values sent can be said of every value ever checked (`pass_error`).
* `fill` goes backward: it computes a node's value from those of its successors, and the result
  solves the equations (`fill_eq`).
-/

namespace Propagate

open DepthFirst
open Function (update update_self update_of_ne update_apply)

variable {V α ε : Type} [DecidableEq V] {succ : V → List V}

section Forward

variable [SemilatticeSup α] {out : V → V → α → α} {check : V → α → Except ε Unit}

/-- Join what `u` sends to each of `targets` into their values. -/
def pushTo (out : V → V → α → α) (u : V) (targets : List V) (val : V → α) : V → α :=
  targets.foldl (fun val s => update val s (val s ⊔ out u s (val u))) val

def pass (succ : V → List V) (out : V → V → α → α) (check : V → α → Except ε Unit)
    (order : List V) (val : V → α) : Except ε (V → α) :=
  order.foldlM (fun val u => do check u (val u); pure (pushTo out u (succ u) val)) val

variable {targets : List V}

theorem pushTo_of_not_mem {u v : V} (hv : v ∉ targets) (val : V → α) :
    pushTo out u targets val v = val v := by
  induction targets generalizing val with
  | nil => rfl
  | cons s targets ih =>
    show pushTo out u targets (update val s (val s ⊔ out u s (val u))) v = val v
    have hvs : v ≠ s := fun heq => hv (heq ▸ List.mem_cons_self)
    rw [ih (fun hmem => hv (List.mem_cons_of_mem _ hmem)), update_of_ne hvs]

theorem le_pushTo (u : V) (targets : List V) (val : V → α) (v : V) :
    val v ≤ pushTo out u targets val v := by
  induction targets generalizing val with
  | nil => exact le_refl _
  | cons s targets ih =>
    refine le_trans ?_ (ih (update val s (val s ⊔ out u s (val u))))
    rw [update_apply]
    split
    · rename_i hvs
      exact hvs ▸ le_sup_left
    · exact le_refl _

theorem out_le_pushTo {u s : V} (hu : u ∉ targets) (hs : s ∈ targets)
    (val : V → α) : out u s (val u) ≤ pushTo out u targets val s := by
  induction targets generalizing val with
  | nil => cases hs
  | cons t targets ih =>
    have hut : u ≠ t := fun heq => hu (heq ▸ List.mem_cons_self)
    have hrest : u ∉ targets := fun hmem => hu (List.mem_cons_of_mem _ hmem)
    show _ ≤ pushTo out u targets (update val t (val t ⊔ out u t (val u))) s
    rcases List.mem_cons.mp hs with rfl | hs
    · refine le_trans ?_ (le_pushTo u targets _ s)
      rw [update_self]
      exact le_sup_right
    · have hsent := ih hrest hs (update val t (val t ⊔ out u t (val u)))
      rwa [update_of_ne hut] at hsent

/-- What holds of the values at the start, of every value sent and of joins holds after sending. -/
theorem pushTo_justified {J : V → α → Prop} {u : V}
    (hout : ∀ s ∈ targets, ∀ x, J u x → J s (out u s x))
    (hsup : ∀ v x y, J v x → J v y → J v (x ⊔ y)) {val : V → α} (hval : ∀ v, J v (val v)) (v : V) :
    J v (pushTo out u targets val v) := by
  induction targets generalizing val with
  | nil => exact hval v
  | cons s targets ih =>
    apply ih (fun t ht => hout t (List.mem_cons_of_mem _ ht))
    intro w
    show J w (update val s (val s ⊔ out u s (val u)) w)
    rw [update_apply]
    split
    · rename_i hws
      exact hws ▸ hsup s _ _ (hval s) (hout s List.mem_cons_self _ (hval u))
    · exact hval w

theorem pass_cons {u : V} {rest : List V} {val : V → α} :
    pass succ out check (u :: rest) val = (check u (val u) >>= fun _ =>
      pass succ out check rest (pushTo out u (succ u) val)) := by
  unfold pass
  rw [List.foldlM_cons]
  cases check u (val u) <;> rfl

/-- After a pass in topological order, every edge has carried its final value. -/
theorem pass_ok {order : List V} (htop : Topological succ order) {val val' : V → α}
    (h : pass succ out check order val = .ok val') :
    (∀ v, val v ≤ val' v) ∧ (∀ v, v ∉ order → val' v = val v) ∧
      ∀ u ∈ order, check u (val' u) = .ok () ∧ ∀ s ∈ succ u, out u s (val' u) ≤ val' s := by
  induction order generalizing val with
  | nil =>
    cases h
    exact ⟨fun _ => le_refl _, fun _ _ => rfl, fun u hu => (nomatch hu)⟩
  | cons u rest ih =>
    obtain ⟨hnew, hsucc, hrest⟩ := htop
    rw [pass_cons] at h
    cases hcheck : check u (val u) with
    | error e => rw [hcheck] at h; cases h
    | ok _ =>
      rw [hcheck] at h
      obtain ⟨hle, hkeep, hclosed⟩ := ih hrest h
      have hself : u ∉ succ u := fun hmem => hnew (hsucc u hmem)
      -- nothing sends to `u` any more, so its value is final when it is checked
      have hfinal : val' u = val u := (hkeep u hnew).trans (pushTo_of_not_mem hself val)
      refine ⟨fun v => (le_pushTo u (succ u) val v).trans (hle v), ?_, ?_⟩
      · intro v hv
        rw [hkeep v (fun hmem => hv (List.mem_cons_of_mem _ hmem))]
        exact pushTo_of_not_mem (fun hmem => hv (List.mem_cons_of_mem _ (hsucc v hmem))) val
      · intro w hw
        rcases List.mem_cons.mp hw with rfl | hw
        · rw [hfinal]
          exact ⟨hcheck, fun s hs => (out_le_pushTo hself hs val).trans (hle s)⟩
        · exact hclosed w hw

section Justified

variable {J : V → α → Prop} {order : List V}
  (hout : ∀ u ∈ order, ∀ s ∈ succ u, ∀ x, J u x → J s (out u s x))
  (hsup : ∀ v x y, J v x → J v y → J v (x ⊔ y))

include hout hsup

theorem pass_justified {val val' : V → α} (hval : ∀ v, J v (val v))
    (h : pass succ out check order val = .ok val') (v : V) : J v (val' v) := by
  induction order generalizing val with
  | nil => cases h; exact hval v
  | cons u rest ih =>
    rw [pass_cons] at h
    cases hcheck : check u (val u) with
    | error e => rw [hcheck] at h; cases h
    | ok _ =>
      rw [hcheck] at h
      exact ih (fun w hw => hout w (List.mem_cons_of_mem _ hw))
        (pushTo_justified (hout u List.mem_cons_self) hsup hval) h

/-- A pass fails only where the check fails, on a value the invariant allows. -/
theorem pass_error {val : V → α} (hval : ∀ v, J v (val v)) {e : ε}
    (h : pass succ out check order val = .error e) :
    ∃ u ∈ order, ∃ x, J u x ∧ check u x = .error e := by
  induction order generalizing val with
  | nil => cases h
  | cons u rest ih =>
    rw [pass_cons] at h
    cases hcheck : check u (val u) with
    | error e' =>
      rw [hcheck] at h
      cases h
      exact ⟨u, List.mem_cons_self, val u, hval u, hcheck⟩
    | ok _ =>
      rw [hcheck] at h
      obtain ⟨w, hw, x, hx⟩ := ih (fun w hw => hout w (List.mem_cons_of_mem _ hw))
        (pushTo_justified (hout u List.mem_cons_self) hsup hval) h
      exact ⟨w, List.mem_cons_of_mem _ hw, x, hx⟩

end Justified

end Forward

section Backward

variable {f : V → (V → α) → α}

def fill (f : V → (V → α) → α) (postorder : List V) (val : V → α) : V → α :=
  postorder.foldl (fun val v => update val v (f v val)) val

theorem fill_concat (postorder : List V) (v : V) (val : V → α) :
    fill f (postorder ++ [v]) val
      = update (fill f postorder val) v (f v (fill f postorder val)) := by
  unfold fill
  rw [List.foldl_append]
  rfl

/-- When a node's value depends on its successors' only, the pass in reverse topological order
solves the equations, and leaves the other nodes alone. -/
theorem fill_eq (hf : ∀ v g g', (∀ s ∈ succ v, g s = g' s) → f v g = f v g') {order : List V}
    (htop : Topological succ order) (val : V → α) :
    (∀ v ∈ order, fill f order.reverse val v = f v (fill f order.reverse val)) ∧
      ∀ v, v ∉ order → fill f order.reverse val v = val v := by
  induction order with
  | nil => exact ⟨fun v hv => (nomatch hv), fun _ _ => rfl⟩
  | cons u rest ih =>
    obtain ⟨hnew, hsucc, hrest⟩ := htop
    obtain ⟨heq, hkeep⟩ := ih hrest
    rw [List.reverse_cons, fill_concat]
    have hne : ∀ v ∈ rest, v ≠ u := fun v hv h => hnew (h ▸ hv)
    -- the last update is at `u`, which none of the nodes of the order has as a successor
    have hsame : ∀ v ∈ u :: rest, f v (fill f rest.reverse val)
        = f v (update (fill f rest.reverse val) u (f u (fill f rest.reverse val))) := by
      intro v hv
      apply hf
      intro s hs
      have hmem : s ∈ rest := by
        rcases List.mem_cons.mp hv with rfl | hv
        · exact hsucc s hs
        · exact hrest.succ_mem hv hs
      rw [update_of_ne (hne s hmem)]
    refine ⟨?_, ?_⟩
    · intro v hv
      rw [← hsame v hv]
      rcases List.mem_cons.mp hv with rfl | hv
      · rw [update_self]
      · rw [update_of_ne (hne v hv)]
        exact heq v hv
    · intro v hv
      have hvu : v ≠ u := fun h => hv (h ▸ List.mem_cons_self)
      rw [update_of_ne hvu]
      exact hkeep v fun hmem => hv (List.mem_cons_of_mem _ hmem)

end Backward

end Propagate

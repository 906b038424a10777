import BpfCapsule.Plan.Sound
import Mathlib.Data.List.Induction

/-!
# BpfCapsule — planning again

`__bpf_capsule_plan` finishes the record in place, and a loader may call it any number of times with
other capacities. What it writes it does not read, so only the last request that is accepted counts;
and a request that asks for less than an accepted one is accepted.
-/

namespace BpfCapsule.Host

open Compiler

/-- The state that a call leaves. -/
def replan (s : PlanState) (requested : Requested) : PlanState :=
  match plan objectConfigSize requested s with
  | .ok _ s' => s'
  | .error _ s' => s'

def accepts (s : PlanState) (requested : Requested) : Bool :=
  plan objectConfigSize requested s matches .ok ..

variable {G : Geometry} {s : PlanState} {requested : Requested}

theorem accepts_iff (hG : G.Describes s.config) : accepts s requested = true ↔
    0 < requested.fiberCount ∧ requested.fiberCount ≤ s.config.maxFibers ∧
      G.Fits requested.heapBytes requested.fiberCount := by
  unfold accepts
  constructor
  · intro h
    cases hplan : plan objectConfigSize requested s with
    | ok u s' =>
      obtain ⟨hpos, hmax, hfits, -⟩ := plan_ok hG hplan
      exact ⟨hpos, hmax, hfits⟩
    | error e s' =>
      rw [hplan] at h
      cases h
  · intro ⟨hpos, hmax, hfits⟩
    rw [plan_eq hG hpos.ne' (Nat.le_refl _) hmax, if_pos hfits]

theorem replan_eq (hG : G.Describes s.config) :
    replan s requested = if accepts s requested then planned G requested s else s := by
  unfold replan accepts
  cases hplan : plan objectConfigSize requested s with
  | ok u s' => exact (plan_ok hG hplan).2.2.2
  | error e s' => exact restores_plan objectConfigSize requested s e s' hplan

theorem describes_planned (hG : G.Describes s.config) : G.Describes (planned G requested s).config :=
  ⟨hG.heapBase, hG.slice, hG.backend, hG.direct, hG.image, hG.magic, hG.version, hG.maxFibers_pos,
    hG.maxFibers_le⟩

/-- Requests on a planned record are answered, and planned, as on the record it was made from. -/
theorem foldl_replan (hG : G.Describes s.config) (requests : List Requested) :
    requests.foldl replan s =
      ((requests.filter (accepts s)).getLast?.map (planned G · s)).getD s := by
  induction requests using List.reverseRecOn with
  | nil => rfl
  | append_singleton requests r ih =>
    rw [List.foldl_append, ih, List.filter_append, List.getLast?_append]
    cases (requests.filter (accepts s)).getLast? with
    | none =>
      show replan s r = _
      rw [replan_eq hG]
      cases haccepts : accepts s r <;> simp [haccepts]
    | some first =>
      have hsame : accepts (planned G first s) r = accepts s r := by
        rw [Bool.eq_iff_iff, accepts_iff (describes_planned hG), accepts_iff hG]
        rfl
      show replan (planned G first s) r = _
      rw [replan_eq (describes_planned hG), hsame]
      cases haccepts : accepts s r <;> simp [haccepts]
      rfl

/-- **The last accepted request counts.** However often the record of a compiled object is planned in
place, it is in the end as if only the last request that its own record admits had been made. -/
theorem last_request_counts (m : LinkedModule) (o : Object) (hm : compile m = .ok o) (entries : Nat)
    (requests : List Requested) :
    requests.foldl replan ⟨o.record, entries⟩ =
      match (requests.filter (accepts ⟨o.record, entries⟩)).getLast? with
      | none => ⟨o.record, entries⟩
      | some last => replan ⟨o.record, entries⟩ last := by
  obtain ⟨G, -, ho⟩ := compile_ok hm
  have hG : G.Describes (PlanState.mk o.record entries).config := ho.record.toDescribes
  rw [foldl_replan hG]
  cases hlast : (requests.filter (accepts ⟨o.record, entries⟩)).getLast? with
  | none => rfl
  | some last =>
    have haccepted := (List.mem_filter.mp (List.mem_of_getLast? hlast)).2
    show planned G last _ = replan _ last
    rw [replan_eq hG, if_pos haccepted]

/-- A request of 600 fibers after the sample request. -/
theorem last_request_counts_sample :
    compile (sampleModule .fixed) = .ok sampleObject ∧
      [sampleRequest, ⟨600, 0, by decide, by decide⟩].foldl replan ⟨sampleObject.record, 0⟩ =
        replan ⟨sampleObject.record, 0⟩ sampleRequest := by
  have hm : compile (sampleModule .fixed) = .ok sampleObject := by decide
  exact ⟨hm, last_request_counts _ _ hm 0 _⟩

theorem fits_mono {heapBytes heapBytes' fibers fibers' : Nat} (h : G.Fits heapBytes fibers)
    (hheap : heapBytes' ≤ heapBytes) (hfibers : fibers' ≤ fibers) : G.Fits heapBytes' fibers' := by
  have hbase : G.stackBase heapBytes' ≤ G.stackBase heapBytes := by
    apply Nat.mul_le_mul_right
    apply Nat.div_le_div_right
    unfold Geometry.heapEnd
    omega
  have hend : G.memoryEnd heapBytes' fibers' ≤ G.memoryEnd heapBytes fibers :=
    Nat.add_le_add hbase (Nat.mul_le_mul_left _ hfibers)
  refine ⟨hend.trans_lt h.memoryEnd_lt, fun harena => le_trans ?_ (h.pages_le harena)⟩
  unfold Geometry.entries
  rw [harena]
  dsimp only
  gcongr

/-- **Less is accepted.** -/
theorem accepts_less (m : LinkedModule) (o : Object) (hm : compile m = .ok o) (entries : Nat)
    (requested less : Requested) (haccepted : accepts ⟨o.record, entries⟩ requested = true)
    (hpos : 0 < less.fiberCount) (hfibers : less.fiberCount ≤ requested.fiberCount)
    (hheap : less.heapBytes ≤ requested.heapBytes) : accepts ⟨o.record, entries⟩ less = true := by
  obtain ⟨G, -, ho⟩ := compile_ok hm
  have hG : G.Describes (PlanState.mk o.record entries).config := ho.record.toDescribes
  rw [accepts_iff hG] at haccepted ⊢
  obtain ⟨-, hmax, hfits⟩ := haccepted
  exact ⟨hpos, hfibers.trans hmax, fits_mono hfits hheap hfibers⟩

/-- Three fibers and five bytes of heap ask for less than the sample request. -/
theorem accepts_less_sample :
    accepts ⟨sampleObject.record, 0⟩ sampleRequest = true ∧
      accepts ⟨sampleObject.record, 0⟩ ⟨3, 5, by decide, by decide⟩ = true := by
  have haccepted : accepts ⟨sampleObject.record, 0⟩ sampleRequest = true := by decide
  exact ⟨haccepted, accepts_less (sampleModule .fixed) _ (by decide) 0 _ _ haccepted (by decide)
    (by decide) (by decide)⟩

end BpfCapsule.Host

import BpfCapsule.Stackify.Chunks
import Mathlib.Algebra.Order.BigOperators.Group.List
import Mathlib.Algebra.Order.Ring.Nat

/-!
# BpfCapsule — the costs of loop chunks

What the arithmetic of `ClassifyLoops` does to a candidate. A saturated cost is past every limit it is
compared with, so all decisions about a loop are those of exact integers, and the costs of a candidate
are exact. Only its weight can be capped.
-/

namespace BpfCapsule.Stackify

/-! ## Saturation -/

theorem saturatingAdd_eq {left right : Nat} (h : right ≤ maxU64) :
    saturatingAdd left right = min (left + right) maxU64 := by
  unfold saturatingAdd
  split <;> omega

theorem saturatingMultiply_eq (left right : Nat) :
    saturatingMultiply left right = min (left * right) maxU64 := by
  unfold saturatingMultiply
  split
  · rename_i h
    rcases h with h | h <;> simp [h]
  · rename_i h
    have hr : 0 < right := Nat.pos_of_ne_zero fun hr => h (.inr hr)
    split
    · rename_i hlt
      have : maxU64 < left * right := (Nat.div_lt_iff_lt_mul hr).mp hlt
      omega
    · rename_i hle
      have : left * right ≤ maxU64 := (Nat.le_div_iff_mul_le hr).mp (Nat.le_of_not_lt hle)
      omega

theorem min_mul_cap (a k M : Nat) : min (min a M * k) M = min (a * k) M := by
  cases k with
  | zero => simp
  | succ k =>
    rcases Nat.le_total a M with h | h
    · rw [Nat.min_eq_left h]
    · rw [Nat.min_eq_right h]
      have h₁ : M ≤ M * (k + 1) := Nat.le_mul_of_pos_right M (Nat.succ_pos k)
      have h₂ : M * (k + 1) ≤ a * (k + 1) := Nat.mul_le_mul_right _ h
      omega

theorem foldl_saturatingAdd {α : Type} (cost : α → Nat) (l : List α) (init : Nat)
    (h : ∀ a ∈ l, cost a ≤ maxU64) :
    l.foldl (fun sum a => saturatingAdd sum (cost a)) (min init maxU64) =
      min (init + (l.map cost).sum) maxU64 := by
  induction l generalizing init with
  | nil => simp
  | cons a l ih =>
    have hstep : saturatingAdd (min init maxU64) (cost a) = min (init + cost a) maxU64 := by
      rw [saturatingAdd_eq (h a List.mem_cons_self)]
      omega
    rw [List.foldl_cons, hstep, ih _ fun b hb => h b (List.mem_cons_of_mem a hb)]
    simp [Nat.add_assoc]

theorem foldl_add {α : Type} (cost : α → Nat) (l : List α) (init : Nat) :
    l.foldl (fun sum a => sum + cost a) init = init + (l.map cost).sum := by
  induction l generalizing init with
  | nil => simp
  | cons a l ih =>
    rw [List.foldl_cons, ih]
    simp [Nat.add_assoc]

/-! ## The decisions about one loop -/

theorem LoopInst.verifierCost_le (fixedMemory : Bool) (i : LoopInst) :
    i.verifierCost fixedMemory ≤ 8 := by
  cases i <;> cases fixedMemory <;> decide

namespace LoopFacts

variable (f : LoopFacts)

theorem verifierBodyCost_machine :
    f.verifierBodyCost machine = min (f.verifierBodyCost exact) maxU64 := by
  have hcap : ∀ i ∈ f.insts, LoopInst.verifierCost f.fixedMemory i ≤ maxU64 := fun i _ =>
    Nat.le_trans (i.verifierCost_le f.fixedMemory) (by decide)
  have hm := foldl_saturatingAdd (LoopInst.verifierCost f.fixedMemory) f.insts 0 hcap
  have he := foldl_add (LoopInst.verifierCost f.fixedMemory) f.insts 0
  show f.insts.foldl (fun sum i => saturatingAdd sum (i.verifierCost f.fixedMemory)) 0 =
    min (f.insts.foldl (fun sum i => sum + i.verifierCost f.fixedMemory) 0) maxU64
  rw [he, ← hm]
  rfl

/-- The cost saturates where the exact one passes 64 bits, and nowhere else. -/
theorem verifierCost_machine (count : Nat) :
    f.verifierCost machine count = min (f.verifierCost exact count) maxU64 := by
  show saturatingMultiply (saturatingMultiply (count - 1) (f.verifierBodyCost machine))
      (f.pathFactor * f.entryFactor) =
    min ((count - 1) * f.verifierBodyCost exact * (f.pathFactor * f.entryFactor)) maxU64
  have hbody : min ((count - 1) * f.verifierBodyCost machine) maxU64 =
      min ((count - 1) * f.verifierBodyCost exact) maxU64 := by
    rw [verifierBodyCost_machine, Nat.mul_comm, min_mul_cap, Nat.mul_comm]
  rw [saturatingMultiply_eq, saturatingMultiply_eq, hbody, min_mul_cap]

theorem verifierCost_machine_le_iff (count : Nat) :
    f.verifierCost machine count ≤ loopVerifierCostLimit ↔
      f.verifierCost exact count ≤ loopVerifierCostLimit := by
  rw [verifierCost_machine]
  simp only [loopVerifierCostLimit, maxU64]
  omega

theorem verifierCost_machine_of_le {count : Nat}
    (h : f.verifierCost exact count ≤ loopVerifierCostLimit) :
    f.verifierCost machine count = f.verifierCost exact count := by
  rw [verifierCost_machine]
  exact Nat.min_eq_left (Nat.le_trans h (by decide))

theorem keepNative_machine : f.keepNative machine = f.keepNative exact := by
  simp only [keepNative, verifierCost_machine_le_iff]

theorem sizeChunk_machine (maximum : Nat) :
    f.sizeChunk machine maximum = f.sizeChunk exact maximum := by
  have hbody : f.verifierBodyCost machine = 0 ↔ f.verifierBodyCost exact = 0 := by
    rw [verifierBodyCost_machine]
    simp only [maxU64]
    omega
  unfold sizeChunk
  by_cases hone : f.verifierCost exact 2 ≤ loopVerifierCostLimit
  · simp only [hbody, f.verifierCost_machine_of_le hone]
  · have hone' := mt (f.verifierCost_machine_le_iff 2).mp hone
    simp only [hbody, gt_iff_lt, Nat.lt_of_not_le hone, Nat.lt_of_not_le hone', or_true, if_true]

theorem baselineTrips_machine : f.baselineTrips machine = f.baselineTrips exact :=
  f.sizeChunk_machine _

theorem preferredTrips_machine : f.preferredTrips machine = f.preferredTrips exact := by
  rw [preferredTrips, preferredTrips, sizeChunk_machine, baselineTrips_machine]

theorem canChunk_machine : f.canChunk machine = f.canChunk exact := by
  rw [canChunk, canChunk, baselineTrips_machine]

theorem frequency_machine : f.frequency machine = min (f.frequency exact) maxU64 :=
  saturatingMultiply_eq _ _

/-! ## A chunk fits -/

theorem verifierCost_eq (count : Nat) :
    f.verifierCost exact count = (count - 1) * f.verifierCost exact 2 := by
  show (count - 1) * f.verifierBodyCost exact * (f.pathFactor * f.entryFactor) =
    (count - 1) * (1 * f.verifierBodyCost exact * (f.pathFactor * f.entryFactor))
  rw [Nat.one_mul, Nat.mul_assoc]

theorem sizeChunk_le (maximum : Nat) : f.sizeChunk exact maximum ≤ maximum := by
  simp only [sizeChunk]
  split
  · exact Nat.zero_le _
  · split
    · exact Nat.zero_le _
    · exact Nat.min_le_left _ _

theorem sizeChunk_mono {small large : Nat} (h : small ≤ large) :
    f.sizeChunk exact small ≤ f.sizeChunk exact large := by
  simp only [sizeChunk]
  split
  · exact Nat.le_refl _
  · split
    · exact Nat.le_refl _
    · omega

theorem verifierCost_sizeChunk_le (maximum : Nat) :
    f.verifierCost exact (f.sizeChunk exact maximum) ≤ loopVerifierCostLimit := by
  rw [verifierCost_eq]
  simp only [sizeChunk]
  split
  · simp
  · split
    · simp
    · calc (min maximum (1 + loopVerifierCostLimit / f.verifierCost exact 2) - 1) *
            f.verifierCost exact 2
          ≤ loopVerifierCostLimit / f.verifierCost exact 2 * f.verifierCost exact 2 :=
            Nat.mul_le_mul_right _ (by
              have := Nat.min_le_right maximum (1 + loopVerifierCostLimit / f.verifierCost exact 2)
              exact Nat.sub_le_iff_le_add'.mpr this)
        _ ≤ loopVerifierCostLimit := Nat.div_mul_le_self _ _

theorem preferredTrips_eq :
    f.preferredTrips exact = f.sizeChunk exact (if f.branchFanout ≤ 1 then 16 else chunkTripLimit) := by
  refine Nat.max_eq_left (f.sizeChunk_mono ?_)
  split <;> decide

theorem verifierCost_two_pos (h : 2 ≤ f.baselineTrips exact) : 0 < f.verifierCost exact 2 := by
  have h : 2 ≤ f.sizeChunk exact chunkTripLimit := h
  simp only [sizeChunk] at h
  split at h
  · omega
  · split at h <;> omega

end LoopFacts

/-! ## Candidates -/

structure Chunk.Ok (c : Chunk) : Prop where
  two_le : 2 ≤ c.baselineTrips
  trips_le : c.baselineTrips ≤ c.preferredTrips
  preferred_le : c.preferredTrips ≤ 16
  baseline_pos : 0 < c.baselineCost
  baselineCost_eq : c.baselineCost = c.loop.verifierCost exact c.baselineTrips
  preferredCost_eq : c.preferredCost = c.loop.verifierCost exact c.preferredTrips
  cost_le : c.baselineCost ≤ c.preferredCost
  limit : c.preferredCost ≤ loopVerifierCostLimit
  frequency_le : c.frequency ≤ maxU64
  selected : c.trips = 0 ∨ c.trips = c.baselineTrips ∨ c.trips = c.preferredTrips

/-- The candidate of a loop is the one exact integers give, but for the cap of its weight. -/
theorem LoopFacts.candidate?_machine (f : LoopFacts) :
    f.candidate? machine =
      (f.candidate? exact).map fun c => { c with frequency := min c.frequency maxU64 } := by
  have hpref : f.verifierCost exact (f.preferredTrips exact) ≤ loopVerifierCostLimit := by
    rw [f.preferredTrips_eq]
    exact f.verifierCost_sizeChunk_le _
  have hbase : f.verifierCost exact (f.baselineTrips exact) ≤ loopVerifierCostLimit :=
    f.verifierCost_sizeChunk_le _
  unfold LoopFacts.candidate?
  rw [f.keepNative_machine, f.canChunk_machine, f.baselineTrips_machine, f.preferredTrips_machine,
    f.frequency_machine, f.verifierCost_machine_of_le hpref, f.verifierCost_machine_of_le hbase]
  split <;> rfl

theorem LoopFacts.candidate?_exact_eq {f : LoopFacts} {c : Chunk} (h : f.candidate? exact = some c) :
    c.loop = f ∧ c.frequency = f.frequency exact ∧ c.trips = 0 := by
  unfold LoopFacts.candidate? at h
  split at h
  · cases h
    exact ⟨rfl, rfl, rfl⟩
  · cases h

theorem LoopFacts.candidate?_ok {f : LoopFacts} {c : Chunk} (h : f.candidate? machine = some c) :
    c.Ok ∧ c.loop = f ∧ c.trips = 0 := by
  rw [f.candidate?_machine] at h
  unfold LoopFacts.candidate? at h
  split at h
  · rename_i hcan
    have htwo : 2 ≤ f.baselineTrips exact := by
      simp only [canChunk, Bool.and_eq_true, decide_eq_true_eq] at hcan
      exact hcan.2.2
    have hone := f.verifierCost_two_pos htwo
    have hle : f.baselineTrips exact ≤ f.preferredTrips exact := Nat.le_max_right _ _
    cases h
    refine ⟨⟨htwo, hle, ?_, ?_, rfl, rfl, ?_, ?_, Nat.min_le_right _ _, .inl rfl⟩, rfl, rfl⟩
    · rw [f.preferredTrips_eq]
      refine Nat.le_trans (f.sizeChunk_le _) ?_
      split <;> decide
    · rw [f.verifierCost_eq]
      exact Nat.mul_pos (by omega) hone
    · rw [f.verifierCost_eq, f.verifierCost_eq (f.preferredTrips exact)]
      exact Nat.mul_le_mul_right _ (by omega)
    · rw [f.preferredTrips_eq]
      exact f.verifierCost_sizeChunk_le _
  · cases h

end BpfCapsule.Stackify

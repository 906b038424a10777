import BpfCapsule.Stackify.ChunkCosts
import Mathlib.Algebra.Group.Action.Defs
import Mathlib.Algebra.Order.Field.Rat
import Mathlib.Data.Prod.Lex

/-!
# BpfCapsule — the growth of loop chunks

The rounds of `ClassifyLoops`. A candidate can step up twice, so the rounds end. What has been spent is
the cost of the selected trips and never passes the budget. The factors of a comparison are small
enough for 128 bits, and the bid a scan selects is the largest in a linear order of rates and names,
so it is the same whatever order the candidates are in.
-/

namespace BpfCapsule.Stackify

open scoped List
open LoopFacts

/-! ## Offers -/

structure Offer.Small (o : Offer) : Prop where
  gain_le : o.gain ≤ maxU64 * 15
  denominator_pos : 0 < o.denominator
  denominator_le : o.denominator ≤ 256
  cost_le : o.cost ≤ loopVerifierCostLimit

namespace Chunk

def spent (c : Chunk) : Nat := c.loop.verifierCost exact c.trips

def steps (c : Chunk) : Nat :=
  if c.trips = 0 then 2 else if c.trips = c.baselineTrips ∧ c.baselineTrips < c.preferredTrips then 1
  else 0

def name (c : Chunk) : String ×ₗ String := toLex (c.loop.function, c.loop.header)

@[simp] theorem grown_loop (c : Chunk) : c.grown.loop = c.loop := rfl

variable {c : Chunk}

theorem Ok.grown (h : c.Ok) : c.grown.Ok := by
  refine ⟨h.two_le, h.trips_le, h.preferred_le, h.baseline_pos, h.baselineCost_eq, h.preferredCost_eq,
    h.cost_le, h.limit, h.frequency_le, ?_⟩
  unfold Chunk.grown
  by_cases ht : c.trips = 0 <;> simp [ht]

theorem spent_eq_zero (h : c.trips = 0) : c.spent = 0 := by
  rw [spent, h, verifierCost_eq]
  exact Nat.zero_mul _

theorem Ok.spent_le (h : c.Ok) : c.spent ≤ c.preferredCost := by
  rcases h.selected with ht | ht | ht
  · rw [spent_eq_zero ht]
    exact Nat.zero_le _
  · rw [spent, ht, ← h.baselineCost_eq]
    exact h.cost_le
  · rw [spent, ht, ← h.preferredCost_eq]

/-- No gain is lost to 128 bits. -/
theorem Ok.offer_machine (h : c.Ok) : c.offer machine = c.offer exact := by
  have hwide : ∀ k, k ≤ 16 → machine.wide (c.frequency * k) = exact.wide (c.frequency * k) := by
    intro k hk
    have hprod : c.frequency * k ≤ maxU64 * 16 := Nat.mul_le_mul h.frequency_le hk
    exact Nat.mod_eq_of_lt (Nat.lt_of_le_of_lt hprod (by decide))
  have hb := h.trips_le
  have hp := h.preferred_le
  unfold Chunk.offer
  rw [hwide (c.baselineTrips - 1) (by omega), hwide (c.preferredTrips - c.baselineTrips) (by omega)]

theorem Ok.offer_spec (h : c.Ok) {o : Offer} (ho : c.offer exact = some o) :
    o.Small ∧ c.grown.spent = c.spent + o.cost ∧ c.grown.steps < c.steps := by
  have h2 := h.two_le
  have hbp := h.trips_le
  have hp := h.preferred_le
  have hcost := h.cost_le
  have hlimit := h.limit
  -- first from nothing to the baseline, then from the baseline to the preferred trips
  unfold Chunk.offer at ho
  split at ho
  · rename_i ht
    cases ho
    have hg : c.grown.trips = c.baselineTrips := by simp [Chunk.grown, ht]
    refine ⟨⟨?_, ?_, ?_, Nat.le_trans hcost hlimit⟩, ?_, ?_⟩
    · exact Nat.mul_le_mul h.frequency_le (by omega)
    · show 0 < c.baselineTrips
      omega
    · show c.baselineTrips ≤ 256
      omega
    · rw [spent_eq_zero ht, spent, hg, grown_loop, ← h.baselineCost_eq, Nat.zero_add]
    · have hlt : c.grown.steps ≤ 1 := by
        unfold steps
        rw [if_neg (by omega)]
        split <;> omega
      have : c.steps = 2 := if_pos ht
      omega
  · split at ho
    · rename_i ht hb
      cases ho
      have hg : c.grown.trips = c.preferredTrips := by simp [Chunk.grown, ht]
      refine ⟨⟨?_, Nat.mul_pos (by omega) (by omega), ?_, Nat.le_trans (Nat.sub_le _ _) hlimit⟩, ?_, ?_⟩
      · exact Nat.mul_le_mul h.frequency_le (by omega)
      · exact Nat.mul_le_mul (Nat.le_trans hbp hp) hp
      · rw [spent, hg, grown_loop, ← h.preferredCost_eq, spent, hb.1, ← h.baselineCost_eq]
        show c.preferredCost = c.baselineCost + (c.preferredCost - c.baselineCost)
        omega
      · have hzero : c.grown.steps = 0 := by
          have hbase : c.grown.baselineTrips = c.baselineTrips := rfl
          unfold steps
          rw [if_neg (by omega), if_neg (by omega)]
        have : c.steps = 1 := by
          unfold steps
          rw [if_neg ht, if_pos hb]
        omega
    · cases ho

end Chunk

/-! ## Scans -/

section

variable {A : Arith} {left : Nat} {chunks : List Chunk} {bid : Bid}

theorem mem_bids : bid ∈ bids A left chunks ↔
    chunks[bid.index]? = some bid.chunk ∧ bid.chunk.offer A = some bid.offer ∧
      0 < bid.offer.cost ∧ bid.offer.cost ≤ left := by
  obtain ⟨i, c, o⟩ := bid
  simp only [bids, List.mem_filterMap, Prod.exists, List.mk_mem_zipIdx_iff_getElem?,
    Option.bind_eq_some_iff]
  constructor
  · rintro ⟨c', i', hi, o', ho, hif⟩
    split at hif
    · cases hif
    · cases hif
      exact ⟨hi, ho, by omega, by omega⟩
  · rintro ⟨hi, ho, hpos, hle⟩
    exact ⟨c, i, hi, o, ho, if_neg (by omega)⟩

theorem exists_bid (hc : bid.chunk ∈ chunks) (ho : bid.chunk.offer A = some bid.offer)
    (hpos : 0 < bid.offer.cost) (hle : bid.offer.cost ≤ left) :
    ∃ b ∈ bids A left chunks, b.chunk = bid.chunk ∧ b.offer = bid.offer := by
  obtain ⟨i, hi⟩ := List.mem_iff_getElem?.mp hc
  exact ⟨⟨i, bid.chunk, bid.offer⟩, mem_bids.mpr ⟨hi, ho, hpos, hle⟩, rfl, rfl⟩

section Selection

variable {α : Type} {r s : α → α → Prop} [DecidableRel r] [DecidableRel s] {l : List α}

/-- The best of a list so far is one of its members. -/
theorem mem_argAux {best : Option α} (hbest : ∀ b ∈ best, b ∈ l) {a : α} (ha : a ∈ l) :
    ∀ b ∈ List.argAux r best a, b ∈ l := by
  cases best with
  | none => simpa [List.argAux] using ha
  | some b =>
    by_cases h : r a b
    · simpa [List.argAux, h] using ha
    · simpa [List.argAux, h] using hbest

theorem mem_of_foldl_argAux {m : α} (h : l.foldl (List.argAux r) none = some m) : m ∈ l :=
  List.foldlRecOn (motive := fun best => ∀ b ∈ best, b ∈ l) l _ (by simp)
    (fun _ hbest _ ha => mem_argAux hbest ha) m h

theorem foldl_argAux_congr (h : ∀ a ∈ l, ∀ b ∈ l, (r a b ↔ s a b)) :
    l.foldl (List.argAux r) none = l.foldl (List.argAux s) none := by
  refine (List.foldl_rel (r := fun best best' => best = best' ∧ ∀ b ∈ best, b ∈ l)
    ⟨rfl, by simp⟩ ?_).1
  rintro a ha best _ ⟨rfl, hbest⟩
  refine ⟨?_, mem_argAux hbest ha⟩
  cases best with
  | none => rfl
  | some b => simp only [List.argAux, h a ha b (hbest b rfl)]

end Selection

theorem scan_eq_foldl (A : Arith) (left : Nat) (chunks : List Chunk) :
    scan A left chunks = (bids A left chunks).foldl (List.argAux fun a b => beats A a b = true) none := by
  unfold scan
  congr 1
  funext best bid
  cases best <;> rfl

theorem mem_bids_of_scan (h : scan A left chunks = some bid) : bid ∈ bids A left chunks := by
  rw [scan_eq_foldl] at h
  exact mem_of_foldl_argAux h

theorem scan_eq_none : scan A left chunks = none ↔ bids A left chunks = [] := by
  rw [scan_eq_foldl, List.foldl_argAux_eq_none]
  exact and_iff_left rfl

end

/-! ## The order of the bids -/

def Bid.rate (b : Bid) : ℚ := b.offer.gain / (b.offer.denominator * b.offer.cost)

/-- The order a scan selects by: the higher rate, then the smaller names. -/
def Bid.key (b : Bid) : ℚ ×ₗ (String ×ₗ String)ᵒᵈ := toLex (b.rate, OrderDual.toDual b.chunk.name)

theorem Bid.rate_lt_iff {a b : Bid} (ha : 0 < a.offer.denominator * a.offer.cost)
    (hb : 0 < b.offer.denominator * b.offer.cost) :
    b.rate < a.rate ↔ b.offer.gain * a.offer.denominator * a.offer.cost <
      a.offer.gain * b.offer.denominator * b.offer.cost := by
  have ha' : (0 : ℚ) < a.offer.denominator * a.offer.cost := by exact_mod_cast ha
  have hb' : (0 : ℚ) < b.offer.denominator * b.offer.cost := by exact_mod_cast hb
  rw [rate, rate, div_lt_div_iff₀ hb' ha', ← mul_assoc, ← mul_assoc]
  exact_mod_cast Iff.rfl

theorem stableTie_iff {a b : Bid} (h : a.chunk.name ≠ b.chunk.name) :
    stableTie a b = true ↔ a.chunk.name < b.chunk.name := by
  unfold stableTie Chunk.name
  rw [Prod.Lex.toLex_lt_toLex]
  by_cases hf : a.chunk.loop.function = b.chunk.loop.function
  · have hh : a.chunk.loop.header ≠ b.chunk.loop.header := by
      intro hh
      exact h (by rw [Chunk.name, Chunk.name, hf, hh])
    simp [hf, hh]
  · simp [hf]

section

variable {left : Nat} {chunks : List Chunk}

/-- The arithmetic of the comparison is exact: every product fits in 128 bits. -/
theorem beats_machine {a b : Bid} (ha : a.offer.Small) (hb : b.offer.Small) :
    beats machine a b = beats exact a b := by
  have hwide : ∀ {x y : Offer}, x.Small → y.Small →
      machine.wide (machine.wide (x.gain * y.denominator) * y.cost) =
        exact.wide (exact.wide (x.gain * y.denominator) * y.cost) := by
    intro x y hx hy
    have hgain : x.gain * y.denominator ≤ maxU64 * 15 * 256 :=
      Nat.mul_le_mul hx.gain_le hy.denominator_le
    have hall : x.gain * y.denominator * y.cost ≤ maxU64 * 15 * 256 * loopVerifierCostLimit :=
      Nat.mul_le_mul hgain hy.cost_le
    show x.gain * y.denominator % 2 ^ 128 * y.cost % 2 ^ 128 = x.gain * y.denominator * y.cost
    rw [Nat.mod_eq_of_lt (Nat.lt_of_le_of_lt hgain (by decide)),
      Nat.mod_eq_of_lt (Nat.lt_of_le_of_lt hall (by decide))]
  unfold beats
  rw [hwide ha hb, hwide hb ha]

theorem small_of_mem_bids (hok : ∀ c ∈ chunks, c.Ok) {b : Bid} (hb : b ∈ bids exact left chunks) :
    b.offer.Small ∧ 0 < b.offer.denominator * b.offer.cost := by
  obtain ⟨hi, ho, hpos, -⟩ := mem_bids.mp hb
  have hsmall := ((hok b.chunk (List.mem_of_getElem? hi)).offer_spec ho).1
  exact ⟨hsmall, Nat.mul_pos hsmall.denominator_pos hpos⟩

theorem scan_machine (hok : ∀ c ∈ chunks, c.Ok) :
    scan machine left chunks = scan exact left chunks := by
  have hbids : bids machine left chunks = bids exact left chunks := by
    apply List.filterMap_congr
    intro ⟨c, i⟩ hmem
    have hc := List.mem_of_getElem? (List.mk_mem_zipIdx_iff_getElem?.mp hmem)
    simp only [(hok c hc).offer_machine]
  rw [scan_eq_foldl, scan_eq_foldl, hbids]
  apply foldl_argAux_congr
  intro a ha b hb
  rw [beats_machine (small_of_mem_bids hok ha).1 (small_of_mem_bids hok hb).1]

/-- Names that are distinct tell two bids apart. -/
theorem eq_of_name_eq (hnames : (chunks.map Chunk.name).Nodup) {a b : Bid}
    (ha : a ∈ bids exact left chunks) (hb : b ∈ bids exact left chunks)
    (h : a.chunk.name = b.chunk.name) : a = b := by
  obtain ⟨hia, hoa, -⟩ := mem_bids.mp ha
  obtain ⟨hib, hob, -⟩ := mem_bids.mp hb
  have hla := (List.getElem?_eq_some_iff.mp hia).1
  have hindex : a.index = b.index := by
    apply (List.getElem?_inj (by simpa using hla) hnames).mp
    rw [List.getElem?_map, List.getElem?_map, hia, hib, Option.map_some, Option.map_some, h]
  cases a
  cases b
  simp_all

/-- A scan selects the largest bid. -/
theorem scan_eq_argmax (hok : ∀ c ∈ chunks, c.Ok) (hnames : (chunks.map Chunk.name).Nodup) :
    scan exact left chunks = (bids exact left chunks).argmax Bid.key := by
  rw [scan_eq_foldl]
  apply foldl_argAux_congr
  intro a ha b hb
  have hpa := (small_of_mem_bids hok ha).2
  have hpb := (small_of_mem_bids hok hb).2
  have hlt := Bid.rate_lt_iff hpa hpb
  have hgt := Bid.rate_lt_iff hpb hpa
  have htie : a.chunk.name ≠ b.chunk.name → (stableTie a b = true ↔ a.chunk.name < b.chunk.name) :=
    stableTie_iff
  rw [Bid.key, Bid.key, Prod.Lex.toLex_lt_toLex]
  show _ ↔ b.rate < a.rate ∨ b.rate = a.rate ∧ a.chunk.name < b.chunk.name
  by_cases hname : a.chunk.name = b.chunk.name
  · -- a bid does not beat itself
    cases eq_of_name_eq hnames ha hb hname
    simp [beats, stableTie]
  · have heq : b.rate = a.rate ↔ a.offer.gain * b.offer.denominator * b.offer.cost =
        b.offer.gain * a.offer.denominator * a.offer.cost := by
      constructor
      · intro h
        have h₁ := mt hlt.mpr (by rw [h]; exact lt_irrefl _)
        have h₂ := mt hgt.mpr (by rw [h]; exact lt_irrefl _)
        omega
      · intro h
        apply le_antisymm
        · exact not_lt.mp (mt hgt.mp (by omega))
        · exact not_lt.mp (mt hlt.mp (by omega))
    rw [hlt, heq, ← htie hname]
    simp only [beats, Bool.or_eq_true, Bool.and_eq_true, decide_eq_true_iff]
    exact Iff.rfl

end

/-! ## Rounds -/

theorem perm_set {α : Type} {l : List α} {i : Nat} {c : α} (h : l[i]? = some c) :
    l ~ c :: l.eraseIdx i ∧ ∀ a, l.set i a ~ a :: l.eraseIdx i := by
  obtain ⟨hi, rfl⟩ := List.getElem?_eq_some_iff.mp h
  exact ⟨(List.getElem_cons_eraseIdx_perm hi).symm, List.set_perm_cons_eraseIdx hi⟩

/-- What the rounds keep: candidates that are in order, and the cost of their trips as the work
spent. -/
structure Growing (cost : Nat) (chunks : List Chunk) : Prop where
  ok : ∀ c ∈ chunks, c.Ok
  spent : (chunks.map Chunk.spent).sum = cost

theorem Growing.cost_le {cost : Nat} {chunks : List Chunk} (h : Growing cost chunks) :
    cost ≤ (chunks.map Chunk.preferredCost).sum := by
  rw [← h.spent]
  exact List.sum_le_sum fun c hc => (h.ok c hc).spent_le

section

variable {budget cost left : Nat} {chunks : List Chunk} {bid : Bid}

/-- What a round does. -/
theorem Growing.round (h : Growing cost chunks) (hbid : bid ∈ bids exact left chunks) :
    Growing (cost + bid.offer.cost) (chunks.set bid.index bid.chunk.grown) ∧
      ((chunks.set bid.index bid.chunk.grown).map Chunk.steps).sum < (chunks.map Chunk.steps).sum := by
  obtain ⟨hi, ho, -, -⟩ := mem_bids.mp hbid
  have hok := h.ok bid.chunk (List.mem_of_getElem? hi)
  obtain ⟨-, hspent, hsteps⟩ := hok.offer_spec ho
  obtain ⟨hold, hnew⟩ := perm_set hi
  have hnew := hnew bid.chunk.grown
  refine ⟨⟨fun c hc => ?_, ?_⟩, ?_⟩
  · rcases List.mem_cons.mp (hnew.mem_iff.mp hc) with rfl | hrest
    · exact hok.grown
    · exact h.ok c (List.mem_of_mem_eraseIdx hrest)
  · have hsum := h.spent
    rw [(hold.map Chunk.spent).sum_eq] at hsum
    rw [(hnew.map Chunk.spent).sum_eq]
    simp only [List.map_cons, List.sum_cons] at hsum ⊢
    omega
  · rw [(hold.map Chunk.steps).sum_eq, (hnew.map Chunk.steps).sum_eq]
    simp only [List.map_cons, List.sum_cons]
    omega

theorem map_round {β : Type} (p : Chunk → β) (hp : ∀ c, p c.grown = p c)
    (hbid : bid ∈ bids exact left chunks) :
    (chunks.set bid.index bid.chunk.grown).map p = chunks.map p := by
  obtain ⟨hlt, hi⟩ := List.getElem?_eq_some_iff.mp (mem_bids.mp hbid).1
  rw [List.map_set, hp, ← List.map_set, ← hi, List.set_getElem_self]

/-- The rounds end, within the budget, and what they report as spent is the cost of the trips. -/
theorem growChunks_spec {fuel : Nat} (h : Growing cost chunks) (hcost : cost ≤ budget)
    (hfuel : (chunks.map Chunk.steps).sum ≤ fuel) :
    Growing (growChunks exact budget fuel cost chunks).2 (growChunks exact budget fuel cost chunks).1 ∧
      (growChunks exact budget fuel cost chunks).2 ≤ budget ∧
      scan exact (budget - (growChunks exact budget fuel cost chunks).2)
        (growChunks exact budget fuel cost chunks).1 = none ∧
      (growChunks exact budget fuel cost chunks).1.map Chunk.loop = chunks.map Chunk.loop := by
  induction fuel generalizing cost chunks with
  | zero =>
    refine ⟨h, hcost, ?_, rfl⟩
    show scan exact (budget - cost) chunks = none
    cases hscan : scan exact (budget - cost) chunks with
    | none => rfl
    | some bid =>
      have := (h.round (mem_bids_of_scan hscan)).2
      omega
  | succ fuel ih =>
    unfold growChunks
    split
    · rename_i hscan
      exact ⟨h, hcost, hscan, rfl⟩
    · rename_i bid hscan
      have hbid := mem_bids_of_scan hscan
      have hround := h.round hbid
      have hle := (mem_bids.mp hbid).2.2.2
      obtain ⟨hg, hb, hend, hloops⟩ := ih hround.1 (by omega) (by omega)
      exact ⟨hg, hb, hend, hloops.trans (map_round Chunk.loop Chunk.grown_loop hbid)⟩

/-- A budget past all that can be spent may be capped. -/
theorem scan_cap {cap : Nat} (h : Growing cost chunks)
    (hcap : (chunks.map Chunk.preferredCost).sum ≤ cap) :
    scan exact (min budget cap - cost) chunks = scan exact (budget - cost) chunks := by
  have hbids : bids exact (min budget cap - cost) chunks = bids exact (budget - cost) chunks := by
    apply List.filterMap_congr
    intro ⟨c, i⟩ hmem
    have hi := List.mk_mem_zipIdx_iff_getElem?.mp hmem
    show (c.offer exact).bind _ = (c.offer exact).bind _
    cases ho : c.offer exact with
    | none => rfl
    | some o =>
      -- taking the offer would leave the candidates within what they can spend
      have hspent : cost + o.cost ≤ cap := by
        by_cases hzero : o.cost = 0
        · rw [hzero]
          exact Nat.le_trans h.cost_le hcap
        · have hbid : (⟨i, c, o⟩ : Bid) ∈ bids exact o.cost chunks :=
            mem_bids.mpr ⟨hi, ho, Nat.pos_of_ne_zero hzero, Nat.le_refl _⟩
          have hle := (h.round hbid).1.cost_le
          rw [map_round Chunk.preferredCost (fun _ => rfl) hbid] at hle
          exact Nat.le_trans hle hcap
      have hiff : (o.cost = 0 ∨ o.cost > min budget cap - cost) ↔
          (o.cost = 0 ∨ o.cost > budget - cost) := by omega
      simp only [Option.bind_some, hiff]
  unfold scan
  rw [hbids]

/-- The code as it runs selects as exact integers do, also where its budget is capped. -/
theorem growChunks_machine {fuel cap : Nat} (h : Growing cost chunks)
    (hcap : (chunks.map Chunk.preferredCost).sum ≤ cap) :
    growChunks machine (min budget cap) fuel cost chunks = growChunks exact budget fuel cost chunks := by
  induction fuel generalizing cost chunks with
  | zero => rfl
  | succ fuel ih =>
    unfold growChunks
    rw [scan_machine h.ok, scan_cap h hcap]
    cases hscan : scan exact (budget - cost) chunks with
    | none => rfl
    | some bid =>
      have hbid := mem_bids_of_scan hscan
      apply ih (h.round hbid).1
      rw [map_round Chunk.preferredCost (fun _ => rfl) hbid]
      exact hcap

end

/-! ## The order of the candidates -/

section

variable {budget cost left : Nat} {chunks chunks' : List Chunk}

theorem Growing.perm (h : Growing cost chunks) (hp : chunks ~ chunks') : Growing cost chunks' :=
  ⟨fun c hc => h.ok c (hp.mem_iff.mpr hc), by rw [← (hp.map Chunk.spent).sum_eq, h.spent]⟩

theorem exists_bid_of_perm (hp : chunks ~ chunks') {b : Bid} (hb : b ∈ bids exact left chunks) :
    ∃ b' ∈ bids exact left chunks', b'.chunk = b.chunk ∧ b'.offer = b.offer := by
  obtain ⟨hi, ho, hpos, hle⟩ := mem_bids.mp hb
  exact exists_bid (hp.mem_iff.mp (List.mem_of_getElem? hi)) ho hpos hle

theorem key_eq_of_eq {a b : Bid} (hc : a.chunk = b.chunk) (ho : a.offer = b.offer) : a.key = b.key := by
  rw [Bid.key, Bid.key, Bid.rate, Bid.rate, hc, ho]

theorem scan_perm (h : Growing cost chunks) (hnames : (chunks.map Chunk.name).Nodup)
    (hp : chunks ~ chunks') {b : Bid} (hscan : scan exact left chunks = some b) :
    ∃ b', scan exact left chunks' = some b' ∧ b'.chunk = b.chunk ∧ b'.offer = b.offer := by
  have hnames' := (hp.map Chunk.name).nodup_iff.mp hnames
  obtain ⟨twin, htwin, htc, hto⟩ := exists_bid_of_perm hp (mem_bids_of_scan hscan)
  cases hscan' : scan exact left chunks' with
  | none =>
    rw [scan_eq_none.mp hscan'] at htwin
    cases htwin
  | some b' =>
    obtain ⟨twin', htwin', htc', hto'⟩ := exists_bid_of_perm hp.symm (mem_bids_of_scan hscan')
    rw [scan_eq_argmax h.ok hnames] at hscan
    rw [scan_eq_argmax (h.perm hp).ok hnames'] at hscan'
    -- each is at most the other, so the keys agree, and with them the names
    have hle : b'.key ≤ b.key := by
      rw [← key_eq_of_eq htc' hto']
      exact List.le_of_mem_argmax htwin' hscan
    have hge : b.key ≤ b'.key := by
      rw [← key_eq_of_eq htc hto]
      exact List.le_of_mem_argmax htwin hscan'
    have hname : b'.chunk.name = b.chunk.name := congrArg (fun k => (ofLex k).2) (le_antisymm hle hge)
    have hsame : twin' = b := eq_of_name_eq hnames htwin' (List.argmax_mem hscan) (htc' ▸ hname)
    exact ⟨b', rfl, by rw [← htc', hsame], by rw [← hto', hsame]⟩

theorem growChunks_perm {fuel : Nat} (h : Growing cost chunks)
    (hnames : (chunks.map Chunk.name).Nodup) (hp : chunks ~ chunks') :
    (growChunks exact budget fuel cost chunks).1 ~ (growChunks exact budget fuel cost chunks').1 := by
  induction fuel generalizing cost chunks chunks' with
  | zero => exact hp
  | succ fuel ih =>
    unfold growChunks
    cases hscan : scan exact (budget - cost) chunks with
    | none =>
      cases hscan' : scan exact (budget - cost) chunks' with
      | none => exact hp
      | some b' =>
        have hnames' := (hp.map Chunk.name).nodup_iff.mp hnames
        obtain ⟨b, hb, -⟩ := scan_perm (h.perm hp) hnames' hp.symm hscan'
        rw [hscan] at hb
        cases hb
    | some b =>
      obtain ⟨b', hscan', hchunk, hoffer⟩ := scan_perm h hnames hp hscan
      rw [hscan']
      have hbid := mem_bids_of_scan hscan
      show (growChunks exact budget fuel (cost + b.offer.cost) (chunks.set b.index b.chunk.grown)).1 ~
        (growChunks exact budget fuel (cost + b'.offer.cost) (chunks'.set b'.index b'.chunk.grown)).1
      rw [hoffer, hchunk]
      apply ih (h.round hbid).1
      · rw [map_round Chunk.name (fun _ => rfl) hbid]
        exact hnames
      · obtain ⟨hold, hnew⟩ := perm_set (mem_bids.mp hbid).1
        obtain ⟨hold', hnew'⟩ := perm_set (mem_bids.mp (mem_bids_of_scan hscan')).1
        rw [hchunk] at hold'
        have hrest : chunks.eraseIdx b.index ~ chunks'.eraseIdx b'.index :=
          (hold.symm.trans (hp.trans hold')).cons_inv
        exact (hnew _).trans ((hrest.cons _).trans (hnew' _).symm)

end

/-! ## The selection -/

section

variable {chunks chunks' : List Chunk}

/-- The budget saturates where the exact one passes 64 bits, and nowhere else. -/
theorem chunkBudget_machine (multiplier : Nat) (hok : ∀ c ∈ chunks, c.Ok) :
    chunkBudget machine multiplier chunks = min (chunkBudget exact multiplier chunks) maxU64 := by
  have hlimit : loopVerifierCostLimit ≤ maxU64 := by decide
  have hbase : ∀ c ∈ chunks.filter (·.loop.preheader), c.baselineCost ≤ maxU64 := by
    intro c hc
    have hc := hok c (List.mem_of_mem_filter hc)
    exact Nat.le_trans hc.cost_le (Nat.le_trans hc.limit hlimit)
  have hm := foldl_saturatingAdd Chunk.baselineCost (chunks.filter (·.loop.preheader)) 0 hbase
  have he := foldl_add Chunk.baselineCost (chunks.filter (·.loop.preheader)) 0
  have hsingle : chunks.foldl (fun best c => max best c.preferredCost) 0 ≤ maxU64 :=
    List.foldlRecOn (motive := (· ≤ maxU64)) _ _ (Nat.zero_le _) fun _ hbest c hc =>
      Nat.max_le.mpr ⟨hbest, Nat.le_trans (hok c hc).limit hlimit⟩
  show saturatingMultiply (max ((chunks.filter (·.loop.preheader)).foldl
      (fun sum c => saturatingAdd sum c.baselineCost) (min 0 maxU64)) _) _ =
    min (max ((chunks.filter (·.loop.preheader)).foldl (fun sum c => sum + c.baselineCost) 0) _ * _) _
  have hmax : ∀ sum single, single ≤ maxU64 → max (min sum maxU64) single = min (max sum single) maxU64 :=
    fun _ _ _ => by omega
  rw [hm, he, saturatingMultiply_eq, hmax _ _ hsingle, min_mul_cap]

theorem chunkBudget_perm (multiplier : Nat) (hp : chunks ~ chunks') :
    chunkBudget exact multiplier chunks = chunkBudget exact multiplier chunks' := by
  have hsum : ∀ l : List Chunk, l.foldl (fun sum c => exact.add sum c.baselineCost) 0 =
      0 + (l.map Chunk.baselineCost).sum := fun l => foldl_add Chunk.baselineCost l 0
  have hmax : RightCommutative fun (best : Nat) (c : Chunk) => max best c.preferredCost :=
    ⟨fun _ _ _ => Nat.max_right_comm _ _ _⟩
  simp only [chunkBudget, hsum]
  rw [((hp.filter _).map Chunk.baselineCost).sum_eq, hp.foldl_eq]

end

section

variable (loops : List LoopFacts)

theorem growing_candidates : Growing 0 (loops.filterMap (candidate? machine)) := by
  have hall : ∀ c ∈ loops.filterMap (candidate? machine), c.Ok ∧ c.trips = 0 := by
    intro c hc
    obtain ⟨f, -, hf⟩ := List.mem_filterMap.mp hc
    obtain ⟨hok, -, htrips⟩ := candidate?_ok hf
    exact ⟨hok, htrips⟩
  refine ⟨fun c hc => (hall c hc).1, List.sum_eq_zero ?_⟩
  intro n hn
  obtain ⟨c, hc, rfl⟩ := List.mem_map.mp hn
  exact Chunk.spent_eq_zero (hall c hc).2

theorem Growing.preferredCost_le {cost : Nat} {chunks : List Chunk} (h : Growing cost chunks)
    (hlen : chunks.length < 2 ^ 32) : (chunks.map Chunk.preferredCost).sum ≤ maxU64 := by
  have hsum := List.sum_le_card_nsmul (chunks.map Chunk.preferredCost) loopVerifierCostLimit (by
    intro n hn
    obtain ⟨c, hc, rfl⟩ := List.mem_map.mp hn
    exact (h.ok c hc).limit)
  simp only [List.length_map, smul_eq_mul, loopVerifierCostLimit, maxU64] at hsum ⊢
  omega

theorem steps_sum_le (chunks : List Chunk) : (chunks.map Chunk.steps).sum ≤ 2 * chunks.length := by
  have hsum := List.sum_le_card_nsmul (chunks.map Chunk.steps) 2 (by
    intro n hn
    obtain ⟨c, -, rfl⟩ := List.mem_map.mp hn
    unfold Chunk.steps
    split
    · exact Nat.le_refl 2
    · split <;> decide)
  simp only [List.length_map, smul_eq_mul] at hsum
  omega

theorem selectChunks_machine (multiplier : Nat)
    (hlen : (loops.filterMap (candidate? machine)).length < 2 ^ 32) :
    selectChunks machine multiplier loops =
      growChunks exact
        (chunkBudget exact multiplier (loops.filterMap (candidate? machine)))
        (2 * (loops.filterMap (candidate? machine)).length) 0
        (loops.filterMap (candidate? machine)) := by
  have hgrow := growing_candidates loops
  have hcap := hgrow.preferredCost_le hlen
  simp only [selectChunks]
  rw [chunkBudget_machine multiplier hgrow.ok, growChunks_machine hgrow hcap]

def Chunk.capped (c : Chunk) : Chunk := { c with frequency := min c.frequency maxU64 }

def selectCapped (multiplier : Nat) : List Chunk × Nat :=
  let chunks := (loops.filterMap (candidate? exact)).map Chunk.capped
  growChunks exact (chunkBudget exact multiplier chunks) (2 * chunks.length) 0 chunks

theorem candidates_machine : loops.filterMap (candidate? machine) =
    (loops.filterMap (candidate? exact)).map Chunk.capped := by
  rw [List.map_filterMap]
  apply List.filterMap_congr
  intro f _
  exact f.candidate?_machine

theorem selectCapped_eq (multiplier : Nat) (hfits : ∀ f ∈ loops, f.frequency exact ≤ maxU64) :
    selectCapped loops multiplier = selectChunks exact multiplier loops := by
  have hsame : (loops.filterMap (candidate? exact)).map Chunk.capped =
      loops.filterMap (candidate? exact) := by
    refine (List.map_congr_left fun c hc => ?_).trans (List.map_id _)
    obtain ⟨f, hf, hcand⟩ := List.mem_filterMap.mp hc
    have hle : c.frequency ≤ maxU64 := by
      rw [(candidate?_exact_eq hcand).2.1]
      exact hfits f hf
    show c.capped = c
    rw [Chunk.capped, Nat.min_eq_left hle]
  simp only [selectCapped, selectChunks, hsame]

/-- What the selection is for: `chunks` are the candidates of the loops. -/
structure Selection (multiplier : Nat) (chunks : List Chunk) (budget : Nat)
    (result : List Chunk × Nat) : Prop where
  candidates : result.1.map Chunk.loop = chunks.map Chunk.loop
  ended : scan machine (budget - result.2) result.1 = none
  within_budget : (result.1.map fun c => c.loop.verifierCost exact c.trips).sum ≤ budget
  within_limit : ∀ c ∈ result.1, c.trips ≤ c.preferredTrips ∧
    c.loop.verifierCost exact c.trips ≤ loopVerifierCostLimit
  native : ∀ f : LoopFacts, f.keepNative machine = f.keepNative exact
  /-- Exact integers select the same, given the weights as 64-bit numbers. -/
  capped : result = selectCapped loops multiplier
  /-- They select the same if the weights are such numbers. -/
  fits : (∀ f ∈ loops, f.frequency exact ≤ maxU64) → result = selectChunks exact multiplier loops
  order : ∀ loops', loops ~ loops' → (chunks.map Chunk.name).Nodup →
    result.1 ~ (selectChunks machine multiplier loops').1

/-- **Chunk budgeting.** For every list of loops: the rounds end; the trips selected cost at most the
budget together and at most the limit each; the selection is the one of exact integers, given the
weights as 64-bit numbers; and it does not depend on the order of the loops where no two candidates
share their names. The candidates are counted in 32 bits. -/
theorem selectChunks_sound (multiplier : Nat)
    (hlen : (loops.filterMap (candidate? machine)).length < 2 ^ 32) :
    Selection loops multiplier (loops.filterMap (candidate? machine))
      (chunkBudget machine multiplier (loops.filterMap (candidate? machine)))
      (selectChunks machine multiplier loops) := by
  generalize hchunks : loops.filterMap (candidate? machine) = chunks
  generalize hresult : selectChunks machine multiplier loops = result
  generalize hbudget : chunkBudget machine multiplier chunks = budget
  have hgrow : Growing 0 chunks := hchunks ▸ growing_candidates loops
  rw [selectChunks_machine loops multiplier hlen, hchunks] at hresult
  rw [hchunks] at hlen
  rw [chunkBudget_machine multiplier hgrow.ok] at hbudget
  obtain ⟨hg, hspent, hend, hloops⟩ := growChunks_spec hgrow
    (Nat.zero_le (chunkBudget exact multiplier chunks)) (steps_sum_le chunks)
  rw [hresult] at hg hspent hend hloops
  have hcap : (result.1.map Chunk.preferredCost).sum ≤ maxU64 := by
    apply hg.preferredCost_le
    have : result.1.length = chunks.length := by simpa using congrArg List.length hloops
    rwa [this]
  -- of the machine arithmetic only the saturated frequencies are left
  have hcapped : result = selectCapped loops multiplier := by
    rw [← hresult, ← hchunks, candidates_machine]
    rfl
  refine ⟨hloops, ?_, ?_, ?_, keepNative_machine, hcapped, ?_, ?_⟩
  · rw [← hbudget, scan_machine hg.ok, scan_cap hg hcap]
    exact hend
  · have hsum : (result.1.map fun c => c.loop.verifierCost exact c.trips).sum = result.2 := hg.spent
    have := hg.cost_le
    omega
  · intro c hc
    have hok := hg.ok c hc
    refine ⟨?_, Nat.le_trans hok.spent_le hok.limit⟩
    have := hok.trips_le
    rcases hok.selected with ht | ht | ht <;> omega
  · intro hfits
    rw [hcapped, selectCapped_eq loops multiplier hfits]
  · intro loops' hp hnames
    have hp' : chunks ~ loops'.filterMap (candidate? machine) := hchunks ▸ hp.filterMap _
    rw [← hresult, selectChunks_machine loops' multiplier (hp'.length_eq ▸ hlen),
      ← chunkBudget_perm multiplier hp', ← hp'.length_eq]
    exact growChunks_perm hgrow hnames hp'

end

def deepLoop (header : String) (hotness : Nat) (h : hotness ≤ maxU64) : LoopFacts :=
  { function := "run", header, fixedMemory := false, blocks := [⟨[.select, .select, .other], 2⟩]
    innermost := true, latch := true, preheader := false, predecessor := true, simplified := false
    managedCall := false, nonScalarCall := false, trips := 0, hotness, depth := 3, hotness_le := h }

def deepLoops : List LoopFacts := [deepLoop "a" (2 ^ 62) (by decide), deepLoop "b" (2 ^ 63) (by decide)]

/-- One budget for two loops, and the second is twice as hot. The weights of both pass 64 bits, are
capped to one value, and the tie goes by name to the first. -/
theorem deepLoops_capped :
    (selectChunks machine 1 deepLoops).1.map (fun c => (c.loop.header, c.trips)) =
        [("a", 8), ("b", 0)] ∧
      (selectChunks exact 1 deepLoops).1.map (fun c => (c.loop.header, c.trips)) =
        [("a", 0), ("b", 8)] := by
  decide +kernel

/-- The two orders of two loops. -/
theorem selectChunks_sound_deepLoops :
    (selectChunks machine 1 deepLoops).1 ~ (selectChunks machine 1 deepLoops.reverse).1 ∧
      ((selectChunks machine 1 deepLoops).1.map fun c => c.loop.verifierCost exact c.trips).sum ≤ 168 := by
  have hnames : ((deepLoops.filterMap (candidate? machine)).map Chunk.name).Nodup := by
    decide +kernel
  have hsel := selectChunks_sound deepLoops 1 (by decide +kernel)
  refine ⟨hsel.order _ (List.reverse_perm deepLoops).symm hnames, ?_⟩
  exact hsel.within_budget

end BpfCapsule.Stackify

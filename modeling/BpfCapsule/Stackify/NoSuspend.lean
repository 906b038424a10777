import BpfCapsule.Lib.LoopNest
import Mathlib.Algebra.BigOperators.Fin
import Mathlib.Data.Nat.SuccPred
import Mathlib.Data.List.GetD

/-!
# BpfCapsule — the bound on non-suspendable bodies

A `CAPSULE_NOSUSPEND` function runs to its end in one BPF invocation, so `FitsNoSuspendBody` bounds it:
its instruction count, its native frame, and the work its loops add, which must have exact constant
trip counts. The work of a loop is counted as `trips - 1` further bodies, and the loops are added up.

`Body.work_le` says what that bounds. A run that enters no loop twice stays within the static size and
the limit. A run in general does only what the product of the trip counts around each block allows,
and `nest_exceeds_limit` is an accepted nest of two loops far beyond the limit.
-/

namespace BpfCapsule.Stackify

open LoopNest

/-! ## The check -/

def noSuspendFunctionIrLimit : Nat := 1024
def noSuspendExpandedLoopLimit : Nat := 4096
def noSuspendAllocaLimit : Nat := 256
def noSuspendLoopTripLimit : Nat := 64

/-- An instruction, as far as the check tells them apart. The element count of an alloca may not be a
constant, its element size may be scalable. -/
inductive BodyInst where
  | alloca (isStatic : Bool) (count elementBytes : Option Nat) (alignment : Nat)
  | lifetime
  | unreachable
  | trap
  | other
  deriving DecidableEq

structure BodyBlock where
  insts : List BodyInst
  successors : List Nat

/-- `EstimatedBlockSize`. -/
def BodyBlock.estimatedSize (b : BodyBlock) : Nat :=
  (b.insts.filter fun
    | .alloca .. => false
    | .lifetime => false
    | _ => true).length

/-- A function, its blocks named by their positions and entered at the first, with LLVM's loops in
preorder and their constant trip counts (0 if there is none). -/
structure Body where
  blocks : List BodyBlock
  loops : List (Loop Nat)
  blocks_pos : 0 < blocks.length
  successor_lt : ∀ block ∈ blocks, ∀ b ∈ block.successors, b < blocks.length
  header_mem : ∀ L ∈ loops, L.header ∈ L.blocks
  block_lt : ∀ L ∈ loops, ∀ b ∈ L.blocks, b < blocks.length

namespace Body

variable (f : Body)

def size (b : Nat) : Nat := (f.blocks[b]?.map BodyBlock.estimatedSize).getD 0

def successors (b : Nat) : List Nat := (f.blocks[b]?.map BodyBlock.successors).getD []

def insts : List BodyInst := f.blocks.flatMap BodyBlock.insts

def frame : (stack : Nat) → List BodyInst → Option Nat
  | stack, [] => some stack
  | _, .unreachable :: _ => none
  | _, .trap :: _ => none
  | stack, .alloca isStatic count elementBytes alignment :: rest =>
    match isStatic, count, elementBytes with
    | true, some count, some elementBytes =>
      let elements := min count (noSuspendAllocaLimit + 1)
      if alignment > noSuspendAllocaLimit ∨ stack > noSuspendAllocaLimit then none
      else
        let padding := (2 ^ 64 - stack) % 2 ^ 64 &&& (alignment - 1)
        if padding > noSuspendAllocaLimit - stack then none
        else if elementBytes ≠ 0 ∧ elements > (noSuspendAllocaLimit - (stack + padding)) / elementBytes
        then none
        else frame (stack + padding + elementBytes * elements) rest
    | _, _, _ => none
  | stack, .lifetime :: rest => frame stack rest
  | stack, .other :: rest => frame stack rest

/-- `bodyIr` of a loop. -/
def bodyIr (L : Loop Nat) : Nat := ∑ b ∈ L.blocks, f.size b

def loopsFit : (expanded : Nat) → List (Loop Nat) → Bool
  | _, [] => true
  | expanded, L :: rest =>
    if L.trips = 0 ∨ L.trips > noSuspendLoopTripLimit then false
    else
      let expanded := expanded + (L.trips - 1) * f.bodyIr L
      if expanded > noSuspendExpandedLoopLimit then false else loopsFit expanded rest

def fitsNoSuspendBody : Bool :=
  decide (f.insts.length ≤ noSuspendFunctionIrLimit) && (frame 0 f.insts).isSome && f.loopsFit 0 f.loops

/-! ## Runs -/

abbrev Place : Type := State Nat (Fin f.loops.length)

def loop (i : Fin f.loops.length) : Loop Nat := f.loops[i]

instance (s : f.Place) (v : Nat) : Decidable (Respects f.loop s v) := by
  unfold Respects
  infer_instance

def execute (s : f.Place) : List Nat → Option (List f.Place)
  | [] => some [s]
  | v :: path =>
    if v ∈ f.successors s.block ∧ Respects f.loop s v then
      (execute ⟨v, nextRounds f.loop s v⟩ path).map (s :: ·)
    else none

def start : f.Place := ⟨0, fun _ => 0⟩

def work (path : List Nat) : Nat := (path.map f.size).sum

def staticSize : Nat := ∑ b ∈ Finset.range f.blocks.length, f.size b

def CyclesAreLoops : Prop := Reducible (fun u v => v ∈ f.successors u) f.loop

def EntersLoopsOnce (path : List Nat) : Prop :=
  ∀ L ∈ f.loops, ∀ before u v after, path = before ++ u :: v :: after → v = L.header →
    u ∉ L.blocks → ∀ w ∈ before, w ∉ L.blocks

variable {f}

/-! ## What the check adds up -/

theorem loopsFit_spec {expanded : Nat} {loops : List (Loop Nat)} (h : f.loopsFit expanded loops = true)
    (hstart : expanded ≤ noSuspendExpandedLoopLimit) :
    (∀ L ∈ loops, 0 < L.trips) ∧
      expanded + (loops.map fun L => (L.trips - 1) * f.bodyIr L).sum ≤ noSuspendExpandedLoopLimit := by
  induction loops generalizing expanded with
  | nil => exact ⟨fun L hL => absurd hL List.not_mem_nil, hstart⟩
  | cons L loops ih =>
    unfold loopsFit at h
    split at h
    · cases h
    rename_i htrips
    rw [not_or] at htrips
    simp only at h
    split at h
    · cases h
    rename_i hexpanded
    obtain ⟨hpos, hsum⟩ := ih h (Nat.le_of_not_lt hexpanded)
    refine ⟨fun M hM => ?_, ?_⟩
    · rcases List.mem_cons.mp hM with rfl | hM
      · exact Nat.pos_of_ne_zero htrips.1
      · exact hpos M hM
    · rw [List.map_cons, List.sum_cons, ← Nat.add_assoc]
      exact hsum

/-- One further body for every trip but the first, over all loops. -/
theorem sum_expanded (f : Body) :
    ∑ x ∈ Finset.range f.blocks.length,
        (1 + ∑ i with x ∈ (f.loop i).blocks, ((f.loop i).trips - 1)) * f.size x =
      f.staticSize + (f.loops.map fun L => (L.trips - 1) * f.bodyIr L).sum := by
  have hloop : ∀ i : Fin f.loops.length, ((f.loop i).trips - 1) * f.bodyIr (f.loop i) =
      ∑ x ∈ Finset.range f.blocks.length,
        if x ∈ (f.loop i).blocks then ((f.loop i).trips - 1) * f.size x else 0 := by
    intro i
    have hmem : f.loop i ∈ f.loops := List.getElem_mem i.isLt
    have hsub : (Finset.range f.blocks.length).filter (· ∈ (f.loop i).blocks) = (f.loop i).blocks := by
      ext x
      rw [Finset.mem_filter, Finset.mem_range]
      exact ⟨fun h => h.2, fun h => ⟨f.block_lt _ hmem x h, h⟩⟩
    rw [← Finset.sum_filter, hsub, ← Finset.mul_sum]
    rfl
  rw [← Fin.sum_univ_fun_getElem]
  show _ = f.staticSize + ∑ i, ((f.loop i).trips - 1) * f.bodyIr (f.loop i)
  rw [Finset.sum_congr rfl fun i _ => hloop i, Finset.sum_comm, staticSize, ← Finset.sum_add_distrib]
  refine Finset.sum_congr rfl fun x _ => ?_
  rw [Nat.add_mul, Nat.one_mul, Finset.sum_mul, Finset.sum_filter]

/-! ## What a run does -/

theorem lt_of_mem_successors {u v : Nat} (hv : v ∈ f.successors u) : v < f.blocks.length := by
  unfold successors at hv
  cases hu : f.blocks[u]? with
  | none =>
    rw [hu] at hv
    cases hv
  | some block =>
    rw [hu] at hv
    exact f.successor_lt block (List.mem_of_getElem? hu) v hv

variable {path : List Nat}

theorem execute_spec {s : f.Place} {states : List f.Place} (h : f.execute s path = some states) :
    states.head? = some s ∧ states.map State.block = s.block :: path ∧
      states.IsChain (Step (fun u v => v ∈ f.successors u) f.loop) := by
  induction path generalizing s states with
  | nil =>
    cases h
    exact ⟨rfl, rfl, List.IsChain.singleton _⟩
  | cons v path ih =>
    unfold execute at h
    split at h
    · rename_i hstep
      obtain ⟨rest, hrest, rfl⟩ := Option.map_eq_some_iff.mp h
      obtain ⟨hhead, hblocks, hchain⟩ := ih hrest
      refine ⟨rfl, by rw [List.map_cons, hblocks], ?_⟩
      obtain ⟨next, tail, rfl⟩ : ∃ next tail, rest = next :: tail :=
        List.exists_cons_of_ne_nil fun hnil => by simp [hnil] at hhead
      cases hhead
      exact hchain.cons_cons ⟨hstep.1, hstep.2, rfl⟩
    · cases h

theorem exists_run {states : List f.Place}
    (h : f.execute f.start path = some states) : ∃ run : Nat → f.Place,
      Run (fun u v => v ∈ f.successors u) f.loop run path.length ∧
      ∀ t, ∀ ht : t < (0 :: path).length, (run t).block = (0 :: path)[t] := by
  obtain ⟨hhead, hblocks, hchain⟩ := execute_spec h
  have hlength : states.length = path.length + 1 := by
    have := congrArg List.length hblocks
    rwa [List.length_map, List.length_cons] at this
  have hget : ∀ t, ∀ ht : t < states.length, states.getD t f.start = states[t] := fun t ht =>
    List.getD_eq_getElem _ _ ht
  refine ⟨fun t => states.getD t f.start, ⟨fun i => ?_, fun t ht => ?_⟩, fun t ht => ?_⟩
  · have hzero : states.getD 0 f.start = f.start := by
      cases states with
      | nil => rfl
      | cons s states =>
        cases hhead
        rfl
    rw [hzero]
    rfl
  · rw [hget t (by omega), hget (t + 1) (by omega)]
    exact List.isChain_iff_getElem.mp hchain t (by omega)
  · rw [List.length_cons] at ht
    show (states.getD t f.start).block = _
    rw [hget t (by omega), ← List.getElem_map State.block]
    · simp only [hblocks]
      rfl
    · rw [List.length_map]
      omega

theorem work_eq {run : Nat → f.Place}
    (hrun : Run (fun u v => v ∈ f.successors u) f.loop run path.length)
    (hblocks : ∀ t, ∀ ht : t < (0 :: path).length, (run t).block = (0 :: path)[t]) :
    f.work (0 :: path) =
      ∑ x ∈ Finset.range f.blocks.length, (visits run path.length x).card * f.size x := by
  have hall : ∀ t ≤ path.length, (run t).block ∈ Finset.range f.blocks.length := by
    intro t ht
    rw [Finset.mem_range]
    cases t with
    | zero =>
      rw [hblocks 0 (Nat.zero_lt_succ _)]
      exact f.blocks_pos
    | succ t => exact lt_of_mem_successors (hrun.step t ht).edge
  rw [← sum_run_eq f.size hall, work, ← Fin.sum_univ_fun_getElem, ← List.length_cons, Finset.sum_range]
  refine Finset.sum_congr rfl fun t _ => ?_
  rw [hblocks t t.isLt]

/-- Entering no loop again, said of the path and of its run. -/
theorem entersOnce_run {run : Nat → f.Place}
    (hblocks : ∀ t, ∀ ht : t < (0 :: path).length, (run t).block = (0 :: path)[t])
    (honce : f.EntersLoopsOnce (0 :: path)) : EntersOnce f.loop run path.length := by
  intro i t ht hto hfrom u hu
  have htl : t + 1 < (0 :: path).length := Nat.succ_lt_succ ht
  have hsplit : 0 :: path = (0 :: path).take t ++ (0 :: path)[t] :: (0 :: path)[t + 1] ::
      (0 :: path).drop (t + 2) := by
    rw [← List.drop_eq_getElem_cons htl, ← List.drop_eq_getElem_cons, List.take_append_drop]
  rw [hblocks (t + 1) htl] at hto
  rw [hblocks t (Nat.lt_of_succ_lt htl)] at hfrom
  have hbefore := honce (f.loop i) (List.getElem_mem i.isLt) _ _ _ _ hsplit hto hfrom
  rcases Nat.lt_or_eq_of_le hu with hlt | rfl
  · rw [hblocks u (by omega)]
    apply hbefore
    rw [List.mem_take_iff_getElem]
    exact ⟨u, by omega, rfl⟩
  · rw [hblocks u (Nat.lt_of_succ_lt htl)]
    exact hfrom

/-- **What the check bounds.** On every path of an accepted function whose cycles are all loops, a
block is executed at most as often as the product of the trip counts around it; and when the path
enters no loop again, its work is at most the static size and the limit. -/
theorem work_le (f : Body) (hfits : f.fitsNoSuspendBody = true) (hcycles : f.CyclesAreLoops)
    (path : List Nat) (states : List f.Place) (hpath : f.execute f.start path = some states) :
    f.work (0 :: path) ≤ ∑ x ∈ Finset.range f.blocks.length,
        (∏ i with x ∈ (f.loop i).blocks, (f.loop i).trips) * f.size x ∧
    (f.EntersLoopsOnce (0 :: path) →
      f.work (0 :: path) ≤ f.staticSize + noSuspendExpandedLoopLimit) := by
  obtain ⟨run, hrun, hblocks⟩ := exists_run hpath
  unfold fitsNoSuspendBody at hfits
  rw [Bool.and_eq_true] at hfits
  obtain ⟨htrips, hexpanded⟩ := loopsFit_spec hfits.2 (Nat.zero_le _)
  have htrips : ∀ i, 0 < (f.loop i).trips := fun i => htrips _ (List.getElem_mem i.isLt)
  have hheader : ∀ i, (f.loop i).header ∈ (f.loop i).blocks := fun i =>
    f.header_mem _ (List.getElem_mem i.isLt)
  rw [work_eq hrun hblocks]
  constructor
  · refine Finset.sum_le_sum fun x _ => Nat.mul_le_mul_right _ ?_
    exact hrun.visits_le_prod hcycles htrips x
  · intro honce
    calc ∑ x ∈ Finset.range f.blocks.length, (visits run path.length x).card * f.size x
      _ ≤ ∑ x ∈ Finset.range f.blocks.length,
            (1 + ∑ i with x ∈ (f.loop i).blocks, ((f.loop i).trips - 1)) * f.size x := by
        refine Finset.sum_le_sum fun x _ => Nat.mul_le_mul_right _ ?_
        exact hrun.visits_le_sum hcycles htrips hheader (entersOnce_run hblocks honce) x
      _ = f.staticSize + (f.loops.map fun L => (L.trips - 1) * f.bodyIr L).sum := f.sum_expanded
      _ ≤ f.staticSize + noSuspendExpandedLoopLimit := by omega

end Body

def nestedLoops : Body where
  blocks := [⟨[.other], [1]⟩, ⟨[.other], [2]⟩, ⟨List.replicate 1000 .other, [2, 3]⟩, ⟨[.other], [1, 4]⟩,
    ⟨[.other], []⟩]
  loops := [⟨1, {1, 2, 3}, 3⟩, ⟨2, {2}, 3⟩]
  blocks_pos := by decide
  successor_lt := by decide
  header_mem := by decide
  block_lt := by decide

theorem nestedLoops_successors {u v : Nat} (h : v ∈ nestedLoops.successors u) :
    (u = 0 ∧ v = 1) ∨ (u = 1 ∧ v = 2) ∨ (u = 2 ∧ v = 2) ∨ (u = 2 ∧ v = 3) ∨ (u = 3 ∧ v = 1) ∨
      (u = 3 ∧ v = 4) := by
  match u, h with
  | 0, (h : v ∈ [1]) | 1, (h : v ∈ [2]) | 2, (h : v ∈ [2, 3]) | 3, (h : v ∈ [1, 4]) => simpa using h
  | 4, h => cases h
  | u + 5, h => cases h

/-- The cycles of `nestedLoops` are its loops: a closed path passes the outer header, or it never goes
back to an earlier block and so stays at the inner one. -/
theorem nestedLoops_cycles : nestedLoops.CyclesAreLoops := by
  intro path a b hab hedge hclosed
  have hstep := fun t hat htb => nestedLoops_successors (hedge t hat htb)
  by_cases houter : ∃ t, a < t ∧ t ≤ b ∧ path t = 1
  · -- every block of the path is left and arrived at
    refine ⟨⟨0, by decide⟩, fun t hat htb => ?_, houter⟩
    have hleft : path t ≤ 3 := by
      rcases Nat.lt_or_eq_of_le htb with hlt | rfl
      · have := hstep t hat hlt
        omega
      · have := hstep a (Nat.le_refl a) hab
        omega
    have harrived : path t ≠ 0 := by
      obtain ⟨u, hau, hub, hu⟩ : ∃ u, a ≤ u ∧ u < b ∧ path (u + 1) = path t := by
        rcases Nat.lt_or_eq_of_le hat with hlt | rfl
        · exact ⟨t - 1, by omega, by omega, by rw [Nat.sub_add_cancel (by omega)]⟩
        · exact ⟨b - 1, by omega, by omega, by rw [Nat.sub_add_cancel (by omega), hclosed]⟩
      have := hstep u hau hub
      omega
    show path t ∈ ({1, 2, 3} : Finset Nat)
    simp only [Finset.mem_insert, Finset.mem_singleton]
    omega
  · have hmono : MonotoneOn path (Set.Icc a b) := by
      refine monotoneOn_of_le_add_one Set.ordConnected_Icc fun t _ ht ht' => ?_
      have := hstep t ht.1 ht'.2
      have hnot : path (t + 1) ≠ 1 := fun h => houter ⟨t + 1, Nat.lt_succ_of_le ht.1, ht'.2, h⟩
      omega
    have hsame : ∀ t, a ≤ t → t ≤ b → path t = path a := fun t hat htb => Nat.le_antisymm
      (hclosed ▸ hmono ⟨hat, htb⟩ ⟨Nat.le_of_lt hab, Nat.le_refl b⟩ htb)
      (hmono ⟨Nat.le_refl a, Nat.le_of_lt hab⟩ ⟨hat, htb⟩ hat)
    have htwo : path a = 2 := by
      have hnext := hsame (a + 1) (by omega) hab
      have := hstep a (Nat.le_refl a) hab
      omega
    refine ⟨⟨1, by decide⟩, fun t hat htb => ?_, b, hab, Nat.le_refl b, hclosed ▸ htwo⟩
    show path t ∈ ({2} : Finset Nat)
    rw [Finset.mem_singleton, hsame t hat htb, htwo]

/-- A nest the estimate accepts, with a run that does more work than the limit allows. -/
theorem nest_exceeds_limit : nestedLoops.fitsNoSuspendBody = true ∧ nestedLoops.CyclesAreLoops ∧
    (∃ states, nestedLoops.execute nestedLoops.start [1, 2, 2, 2, 3, 1, 2, 2, 2, 3, 1, 2, 2, 2, 3, 4] =
      some states) ∧
    nestedLoops.staticSize + noSuspendExpandedLoopLimit <
      nestedLoops.work [0, 1, 2, 2, 2, 3, 1, 2, 2, 2, 3, 1, 2, 2, 2, 3, 4] := by
  exact ⟨by decide +kernel, nestedLoops_cycles, ⟨_, rfl⟩, by decide +kernel⟩

/-- Once round the outer loop and three times round the inner one: more than the static size, within
the limit. -/
theorem work_le_nestedLoops : nestedLoops.EntersLoopsOnce [0, 1, 2, 2, 2, 3] ∧
    nestedLoops.staticSize < nestedLoops.work [0, 1, 2, 2, 2, 3] ∧
    nestedLoops.work [0, 1, 2, 2, 2, 3] ≤ nestedLoops.staticSize + noSuspendExpandedLoopLimit := by
  have honce : nestedLoops.EntersLoopsOnce [0, 1, 2, 2, 2, 3] := by
    intro L hL before u v after hsplit hv hu w hw
    have hL : L ∈ [⟨1, {1, 2, 3}, 3⟩, ⟨2, {2}, 3⟩] := hL
    simp only [List.mem_cons, List.not_mem_nil, or_false] at hL
    -- the steps into a loop are the first two; the later ones stay in the inner loop or leave it
    rcases before with _ | ⟨a, _ | ⟨b, _ | ⟨c, _ | ⟨d, _ | ⟨e, before⟩⟩⟩⟩⟩ <;>
      simp only [List.cons_append, List.nil_append, List.cons.injEq] at hsplit
    · cases hw
    · rw [List.mem_singleton.mp hw, ← hsplit.1]
      rcases hL with rfl | rfl <;> decide
    all_goals
      have hrest : (u = 2 ∧ v ≠ 1) ∨ v ∉ [1, 2] := by grind
      rcases hL with rfl | rfl <;> simp_all
  exact ⟨honce, by decide +kernel,
    (nestedLoops.work_le (by decide +kernel) nestedLoops_cycles [1, 2, 2, 2, 3] _ rfl).2 honce⟩

end BpfCapsule.Stackify

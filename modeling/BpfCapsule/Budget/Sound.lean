import BpfCapsule.Budget.Passes

/-!
# The budgets fit every call path

A call path is charged the frame of every node on it. The frame of a node is the largest of its
members': those of the units are chosen later, within the budgets handed out here.

* **`Graph.assign_ok`** — when the pass accepts, no call path repeats a node, has more than eight
  frames, or uses more than 512 bytes for any choice within the budgets;
* **`Graph.assign_error`** — when it rejects, some call path breaks one of these limits already with
  the smallest frames, or runs through two variable frames, which the pass does not support.
-/

namespace BpfCapsule.StackBudget

open Check DepthFirst Folds Propagate

/-! ## Frames -/

/-- The frame of a node when the units end up with `final` bytes. -/
def Node.frameBytes (final : Nat → Nat) (n : Node) : Nat :=
  n.members.foldl (fun best f =>
    max best (if f.allocationUnit then portableBytes (final f.function) else f.frame)) 0

namespace Graph

def CallPath (g : Graph) (path : List Nat) : Prop := Walk g.succ g.entries path

def pathBytes (g : Graph) (final : Nat → Nat) (path : List Nat) : Nat :=
  (path.map fun n => (g.node n).frameBytes final).sum

def NestedFrames (g : Graph) (path : List Nat) : Prop := 2 ≤ (path.filter g.isVariable).length

end Graph

def Respects (final : Nat → Nat) (budgets : List (Nat × Nat)) : Prop :=
  ∀ b ∈ budgets, final b.1 ≤ b.2

theorem Node.fixedFloor_le_iff {n : Node} {b : Nat} :
    n.fixedFloor ≤ b ↔ ∀ f ∈ n.members, f.allocationUnit = false → f.frame ≤ b := by
  have hfold := foldl_max_le_iff (h := id) (a := 0) (b := b)
    (l := (n.members.filter fun f => !f.allocationUnit).map Member.frame)
  refine hfold.trans ⟨fun h f hf hunit => ?_, fun h => ⟨Nat.zero_le b, fun s hs => ?_⟩⟩
  · exact h.2 f.frame (List.mem_map_of_mem (List.mem_filter.mpr ⟨hf, by simp [hunit]⟩))
  · obtain ⟨f, hf, rfl⟩ := List.mem_map.mp hs
    obtain ⟨hmem, hunit⟩ := List.mem_filter.mp hf
    exact h f hmem (by simpa using hunit)

theorem Node.frameBytes_le_iff {final : Nat → Nat} {n : Node} {b : Nat} :
    n.frameBytes final ≤ b ↔ n.fixedFloor ≤ b ∧
      ∀ f ∈ n.members, f.allocationUnit = true → portableBytes (final f.function) ≤ b := by
  unfold frameBytes
  rw [foldl_max_le_iff, fixedFloor_le_iff]
  constructor
  · intro ⟨_, h⟩
    exact ⟨fun f hf hunit => by simpa [hunit] using h f hf,
      fun f hf hunit => by simpa [hunit] using h f hf⟩
  · intro ⟨hfixed, hunits⟩
    refine ⟨Nat.zero_le b, fun f hf => ?_⟩
    cases hunit : f.allocationUnit with
    | true => exact hunits f hf hunit
    | false => exact hfixed f hf hunit

namespace Graph

variable {g : Graph} {final : Nat → Nat}

theorem frameBytes_fixed {n : Nat} (hn : g.isVariable n = false) :
    (g.node n).frameBytes final = g.floor n := by
  refine eq_of_forall_ge_iff fun b => ?_
  rw [Node.frameBytes_le_iff]
  refine ⟨fun h => h.1, fun h => ⟨h, fun f hf hunit => ?_⟩⟩
  have hnone := List.any_eq_false.mp hn f hf
  exact absurd hunit hnone

variable {path : List Nat} {budgets : List (Nat × Nat)}

theorem pathBytes_fixed (hfixed : Fixed g path) : g.pathBytes final path = g.fixedBytes path := by
  unfold pathBytes fixedBytes
  rw [List.map_congr_left fun n hn => frameBytes_fixed (hfixed n hn)]

theorem pathBytes_append (p q : List Nat) :
    g.pathBytes final (p ++ q) = g.pathBytes final p + g.pathBytes final q := by
  simp [pathBytes]

theorem pathBytes_cons (n : Nat) (q : List Nat) :
    g.pathBytes final (n :: q) = (g.node n).frameBytes final + g.pathBytes final q := by
  simp [pathBytes]

theorem pathBytes_le {b : Nat} (h : ∀ n ∈ path, (g.node n).frameBytes final ≤ b) :
    g.pathBytes final path ≤ path.length * b := by
  induction path with
  | nil => exact Nat.zero_le _
  | cons n path ih =>
    have hhead := h n List.mem_cons_self
    have hrest := ih fun k hk => h k (List.mem_cons_of_mem _ hk)
    rw [pathBytes_cons, List.length_cons, Nat.add_mul]
    omega

/-- The smallest frame a variable node can end up with. -/
theorem le_frameBytes_variable (final : Nat → Nat) {n : Nat} (hn : g.isVariable n = true) :
    portableStackGranule ≤ (g.node n).frameBytes final ∧ g.floor n ≤ (g.node n).frameBytes final := by
  obtain ⟨hfloor, hunits⟩ := Node.frameBytes_le_iff.mp (le_refl ((g.node n).frameBytes final))
  obtain ⟨f, hf, hunit⟩ := List.any_eq_true.mp hn
  exact ⟨(le_portableBytes _).trans (hunits f hf hunit), hfloor⟩

/-! ## Budgets -/

section

variable {order : List Nat} {pre suf : Nat → WithBot Nat}

theorem budget_ok {v bytes : Nat} (hv : v ∈ order) (h : g.budget order pre suf v = .ok bytes) :
    g.before pre v + bytes + g.after suf v = kernelStackBytes ∧ portableStackGranule ≤ bytes ∧
      g.floor v ≤ bytes := by
  obtain ⟨hcheck, hbytes⟩ := rejectIf_bind_eq_ok.mp h
  have hbytes : left (v ∈ order) (g.before pre v + g.after suf v) = bytes := Except.ok.inj hbytes
  have hpos : portableStackGranule ≤ bytes := by
    by_contra hlt
    exact hcheck ⟨hv, .inl (by omega)⟩
  have hfloor : g.floor v ≤ bytes := by
    by_contra hlt
    exact hcheck ⟨hv, .inr (by omega)⟩
  refine ⟨?_, hpos, hfloor⟩
  rw [left, if_pos (by simpa using hv)] at hbytes
  simp only [portableStackGranule] at hpos
  split at hbytes <;> omega

theorem budget_error {v : Nat} {e : Rejection} (h : g.budget order pre suf v = .error e) :
    v ∈ order ∧ (kernelStackBytes < g.before pre v + portableStackGranule + g.after suf v ∨
      kernelStackBytes < g.before pre v + g.floor v + g.after suf v) := by
  rcases bind_eq_error.mp h with hcheck | ⟨_, _, hpure⟩
  case inr => cases hpure
  obtain ⟨hreject, _⟩ := rejectIf_eq_error.mp hcheck
  refine ⟨hreject.1, ?_⟩
  have hsmall := hreject.2
  rw [left, if_pos (by simpa using hreject.1)] at hsmall
  split at hsmall <;> omega

theorem budgets_ok (h : g.budgets order pre suf = .ok budgets) {v : Nat}
    (hlt : v < g.nodes.length) (hvar : g.isVariable v = true) :
    ∃ bytes, g.budget order pre suf v = .ok bytes ∧
      ∀ f ∈ (g.node v).members, f.allocationUnit = true → (f.function, bytes) ∈ budgets := by
  unfold Graph.budgets at h
  have hmem : v ∈ (List.range g.nodes.length).filter g.isVariable :=
    List.mem_filter.mpr ⟨List.mem_range.mpr hlt, hvar⟩
  revert h hmem
  generalize (List.range g.nodes.length).filter g.isVariable = todo
  generalize ([] : List (Nat × Nat)) = known
  intro h hmem
  induction todo generalizing known with
  | nil => cases hmem
  | cons w todo ih =>
    rw [List.foldlM_cons, bind_eq_ok] at h
    obtain ⟨known', hfirst, hrest⟩ := h
    rcases List.mem_cons.mp hmem with rfl | hmem
    · obtain ⟨bytes, hbytes, hknown⟩ := bind_eq_ok.mp hfirst
      refine ⟨bytes, hbytes, fun f hf hunit => ?_⟩
      -- later nodes only add to the list
      refine foldlM_inv (fun b => (f.function, bytes) ∈ b) ?_ todo hrest ?_
      · intro b a b' hstep hb
        obtain ⟨_, _, hb'⟩ := bind_eq_ok.mp hstep
        cases hb'
        exact List.mem_append_left _ hb
      · cases hknown
        refine List.mem_append_right _ (List.mem_map.mpr ⟨f, ?_, rfl⟩)
        exact List.mem_filter.mpr ⟨hf, hunit⟩
    · exact ih known' hrest hmem

theorem budgets_error {e : Rejection} (h : g.budgets order pre suf = .error e) :
    ∃ v, g.isVariable v = true ∧ g.budget order pre suf v = .error e := by
  unfold Graph.budgets at h
  have hall : ∀ v ∈ (List.range g.nodes.length).filter g.isVariable, g.isVariable v = true :=
    fun v hv => (List.mem_filter.mp hv).2
  revert h hall
  generalize (List.range g.nodes.length).filter g.isVariable = todo
  generalize ([] : List (Nat × Nat)) = known
  intro h hall
  induction todo generalizing known with
  | nil => cases h
  | cons w todo ih =>
    rw [List.foldlM_cons] at h
    cases hbudget : g.budget order pre suf w with
    | error e' =>
      rw [hbudget] at h
      cases h
      exact ⟨w, hall w List.mem_cons_self, hbudget⟩
    | ok bytes =>
      rw [hbudget] at h
      exact ih _ h fun v hv => hall v (List.mem_cons_of_mem _ hv)

end

/-! ## The pass as a whole -/

/-- What an accepted run went through. -/
theorem assign_cases (h : g.assign = .ok budgets) :
    ∃ order seen frames pre, Ordered g order ∧ g.previousVariables order = .ok seen ∧
      g.callFrames order = .ok frames ∧ g.prefixes order = .ok pre ∧
      g.budgets order pre (g.suffixes order.reverse) = .ok budgets := by
  simp only [assign, bind_eq_ok] at h
  obtain ⟨postorder, hpost, seen, hseen, frames, hframes, pre, hpre, h⟩ := h
  have hspec := postorder_spec (g := g)
  rw [hpost] at hspec
  obtain ⟨htop, hentries, hwalked⟩ := hspec
  refine ⟨postorder.reverse, seen, frames, pre, ⟨htop, ?_, ?_⟩, hseen, hframes, hpre, ?_⟩
  · exact fun e he => List.mem_reverse.mpr (hentries e he)
  · exact fun v hv => hwalked v (List.mem_reverse.mp hv)
  · rw [List.reverse_reverse]
    exact h

/-- A variable node with the largest frame its budget allows. -/
theorem frameBytes_le_budget (hfinal : Respects final budgets) {v bytes : Nat}
    (hfloor : g.floor v ≤ bytes) (hpos : portableStackGranule ≤ bytes)
    (hdvd : portableStackGranule ∣ bytes)
    (hunits : ∀ f ∈ (g.node v).members, f.allocationUnit = true → (f.function, bytes) ∈ budgets) :
    (g.node v).frameBytes final ≤ bytes :=
  Node.frameBytes_le_iff.mpr ⟨hfloor, fun f hf hunit =>
    portableBytes_le (hfinal _ (hunits f hf hunit)) hpos hdvd⟩

/-- The first variable node of a path, if there is one. -/
theorem fixed_or_split (path : List Nat) :
    Fixed g path ∨ ∃ p v q, path = p ++ v :: q ∧ g.isVariable v = true := by
  by_cases h : ∃ v ∈ path, g.isVariable v = true
  · obtain ⟨v, hv, hvar⟩ := h
    obtain ⟨p, q, rfl⟩ := List.append_of_mem hv
    exact .inr ⟨p, v, q, rfl, hvar⟩
  · exact .inl fun n hn => Bool.eq_false_iff.mpr fun hvar => h ⟨n, hn, hvar⟩

theorem assign_ok (h : g.assign = .ok budgets)
    (hpath : g.CallPath path) : path.Nodup ∧ path.length ≤ kernelCallFrames ∧
      ∀ final, Respects final budgets → g.pathBytes final path ≤ kernelStackBytes := by
  obtain ⟨order, seen, frames, pre, ho, hseen, hframes, hpre, hbudgets⟩ := assign_cases h
  obtain ⟨p, v, rfl, hw⟩ := hpath.exists_walkTo
  refine ⟨ho.topological.walkTo_nodup ho.entries_mem hw, ?_, fun final hfinal => ?_⟩
  · rw [List.length_append, List.length_singleton]
    exact callFrames_ok ho hframes hw
  rcases fixed_or_split (p ++ [v]) with hfixed | ⟨p', u, q, hsplit, hvar⟩
  · obtain ⟨hle, hlimit⟩ := prefixes_ok ho hpre hw hfixed
    rw [pathBytes_fixed hfixed]
    cases hpv : pre v with
    | bot => rw [hpv] at hle; exact absurd hle (by simp)
    | coe bytes =>
      rw [hpv] at hle hlimit
      exact (WithBot.coe_le_coe.mp hle).trans hlimit
  · -- one variable frame: what comes before it and after it is fixed
    rw [hsplit] at hpath ⊢
    obtain ⟨hwu, hchain⟩ := WalkTo.of_walk_append hpath
    have hu := ho.mem hwu
    have hbefore : Fixed g p' := previousVariables_ok ho hseen hwu hvar
    have hafter : Fixed g q := by
      intro w hwq
      by_contra hwvar
      obtain ⟨q₁, q₂, rfl⟩ := List.append_of_mem hwq
      have hshape : p' ++ u :: (q₁ ++ w :: q₂) = (p' ++ u :: q₁) ++ w :: q₂ := by simp
      rw [hshape] at hpath
      have hfront := previousVariables_ok ho hseen (WalkTo.of_walk_append hpath).1 (by simpa using hwvar)
      rw [hfront u (by simp)] at hvar
      cases hvar
    obtain ⟨bytes, hbudget, hunits⟩ := budgets_ok hbudgets (ho.lt hu) hvar
    obtain ⟨hsum, hpos, hfloor⟩ := budget_ok hu hbudget
    have hdvd : portableStackGranule ∣ bytes := by
      obtain ⟨p₀, _, hp₀⟩ := before_attained ho hpre hu
        fun p₀ hw₀ => previousVariables_ok ho hseen hw₀ hvar
      obtain ⟨q₀, _, _, hq₀⟩ := after_attained ho hu
      obtain ⟨a, ha⟩ := fixedBytes_dvd (g := g) p₀
      obtain ⟨b, hb⟩ := fixedBytes_dvd (g := g) q₀
      simp only [kernelStackBytes, portableStackGranule] at *
      omega
    have hframe := frameBytes_le_budget hfinal hfloor hpos hdvd hunits
    have hle₁ := le_before ho hpre hwu hbefore
    have hle₂ := le_after ho hu hchain hafter
    rw [pathBytes_append, pathBytes_cons, pathBytes_fixed hbefore, pathBytes_fixed hafter]
    omega

theorem nestedFrames_of_mem {p : List Nat} {u v : Nat} (hu : u ∈ p) (huvar : g.isVariable u = true)
    (hvvar : g.isVariable v = true) : g.NestedFrames (p ++ [v]) := by
  unfold NestedFrames
  have hpos : 0 < (p.filter g.isVariable).length :=
    List.length_pos_of_mem (List.mem_filter.mpr ⟨hu, huvar⟩)
  rw [List.filter_append, List.length_append, List.filter_singleton, hvvar]
  show 2 ≤ (p.filter g.isVariable).length + 1
  omega

theorem assign_error {e : Rejection} (h : g.assign = .error e) :
    ∃ path, g.CallPath path ∧ (¬ path.Nodup ∨ kernelCallFrames < path.length ∨
      kernelStackBytes < g.pathBytes (fun _ => 0) path ∨ g.NestedFrames path) := by
  have hspec := postorder_spec (g := g)
  rcases bind_eq_error.mp h with hpost | ⟨postorder, hpost, h⟩
  · rw [hpost] at hspec
    obtain ⟨p, v, hw, hmem⟩ := hspec
    refine ⟨p ++ [v], hw.walk, .inl fun hnodup => ?_⟩
    exact (List.nodup_append.mp hnodup).2.2 v hmem v (List.mem_singleton_self v) rfl
  rw [hpost] at hspec
  have ho : Ordered g postorder.reverse :=
    ⟨hspec.1, fun e he => List.mem_reverse.mpr (hspec.2.1 e he),
      fun v hv => hspec.2.2 v (List.mem_reverse.mp hv)⟩
  rcases bind_eq_error.mp h with hseen | ⟨seen, hseen, h⟩
  · obtain ⟨p, u, v, hw, hu, huvar, hvvar⟩ := previousVariables_error ho hseen
    exact ⟨p ++ [v], hw.walk, .inr (.inr (.inr (nestedFrames_of_mem hu huvar hvvar)))⟩
  rcases bind_eq_error.mp h with hframes | ⟨frames, _, h⟩
  · obtain ⟨p, v, hw, hlen⟩ := callFrames_error hframes
    refine ⟨p ++ [v], hw.walk, .inr (.inl ?_)⟩
    rwa [List.length_append, List.length_singleton]
  rcases bind_eq_error.mp h with hpre | ⟨pre, hpre, h⟩
  · obtain ⟨p, v, hw, hfixed, hbytes⟩ := prefixes_error hpre
    refine ⟨p ++ [v], hw.walk, .inr (.inr (.inl ?_))⟩
    rwa [pathBytes_fixed hfixed]
  · -- the longest prefix and the longest suffix of the refused node make one path
    obtain ⟨v, hvar, hbudget⟩ := budgets_error h
    obtain ⟨hv, hsmall⟩ := budget_error hbudget
    have hnested := fun p hw => previousVariables_ok ho hseen (p := p) hw hvar
    obtain ⟨p, hw, hbefore⟩ := before_attained ho hpre hv hnested
    have hafter := after_attained ho hv
    rw [List.reverse_reverse] at hafter
    obtain ⟨q, hchain, hq, hafter⟩ := hafter
    refine ⟨p ++ v :: q, hw.walk_append hchain, .inr (.inr (.inl ?_))⟩
    have hframe := le_frameBytes_variable (fun _ => 0) hvar
    rw [pathBytes_append, pathBytes_cons, pathBytes_fixed (hnested p hw), pathBytes_fixed hq]
    omega

end Graph

/-- The budgets are sound, and a rejected program either breaks one of the kernel's limits or nests
Capsule frames. -/
theorem machine_stack_budget (m : Module) (g : Graph) (hg : contract m = .ok g) :
    match runOnModule m with
    | .ok budgets => ∀ path, g.CallPath path → path.Nodup ∧ path.length ≤ kernelCallFrames ∧
        ∀ final, Respects final budgets → g.pathBytes final path ≤ kernelStackBytes
    | .error _ => ∃ path, g.CallPath path ∧ (¬ path.Nodup ∨ kernelCallFrames < path.length ∨
        kernelStackBytes < g.pathBytes (fun _ => 0) path ∨ g.NestedFrames path) := by
  have hrun : runOnModule m = g.assign := by
    unfold runOnModule
    rw [hg]
    rfl
  rw [hrun]
  cases hassign : g.assign with
  | ok budgets => exact fun path hpath => Graph.assign_ok hassign hpath
  | error e => exact Graph.assign_error hassign

def sampleModule : Module := [
  { machine := some ⟨0, [⟨.other, [.global 1]⟩], by decide⟩, entryProgram := true },
  { machine := some ⟨40, [⟨.other, [.global 2]⟩], by decide⟩, flattenRoot := some (some 0) },
  { machine := some ⟨0, [⟨.ldd, [.reg .other, .reg .r10, .imm (-8)]⟩], by decide⟩,
    flattenUnit := some (some 0), allocationUnit := true }]

/-- The entry's 32 bytes leave 480 for the root, and a unit that uses them all still fits. -/
theorem machine_stack_budget_sample :
    runOnModule sampleModule = .ok [(2, 480)] ∧
      sampleModule.graph.pathBytes (fun _ => 480) [1, 0] ≤ kernelStackBytes := by
  have hsound := machine_stack_budget sampleModule sampleModule.graph rfl
  have hrun : runOnModule sampleModule = .ok [(2, 480)] := by decide
  rw [hrun] at hsound
  refine ⟨hrun, (hsound [1, 0] ⟨⟨1, by decide, rfl⟩, by decide⟩).2.2 (fun _ => 480) ?_⟩
  exact fun b hb => by rw [List.mem_singleton.mp hb]

def nestedModule : Module := [
  { machine := some ⟨0, [⟨.other, [.global 1]⟩], by decide⟩, entryProgram := true },
  { machine := some ⟨0, [⟨.other, [.global 2]⟩], by decide⟩, flattenRoot := some (some 0) },
  { machine := some ⟨0, [⟨.other, [.global 3]⟩], by decide⟩, flattenUnit := some (some 0),
    allocationUnit := true },
  { machine := some ⟨0, [⟨.other, [.global 4]⟩], by decide⟩, flattenRoot := some (some 1) },
  { machine := some ⟨0, [], by decide⟩, flattenUnit := some (some 1), allocationUnit := true }]

/-- Nested Capsule frames are refused even where every path keeps all the limits. -/
theorem nested_frames_refused :
    contract nestedModule = .ok nestedModule.graph ∧
      runOnModule nestedModule = .error (.nested 0 1) ∧
      ∀ path, nestedModule.graph.CallPath path → path.Nodup ∧ path.length ≤ kernelCallFrames ∧
        nestedModule.graph.pathBytes (fun _ => 0) path ≤ kernelStackBytes := by
  refine ⟨rfl, by decide, fun path hpath => ?_⟩
  have hspec := Graph.postorder_spec (g := nestedModule.graph)
  obtain ⟨htop, hentries, _⟩ := hspec
  have hmem : ∀ n ∈ path, n ∈ [2, 0, 1] := by
    intro n hn
    obtain ⟨p, q, rfl⟩ := List.append_of_mem hn
    refine htop.walkTo_mem (fun e he => ?_) (WalkTo.of_walk_append hpath).1
    exact List.mem_reverse.mpr (hentries e he)
  obtain ⟨p, v, rfl, hw⟩ := hpath.exists_walkTo
  have hnodup := htop.walkTo_nodup (fun e he => List.mem_reverse.mpr (hentries e he)) hw
  have hlen : (p ++ [v]).length ≤ 3 := (hnodup.subperm hmem).length_le
  have hall : ∀ n ∈ [2, 0, 1], (nestedModule.graph.node n).frameBytes (fun _ => 0) ≤ 32 := by
    decide
  have hbytes := Graph.pathBytes_le fun n hn => hall n (hmem n hn)
  refine ⟨hnodup, ?_, ?_⟩
  · exact hlen.trans (by decide)
  · have : (p ++ [v]).length * 32 ≤ kernelStackBytes := by
      unfold kernelStackBytes
      omega
    exact hbytes.trans this

end BpfCapsule.StackBudget

import BpfCapsule.Domains.Labels
import BpfCapsule.Lib.Fixpoint
import Mathlib.Logic.Relation

/-!
# BpfCapsule — what the domain assignment guarantees

An accepted module keeps its two domains apart. `Mentions` is how a value names another one, through
any depth of constants and initializers; `Edge` is one step of control or reference from a function
to another, and `Boundary` the crossing a `capsule_call` makes.

* `mem_referenced` — the search through an operand's constants misses no function.
* `reach_closed` — a closure holds its roots and, with a function, all its edges.
* `mem_transitiveUsers` — the search through a global's users misses no instruction.
* `domains_separated` — the two closures of an accepted module do not meet, nor do their globals.
-/

namespace BpfCapsule.Domains

namespace Module

variable (M : Module)

/-! ## References -/

/-- `u` is an operand of the constant `v`. -/
def Operand (v u : Value) : Prop := u ∈ M.operands v

/-- `v` names `w`, itself or through the operands of constants. -/
abbrev Mentions (v w : Value) : Prop := Relation.ReflTransGen M.Operand v w

variable {M}

variable {v u : Value} {fuel f g c : Nat} {inst : Inst} {st : List Nat × Finset Value}
    {native : Bool} {next roots : List Nat} {reached : Finset Nat}

theorem operand_const (h : M.Operand v u) : ∃ c < M.constants.length, v = .const c := by
  cases v with
  | const c =>
    refine ⟨c, ?_, rfl⟩
    by_contra hge
    have hnone : M.constants[c]? = none := List.getElem?_eq_none (Nat.le_of_not_lt hge)
    simp [Operand, operands, hnone] at h
  | func f => exact absurd h List.not_mem_nil
  | leaf | dynamic => exact absurd h List.not_mem_nil

/-- A cast of a function names no other function. -/
theorem eq_of_strip (h : M.stripPointerCasts fuel v = .func f) (hg : M.Mentions v (.func g)) :
    g = f := by
  have hfunc {f g : Nat} (hg : M.Mentions (.func f) (.func g)) : g = f := by
    rcases Relation.ReflTransGen.cases_head hg with heq | ⟨u, hu, -⟩
    · exact (Value.func.inj heq).symm
    · exact absurd hu List.not_mem_nil
  induction fuel generalizing v with
  | zero =>
    have hv : v = .func f := h
    exact hfunc (hv ▸ hg)
  | succ fuel ih =>
    cases v with
    | func f' =>
      have hv : Value.func f' = .func f := h
      exact hfunc (hv ▸ hg)
    | leaf | dynamic => cases h
    | const c =>
      unfold stripPointerCasts at h
      split at h
      · rename_i v hcast
        obtain ⟨constant, hc, hcast⟩ := Option.bind_eq_some_iff.mp hcast
        rcases Relation.ReflTransGen.cases_head hg with heq | ⟨u, hu, hrest⟩
        · cases heq
        · -- the step goes to the value behind the cast: the other operands name nothing
          have hmem : u ∈ constant.operands := by
            simpa [Operand, operands, hc] using hu
          rcases (constant.cast_operands v hcast).2 u hmem with rfl | rfl
          · exact ih h hrest
          · rcases Relation.ReflTransGen.cases_head hrest with heq | ⟨w, hw, -⟩
            · cases heq
            · exact absurd hw List.not_mem_nil
      · cases h

theorem asFunction_func (f : Nat) : M.asFunction (.func f) = some f := by
  unfold asFunction
  cases M.constants.length <;> rfl

theorem eq_of_asFunction (h : M.asFunction v = some f) (hg : M.Mentions v (.func g)) : g = f := by
  unfold asFunction at h
  split at h
  · rename_i f' hstrip
    have hf : f' = f := Option.some.inj h
    exact hf ▸ eq_of_strip hstrip hg
  · cases h

def searched (M : Module) (v : Value) : List Value :=
  match M.asFunction v with
  | some _ => []
  | none => M.operands v

theorem mem_values_of_operand (h : M.Operand v u) : u ∈ M.values := by
  obtain ⟨c, hc, rfl⟩ := operand_const h
  have hconst : M.constants[c]? = some M.constants[c] := List.getElem?_eq_getElem hc
  have hu : u ∈ M.constants[c].operands := by
    simpa [Operand, operands, hconst] using h
  unfold values
  rw [List.mem_toFinset, List.mem_append, List.mem_flatMap]
  exact .inl ⟨_, List.getElem_mem hc, hu⟩

theorem mem_values_of_inst (hf : f < M.functions.length) (hinst : inst ∈ M.body f)
    (hv : v ∈ inst.operands) : v ∈ M.values := by
  unfold values
  rw [List.mem_toFinset, List.mem_append]
  refine .inr (List.mem_flatMap.mpr ⟨f, List.mem_range.mpr hf, ?_⟩)
  exact List.mem_flatMap.mpr ⟨inst, hinst, hv⟩

/-- What holds of one operand's search holds of a list of operands. -/
theorem foldl_seen
    (hone : ∀ (st : List Nat × Finset Value), ∀ u ∈ M.values, (M.addReferencedFunctions fuel st u).2
      = Fixpoint.visit (fun v => decide (v ∈ M.values)) (searched M) fuel st.2 u)
    (us : List Value) (st : List Nat × Finset Value) (hus : ∀ u ∈ us, u ∈ M.values) :
    (us.foldl (M.addReferencedFunctions fuel) st).2
      = us.foldl (Fixpoint.visit (fun v => decide (v ∈ M.values)) (searched M) fuel) st.2 := by
  refine List.foldl_rel (r := fun (st : List Nat × Finset Value) seen => st.2 = seen) rfl ?_
  rintro u hu st _ rfl
  exact hone st u (hus u hu)

/-- The values the search has seen are those of a depth-first walk. -/
theorem addReferencedFunctions_seen (hv : v ∈ M.values) :
    (M.addReferencedFunctions fuel st v).2
      = Fixpoint.visit (fun v => decide (v ∈ M.values)) (searched M) fuel st.2 v := by
  induction fuel generalizing st v with
  | zero => rfl
  | succ fuel ih =>
    obtain ⟨work, seen⟩ := st
    unfold addReferencedFunctions Fixpoint.visit
    simp only [hv, decide_true, true_and]
    by_cases hseen : v ∈ seen
    · rw [if_pos hseen, if_neg (not_not_intro hseen)]
    rw [if_neg hseen, if_pos hseen]
    unfold searched
    cases hfun : M.asFunction v with
    | some f => rfl
    | none =>
      exact foldl_seen (fun st u hu => ih hu) _ _ fun u hu => mem_values_of_operand hu

def Pushed (M : Module) (st : List Nat × Finset Value) : Prop :=
  ∀ v ∈ st.2, ∀ f, M.asFunction v = some f → M.isDeclaration f = false → f ∈ st.1

theorem Pushed.addReferencedFunctions (h : Pushed M st) :
    Pushed M (M.addReferencedFunctions fuel st v) := by
  induction fuel generalizing st v with
  | zero => exact h
  | succ fuel ih =>
    obtain ⟨work, seen⟩ := st
    unfold Module.addReferencedFunctions
    split
    · exact h
    cases hfun : M.asFunction v with
    | some f =>
      intro u hu g hg hdef
      rcases Finset.mem_insert.mp hu with rfl | hu
      · have hgf : g = f := Option.some.inj (hg.symm.trans hfun)
        subst hgf
        simp [hdef]
      · have hmem : g ∈ work := h u hu g hg hdef
        show g ∈ if M.isDeclaration f then work else work ++ [f]
        split
        · exact hmem
        · exact List.mem_append_left _ hmem
    | none =>
      have hmarked : Pushed M (work, insert v seen) := by
        intro u hu g hg hdef
        rcases Finset.mem_insert.mp hu with rfl | hu
        · rw [hfun] at hg
          cases hg
        · exact h u hu g hg hdef
      exact List.foldlRecOn _ _ hmarked fun st hst u _ => ih hst

/-- The search for referenced functions finds every defined function an operand mentions. -/
theorem mem_referenced {operands : List Value} (hvalues : ∀ v ∈ operands, v ∈ M.values)
    (hv : v ∈ operands) (hg : M.Mentions v (.func g)) (hdef : M.isDeclaration g = false) :
    g ∈ M.referenced operands := by
  unfold referenced
  let ok : Value → Bool := fun v => decide (v ∈ M.values)
  generalize hst : operands.foldl (M.addReferencedFunctions M.values.card) ([], ∅) = st
  have hseen : st.2 = operands.foldl (Fixpoint.visit ok (searched M) M.values.card) ∅ := by
    rw [← hst]
    exact foldl_seen (fun st u hu => addReferencedFunctions_seen hu) operands _ hvalues
  have hpushed : Pushed M st := by
    have hstart : Pushed M ([], ∅) := fun v hv => absurd hv (Finset.notMem_empty v)
    rw [← hst]
    exact List.foldlRecOn _ _ hstart fun st hst u _ => hst.addReferencedFunctions
  have hvisited : Fixpoint.Visited ok (searched M) operands ∅ st.2 := by
    rw [hseen]
    refine Fixpoint.visited_foldl (fun _ _ => Fixpoint.visit_spec fun a ha => of_decide_eq_true ha) ?_ operands
    rw [Finset.sdiff_empty]
  -- along the path from the operand to the function, every value has been seen
  have hpath : ∀ u, M.Mentions u (.func g) → u ∈ st.2 → g ∈ st.1 := by
    intro u hu
    induction hu using Relation.ReflTransGen.head_induction_on with
    | refl => exact fun hmem => hpushed _ hmem g (asFunction_func g) hdef
    | @head u w hstep hrest ih =>
      intro hmem
      cases hfun : M.asFunction u with
      | some f =>
        have hgf : g = f := eq_of_asFunction hfun (.head hstep hrest)
        exact hpushed u hmem g (hgf ▸ hfun) hdef
      | none =>
        have hnext : w ∈ searched M u := by
          unfold searched
          rw [hfun]
          exact hstep
        have hclosed := (hvisited.closed u hmem (Finset.notMem_empty u)).2
        exact ih (hclosed w hnext (decide_eq_true (mem_values_of_operand hstep)))
  exact hpath v hg (hvisited.started v hv (decide_eq_true (hvalues v hv)))

/-! ## The closures -/

theorem lt_of_defined (h : M.isDeclaration f = false) : f < M.functions.length := by
  by_contra hge
  have hnone : M.functions[f]? = none := List.getElem?_eq_none (Nat.le_of_not_lt hge)
  simp [isDeclaration, hnone] at h

structure Closed (M : Module) (native : Bool) (roots : List Nat) (reached : Finset Nat) : Prop where
  root : ∀ f ∈ roots, M.isDeclaration f = false → f ∈ reached
  defined : ∀ f ∈ reached, M.isDeclaration f = false
  pushed : ∀ f ∈ reached, ∀ inst ∈ M.body f, ∃ next, M.pushedBy native f inst = .ok next ∧
    ∀ g ∈ next, M.isDeclaration g = false → g ∈ reached

theorem expand_pushed (h : M.expand native f = .ok next) (hinst : inst ∈ M.body f) :
    ∃ pushed, M.pushedBy native f inst = .ok pushed ∧ ∀ g ∈ pushed, g ∈ next := by
  obtain ⟨lists, hlists, hret⟩ := Check.bind_eq_ok.mp h
  have hnext : lists.flatten.reverse = next := Except.ok.inj hret
  obtain ⟨pushed, hmem, heq⟩ := Check.of_mapM_eq_ok hlists inst hinst
  refine ⟨pushed, heq, fun g hg => ?_⟩
  rw [← hnext, List.mem_reverse, List.mem_flatten]
  exact ⟨pushed, hmem, hg⟩

/-- What the worklist reaches is closed under everything it pushes. -/
theorem reach_closed (h : M.reach roots native = .ok reached) : Closed M native roots reached := by
  have hin (f : Nat) : M.isDeclaration f = true ∨ f ∈ Finset.range M.functions.length := by
    cases hdef : M.isDeclaration f with
    | true => exact .inl rfl
    | false => exact .inr (Finset.mem_range.mpr (lt_of_defined hdef))
  have hspec : Worklist.Explored M.isDeclaration (M.expand native) roots.reverse ∅ reached := by
    refine Worklist.explore_spec _ (M.pushes native) ?_ (fun f _ => hin f) ?_ h
    · intro f _ next hnext
      refine ⟨?_, fun g _ => hin g⟩
      unfold pushes
      rw [hnext]
    · rw [List.length_reverse, Finset.sdiff_empty]
  refine ⟨fun f hf hdef => ?_, fun f hf => ?_, fun f hf inst hinst => ?_⟩
  · rcases hspec.started f (List.mem_reverse.mpr hf) with hskip | hmem
    · rw [hdef] at hskip
      cases hskip
    · exact hmem
  · exact (hspec.closed f hf (Finset.notMem_empty f)).1
  · obtain ⟨-, next, hnext, hclosed⟩ := hspec.closed f hf (Finset.notMem_empty f)
    obtain ⟨pushed, hpushed, hsub⟩ := expand_pushed hnext hinst
    refine ⟨pushed, hpushed, fun g hg hdef => ?_⟩
    rcases hclosed g (hsub g hg) with hskip | hmem
    · rw [hdef] at hskip
      cases hskip
    · exact hmem

/-! ## Edges -/

/-- An instruction of `f` that is no boundary mentions `g`; a direct callee is an operand. -/
def Refers (M : Module) (f g : Nat) : Prop :=
  ∃ inst ∈ M.body f, inst.isBoundary = false ∧ ∃ v ∈ inst.operands, M.Mentions v (.func g)

/-- `f` calls through a value that is not a constant, at the type of `g`. -/
def CallsType (M : Module) (f g : Nat) : Prop :=
  ∃ c, .call c ∈ M.body f ∧ c.boundary = false ∧ c.inlineAsm = false ∧ c.intrinsic = false ∧
    c.callee = .dynamic ∧ M.functionType g = some c.type

/-- One step from a function to a defined one: a reference, a direct call, or an indirect call that
can reach it. -/
def Edge (M : Module) (f g : Nat) : Prop :=
  M.isDeclaration g = false ∧
    (Refers M f g ∨ (CallsType M f g ∧ M.isIndirectTarget g = true))

/-- A `capsule_call` of `f` has the root `g`. -/
def Boundary (M : Module) (f g : Nat) : Prop :=
  ∃ c, .call c ∈ M.body f ∧ c.boundary = true ∧ M.calledFunction c = some g

theorem pushedBy_referenced (h : M.pushedBy native f inst = .ok next)
    (hb : inst.isBoundary = false) : ∀ g ∈ M.referenced inst.operands, g ∈ next := by
  intro g hg
  cases inst with
  | plain operands =>
    have hnext : M.referenced operands = next := Except.ok.inj h
    exact hnext ▸ hg
  | call c =>
    have hc : c.boundary = false := hb
    simp only [pushedBy, hc, Bool.false_eq_true, if_false] at h
    rw [← Except.ok.inj h]
    exact List.mem_append_left _ hg

theorem pushedBy_called {c : Call} (h : M.pushedBy native f (.call c) = .ok next)
    (hb : c.boundary = false) : ∀ g ∈ M.called c, g ∈ next := by
  intro g hg
  simp only [pushedBy, hb, Bool.false_eq_true, if_false] at h
  rw [← Except.ok.inj h]
  exact List.mem_append_right _ hg

/-- A closure holds with a function all its edges lead to. -/
theorem Closed.edge (h : Closed M native roots reached) (hf : f ∈ reached) (hedge : M.Edge f g) :
    g ∈ reached := by
  obtain ⟨hdef, hrefers | ⟨hcalls, htarget⟩⟩ := hedge
  · obtain ⟨inst, hinst, hb, v, hv, hmentions⟩ := hrefers
    obtain ⟨next, hnext, hclosed⟩ := h.pushed f hf inst hinst
    refine hclosed g (pushedBy_referenced hnext hb g ?_) hdef
    refine mem_referenced (fun u hu => ?_) hv hmentions hdef
    exact mem_values_of_inst (lt_of_defined (h.defined f hf)) hinst hu
  · obtain ⟨c, hinst, hb, hasm, hintrinsic, hcallee, htype⟩ := hcalls
    obtain ⟨next, hnext, hclosed⟩ := h.pushed f hf _ hinst
    refine hclosed g (pushedBy_called hnext hb g ?_) hdef
    have hnone : M.calledFunction c = none := by
      unfold calledFunction
      rw [hcallee]
    simp only [called, hasm, hintrinsic, Bool.or_self, Bool.false_eq_true, if_false, hnone, hcallee]
    unfold findIndirectTargets
    rw [List.mem_filter]
    refine ⟨List.mem_range.mpr (lt_of_defined hdef), ?_⟩
    simp [htarget, htype]

theorem Closed.edges (h : Closed M native roots reached) (hf : f ∈ reached)
    (hpath : Relation.ReflTransGen M.Edge f g) : g ∈ reached := by
  induction hpath with
  | refl => exact hf
  | tail _ hstep ih => exact h.edge ih hstep

theorem Closed.no_boundary (h : Closed M false roots reached) (hf : f ∈ reached)
    (hinst : inst ∈ M.body f) : inst.isBoundary = false := by
  obtain ⟨next, hnext, -⟩ := h.pushed f hf inst hinst
  cases inst with
  | plain operands => rfl
  | call c =>
    cases hb : c.boundary with
    | false => exact hb
    | true =>
      simp only [pushedBy, hb, if_true, Bool.false_eq_true, if_false] at hnext
      cases hnext

/-! ## The users of a global -/

theorem mem_instUsers {i : Nat} (hf : f < M.functions.length) (hinst : (M.body f)[i]? = some inst)
    (hv : v ∈ inst.operands) : .inst f i ∈ M.instUsers v := by
  unfold instUsers
  rw [List.mem_flatMap]
  refine ⟨f, List.mem_range.mpr hf, List.mem_map.mpr ⟨(inst, i), ?_, rfl⟩⟩
  rw [List.mem_filter]
  exact ⟨List.mem_zipIdx_iff_getElem?.mpr hinst, decide_eq_true hv⟩

theorem mem_constUsers (hc : c < M.constants.length) (hu : M.Operand (.const c) u) :
    .const c ∈ M.constUsers u := by
  unfold constUsers
  rw [List.mem_map]
  exact ⟨c, List.mem_filter.mpr ⟨List.mem_range.mpr hc, decide_eq_true hu⟩, rfl⟩

theorem users_mem_allUsers {u : User} (hu : u ∈ M.users v) : u ∈ M.allUsers := by
  unfold allUsers
  rw [List.mem_toFinset, List.mem_append]
  rcases List.mem_append.mp hu with hinst | hconst
  · obtain ⟨f, hf, hmem⟩ := List.mem_flatMap.mp hinst
    obtain ⟨⟨inst, i⟩, hfilter, rfl⟩ := List.mem_map.mp hmem
    have hget := List.mem_zipIdx_iff_getElem?.mp (List.mem_filter.mp hfilter).1
    have hi : i < (M.body f).length := by
      obtain ⟨hi, -⟩ := List.getElem?_eq_some_iff.mp hget
      exact hi
    refine .inl (List.mem_flatMap.mpr ⟨f, hf, List.mem_map.mpr ⟨i, List.mem_range.mpr hi, rfl⟩⟩)
  · obtain ⟨c, hc, rfl⟩ := List.mem_map.mp hconst
    exact .inr (List.mem_map.mpr ⟨c, (List.mem_filter.mp hc).1, rfl⟩)

/-- The search holds the users of the constant and, with a constant user, all its users. -/
theorem transitiveUsers_closed (c : Nat) :
    (∀ u ∈ M.users (.const c), u ∈ M.transitiveUsers c) ∧
      ∀ d, .const d ∈ M.transitiveUsers c → ∀ u ∈ M.users (.const d), u ∈ M.transitiveUsers c := by
  have hspec : Worklist.Explored (fun _ => false) (fun u => Except.ok (ε := Empty) (M.usersOf u))
      (M.users (.const c)).reverse ∅ (M.transitiveUsers c) := by
    unfold transitiveUsers
    split
    rename_i result hresult
    refine Worklist.explore_spec M.allUsers (fun u => (M.usersOf u).length) ?_
      (fun u hu => .inr (users_mem_allUsers (List.mem_reverse.mp hu))) ?_ hresult
    · intro u _ next hnext
      have heq : M.usersOf u = next := Except.ok.inj hnext
      subst heq
      refine ⟨Nat.le_refl _, fun w hw => .inr ?_⟩
      cases u with
      | inst f i => exact absurd hw List.not_mem_nil
      | const d => exact users_mem_allUsers hw
    · rw [List.length_reverse, Finset.sdiff_empty]
  refine ⟨fun u hu => ?_, fun d hd u hu => ?_⟩
  · exact (hspec.started u (List.mem_reverse.mpr hu)).resolve_left Bool.false_ne_true
  · obtain ⟨-, next, hnext, hclosed⟩ := hspec.closed _ hd (Finset.notMem_empty _)
    have heq : M.users (.const d) = next := Except.ok.inj hnext
    exact (hclosed u (heq ▸ hu)).resolve_left Bool.false_ne_true

/-- Whatever mentions the constant has its users among the constant's. -/
theorem users_of_mentions (h : M.Mentions v (.const c)) :
    ∀ u ∈ M.users v, u ∈ M.transitiveUsers c := by
  induction h using Relation.ReflTransGen.head_induction_on with
  | refl => exact (transitiveUsers_closed c).1
  | head hstep _ ih =>
    obtain ⟨d, hd, rfl⟩ := operand_const hstep
    refine (transitiveUsers_closed c).2 d (ih _ ?_)
    exact List.mem_append_right _ (mem_constUsers hd hstep)

/-- An instruction of `f` mentions the global. -/
def RefersGlobal (M : Module) (f c : Nat) : Prop :=
  ∃ inst ∈ M.body f, ∃ v ∈ inst.operands, M.Mentions v (.const c)

theorem usedIn_of_refers {domain : Finset Nat} (hf : f ∈ domain) (hlt : f < M.functions.length)
    (h : M.RefersGlobal f c) : M.usedIn domain c = true := by
  obtain ⟨inst, hinst, v, hv, hmentions⟩ := h
  obtain ⟨i, hi, hget⟩ := List.mem_iff_getElem.mp hinst
  have huser : User.inst f i ∈ M.users v := by
    refine List.mem_append_left _ (mem_instUsers hlt ?_ hv)
    rw [List.getElem?_eq_getElem hi, hget]
  refine decide_eq_true ⟨_, users_of_mentions hmentions _ huser, ?_⟩
  exact decide_eq_true hf

/-! ## The pass -/

/-- What an accepted module passed. -/
theorem of_run_eq_ok {L : Labels} (h : M.run = .ok L) :
    ∃ boundary, M.boundaryRoots = .ok boundary ∧
      Closed M true (M.functionIds.filter M.isEntryProgram) L.native ∧
      Closed M false (boundary ++ M.markerRoots ++
        M.functionIds.filter fun f => M.isIndirectTarget f && !decide (f ∈ L.native)) L.capsule ∧
      Disjoint L.native L.capsule ∧
      ∀ c ∈ M.ownedGlobals, ¬ (M.usedIn L.native c = true ∧ M.usedIn L.capsule c = true ∧
        M.unshareable c = true) := by
  obtain ⟨boundary, hboundary, h⟩ := Check.bind_eq_ok.mp h
  obtain ⟨native, hnative, h⟩ := Check.bind_eq_ok.mp h
  obtain ⟨capsule, hcapsule, h⟩ := Check.bind_eq_ok.mp h
  obtain ⟨hdisjoint, h⟩ := Check.rejectIf_bind_eq_ok.mp h
  obtain ⟨_, hglobals, h⟩ := Check.bind_eq_ok.mp h
  cases h
  refine ⟨boundary, hboundary, reach_closed hnative, reach_closed hcapsule,
    not_not.mp hdisjoint, fun c hc => ?_⟩
  exact Check.rejectIf_eq_ok.mp (Check.of_forM_eq_ok hglobals c hc)

theorem boundary_mem {boundary : List Nat} (h : M.boundaryRoots = .ok boundary)
    (hb : M.Boundary f g) : g ∈ boundary := by
  obtain ⟨c, hinst, hboundary, hcalled⟩ := hb
  obtain ⟨lists, hlists, hret⟩ := Check.bind_eq_ok.mp h
  have hf : f < M.functions.length := by
    by_contra hge
    have hnone : M.functions[f]? = none := List.getElem?_eq_none (Nat.le_of_not_lt hge)
    simp [body, hnone] at hinst
  have hmem : Inst.call c ∈ M.functionIds.flatMap M.body :=
    List.mem_flatMap.mpr ⟨f, List.mem_range.mpr hf, hinst⟩
  obtain ⟨roots, hroots, heq⟩ := Check.of_mapM_eq_ok hlists _ hmem
  simp only [boundaryRoot, hboundary, if_true, hcalled] at heq
  rw [← Except.ok.inj hret, List.mem_flatten]
  exact ⟨roots, hroots, by rw [← Except.ok.inj heq]; exact List.mem_singleton_self g⟩

theorem defined_of_markerRoots (h : f ∈ M.markerRoots) : M.isDeclaration f = false := by
  obtain ⟨-, hany⟩ := List.mem_filter.mp h
  obtain ⟨inst, hinst, -⟩ := List.any_eq_true.mp hany
  cases hbody : (M.functions[f]?).bind Function.body with
  | none => simp [body, hbody] at hinst
  | some insts => simp [isDeclaration, hbody]

def AnyEdge (M : Module) (f g : Nat) : Prop :=
  M.Edge f g ∨ (M.Boundary f g ∧ M.isDeclaration g = false)

/-- **Domain separation.** In an accepted module the edges of native functions lead to native
functions, and those of capsule functions to capsule functions, which make no `capsule_call`; entry
programs are native, and the targets of a `capsule_call` and the callers of the exit marker are
capsule functions; no function is both, and every function with its address taken, or reachable from
a labelled one in any way, is labelled; and no global that may not be shared is used by both. -/
theorem domains_separated (M : Module) (L : Labels) (h : M.run = .ok L) :
    (∀ f ∈ L.native, ∀ g, Relation.ReflTransGen M.Edge f g → g ∈ L.native) ∧
    (∀ f ∈ L.capsule, (∀ g, Relation.ReflTransGen M.Edge f g → g ∈ L.capsule) ∧
      ∀ inst ∈ M.body f, inst.isBoundary = false) ∧
    (∀ f, M.isEntryProgram f = true → M.isDeclaration f = false → f ∈ L.native) ∧
    (∀ f g, M.Boundary f g → M.isDeclaration g = false → g ∈ L.capsule) ∧
    (∀ f ∈ M.markerRoots, f ∈ L.capsule) ∧
    Disjoint L.native L.capsule ∧
    (∀ f, M.isIndirectTarget f = true → f ∈ L.native ∨ f ∈ L.capsule) ∧
    (∀ f g, f ∈ L.native ∨ f ∈ L.capsule → Relation.ReflTransGen M.AnyEdge f g →
      g ∈ L.native ∨ g ∈ L.capsule) ∧
    (∀ c ∈ M.ownedGlobals, M.unshareable c = true → ∀ f ∈ L.native, ∀ g ∈ L.capsule,
      ¬ (M.RefersGlobal f c ∧ M.RefersGlobal g c)) := by
  obtain ⟨boundary, hboundary, hnative, hcapsule, hdisjoint, hglobals⟩ := of_run_eq_ok h
  have hroot : ∀ f g, M.Boundary f g → M.isDeclaration g = false → g ∈ L.capsule := by
    intro f g hb hdef
    refine hcapsule.root g ?_ hdef
    exact List.mem_append_left _ (List.mem_append_left _ (boundary_mem hboundary hb))
  refine ⟨fun f hf g => hnative.edges hf, ?_, ?_, hroot, ?_, hdisjoint, ?_, ?_, ?_⟩
  · exact fun f hf => ⟨fun g => hcapsule.edges hf, fun inst => hcapsule.no_boundary hf⟩
  · intro f hentry hdef
    refine hnative.root f ?_ hdef
    exact List.mem_filter.mpr ⟨List.mem_range.mpr (lt_of_defined hdef), hentry⟩
  · intro f hf
    refine hcapsule.root f ?_ (defined_of_markerRoots hf)
    exact List.mem_append_left _ (List.mem_append_right _ hf)
  · intro f htarget
    have hdef : M.isDeclaration f = false := by
      simp only [isIndirectTarget, Bool.and_eq_true, Bool.not_eq_true'] at htarget
      exact htarget.1.1.1
    by_cases hf : f ∈ L.native
    · exact .inl hf
    · refine .inr (hcapsule.root f (List.mem_append_right _ ?_) hdef)
      refine List.mem_filter.mpr ⟨List.mem_range.mpr (lt_of_defined hdef), ?_⟩
      simp [htarget, hf]
  · intro f g hf hpath
    induction hpath with
    | refl => exact hf
    | tail _ hstep ih =>
      rcases hstep with hedge | ⟨hb, hdef⟩
      · exact ih.imp (fun hin => hnative.edge hin hedge) fun hin => hcapsule.edge hin hedge
      · exact .inr (hroot _ _ hb hdef)
  · intro c hc hunshareable f hf g hg ⟨hfc, hgc⟩
    refine hglobals c hc ⟨?_, ?_, hunshareable⟩
    · exact usedIn_of_refers hf (lt_of_defined (hnative.defined f hf)) hfc
    · exact usedIn_of_refers hg (lt_of_defined (hcapsule.defined g hg)) hgc

/-- An entry program calls a helper of its own and crosses into a root that calls a callback through
a table; the table's function has its address taken. -/
def callbackModule : Module where
  functions := [
    { type := 0, entryProgram := true, body := some [
      .call { callee := .func 1, args := [], type := 1 },
      .call { callee := .func 2, args := [], type := 2, boundary := true }] },
    { type := 1, body := some [.plain []] },
    { type := 2, body := some [
      .plain [.const 0], .call { callee := .dynamic, args := [.leaf], type := 3 }] },
    { type := 3, body := some [.plain []] }]
  constants := [
    { operands := [.const 1], global := some {} },
    { operands := [.func 3, .const 0] }]
  addressTaken f := f = 3
  exitMarker := none

theorem domains_separated_callback :
    ∃ L, callbackModule.run = .ok L ∧ 1 ∈ L.native ∧ 3 ∈ L.capsule ∧
      Disjoint L.native L.capsule := by
  let L : Labels := ⟨{1, 0}, {2, 3}, [], [0]⟩
  have hrun : callbackModule.run = .ok L := by decide
  obtain ⟨-, -, -, -, -, hdisjoint, -⟩ := domains_separated callbackModule L hrun
  exact ⟨L, hrun, by decide, by decide, hdisjoint⟩

/-- An entry program keeps the address of another one, and a capsule function makes an indirect call
at that type; both use a variable that is declared elsewhere. -/
def entryTableModule : Module where
  functions := [
    { type := 0, entryProgram := true, body := some [
      .plain [.func 1, .const 0], .call { callee := .func 2, args := [], type := 2, boundary := true }] },
    { type := 1, entryProgram := true, body := some [.plain []] },
    { type := 2, body := some [
      .plain [.const 0], .call { callee := .dynamic, args := [], type := 1 }] }]
  constants := [{ operands := [], global := some { isDeclaration := true } }]
  addressTaken f := f = 1
  exitMarker := none

/-- Entry programs are no targets of indirect calls, though one may have its address taken, and a
variable that is only declared may be used by both domains. -/
theorem entries_and_declarations_exempt :
    ∃ L, entryTableModule.run = .ok L ∧
      (2 ∈ L.capsule ∧ entryTableModule.CallsType 2 1 ∧ entryTableModule.addressTaken 1 = true ∧
        entryTableModule.isDeclaration 1 = false ∧ 1 ∉ L.capsule) ∧
      (0 ∈ L.native ∧ entryTableModule.unshareable 0 = true ∧ entryTableModule.RefersGlobal 0 0 ∧
        entryTableModule.RefersGlobal 2 0) := by
  refine ⟨⟨{0, 1}, {2}, [], []⟩, by decide, ⟨by decide, ?_, rfl, rfl, by decide⟩, by decide, rfl,
    ?_, ?_⟩
  · exact ⟨{ callee := .dynamic, args := [], type := 1 }, by decide, rfl, rfl, rfl, rfl, rfl⟩
  · exact ⟨_, List.mem_cons_self, .const 0, by decide, .refl⟩
  · exact ⟨_, List.mem_cons_self, .const 0, by decide, .refl⟩

end Module

end BpfCapsule.Domains

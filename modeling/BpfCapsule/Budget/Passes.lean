import BpfCapsule.Budget.Graph
import BpfCapsule.Lib.Folds
import BpfCapsule.Lib.Propagate
import Mathlib.Data.Finset.Max
import Mathlib.Algebra.Order.Monoid.Unbundled.WithTop
import Mathlib.Order.Lattice.Nat

/-!
# The passes over the physical call graph

`assign` is the second half of `runOnModule`: order the graph the kernel can reach, refuse nested
Capsule frames and too many frames, compute the longest fixed-only prefix and suffix of every node,
and give each unit what they leave of the kernel's stack. Each pass is an instance of
`Propagate.pass` or `Propagate.fill`, and its lemma says what its values are in terms of walks.
-/

namespace BpfCapsule.StackBudget

open Check DepthFirst Folds Propagate

namespace Graph

variable (g : Graph)

def node (n : Nat) : Node := g.nodes.getD n {}

def succ (n : Nat) : List Nat := (g.node n).successors

def isVariable (n : Nat) : Bool := (g.node n).variableFrame

def floor (n : Nat) : Nat := (g.node n).fixedFloor

def postorder : Except Rejection (List Nat) :=
  (search g.succ g.entries (g.nodes.length + 1)).mapError .recursive

/-- `previousVariables`: the variable frames on walks to a node. -/
def previousVariables (order : List Nat) : Except Rejection (Nat → Finset Nat) :=
  pass g.succ (fun u _ seen => if g.isVariable u then insert u seen else seen)
    (fun n seen => rejectIf (g.isVariable n = true ∧ seen ≠ ∅)
      (Rejection.nested (seen.min.untopD 0) n))
    order fun _ => ∅

/-- `callFrames`: the frames of the longest walk to a node; zero where no walk is known. -/
def callFrames (order : List Nat) : Except Rejection (Nat → Nat) :=
  pass g.succ (fun _ _ frames => if frames = 0 then 0 else frames + 1)
    (fun n frames => rejectIf (kernelCallFrames < frames) (Rejection.callFrames frames n))
    order fun n => if n ∈ g.entries then 1 else 0

/-- `prefix`: the bytes of the longest fixed-only walk to a node, the node included. -/
def prefixes (order : List Nat) : Except Rejection (Nat → WithBot Nat) :=
  pass g.succ
    (fun u s bytes => if g.isVariable u ∨ g.isVariable s then ⊥ else bytes.map (· + g.floor s))
    (fun n bytes => rejectIf (¬ g.isVariable n ∧ kernelStackBytes < bytes.unbotD 0)
      (Rejection.nativeBytes (bytes.unbotD 0) n))
    order fun n => if n ∈ g.entries ∧ ¬ g.isVariable n then (g.floor n : WithBot Nat) else ⊥

/-- `suffix`: the bytes of the longest fixed-only chain from a node. -/
def suffixes (postorder : List Nat) : Nat → WithBot Nat :=
  fill (fun n suffix => if g.isVariable n then ⊥ else
      (((g.succ n).filter fun s => ¬ g.isVariable s ∧ suffix s ≠ ⊥).foldl
        (fun best s => max best (g.floor n + (suffix s).unbotD 0)) (g.floor n) : Nat))
    postorder fun _ => ⊥

/-- The longest prefix of a caller of `v`. -/
def before (pre : Nat → WithBot Nat) (v : Nat) : Nat :=
  ((List.range g.nodes.length).filter fun c => pre c ≠ ⊥ ∧ v ∈ g.succ c).foldl
    (fun best c => max best ((pre c).unbotD 0)) 0

/-- The longest suffix of a callee of `v`. -/
def after (suf : Nat → WithBot Nat) (v : Nat) : Nat :=
  (g.succ v).foldl (fun best s => max best ((suf s).unbotD 0)) 0

def left (reachable : Bool) (fixed : Nat) : Nat :=
  if reachable then (if fixed < kernelStackBytes then kernelStackBytes - fixed else 0)
  else kernelStackBytes

/-- The budget of the node `v`. -/
def budget (order : List Nat) (pre suf : Nat → WithBot Nat) (v : Nat) : Except Rejection Nat := do
  let fixed := g.before pre v + g.after suf v
  let bytes := left (v ∈ order) fixed
  rejectIf (v ∈ order ∧ (bytes < portableStackGranule ∨ bytes < g.floor v))
    (Rejection.noFrameFits v fixed (g.floor v))
  pure bytes

def budgets (order : List Nat) (pre suf : Nat → WithBot Nat) :
    Except Rejection (List (Nat × Nat)) :=
  ((List.range g.nodes.length).filter g.isVariable).foldlM (fun known v => do
    let bytes ← g.budget order pre suf v
    pure (known ++ ((g.node v).members.filter (·.allocationUnit)).map
      fun f => (f.function, bytes))) []

def assign : Except Rejection (List (Nat × Nat)) := do
  let postorder ← g.postorder
  let order := postorder.reverse
  let _ ← g.previousVariables order
  let _ ← g.callFrames order
  let pre ← g.prefixes order
  g.budgets order pre (g.suffixes postorder)

end Graph

/-- `BPFMachineStackBudget::runOnModule`: what is stored as `NativeStackBudget` on the units. -/
def runOnModule (m : Module) : Except Rejection (List (Nat × Nat)) := do
  let g ← contract m
  g.assign

/-! ## What the passes compute -/

/-- The join of two values of a linear order is one of them. -/
theorem join_of_le_total {α : Type} [LinearOrder α] {J : α → Prop} (x y : α) (hx : J x) (hy : J y) :
    J (x ⊔ y) := by
  rcases max_choice x y with hmax | hmax
  · rw [hmax]
    exact hx
  · rw [hmax]
    exact hy

namespace Graph

variable {g : Graph}

theorem succ_lt {u s : Nat} (hs : s ∈ g.succ u) : s < g.nodes.length := by
  unfold succ node at hs
  rw [List.getD_eq_getElem?_getD] at hs
  cases hget : g.nodes[u]? with
  | none => rw [hget] at hs; cases hs
  | some n =>
    rw [hget] at hs
    exact g.successors_lt n (List.mem_of_getElem? hget) s hs

theorem floor_dvd (n : Nat) : portableStackGranule ∣ g.floor n := by
  unfold floor Node.fixedFloor
  generalize hframes : ((g.node n).members.filter fun f => !f.allocationUnit).map Member.frame = frames
  have hall : ∀ b ∈ frames, portableStackGranule ∣ b := by
    intro b hb
    rw [← hframes] at hb
    obtain ⟨f, _, rfl⟩ := List.mem_map.mp hb
    exact f.granular
  rcases foldl_max_eq id 0 frames with heq | ⟨b, hb, heq⟩
  · rw [show frames.foldl max 0 = 0 from heq]
    exact Nat.dvd_zero _
  · rw [show frames.foldl max 0 = b from heq]
    exact hall b hb

def Fixed (g : Graph) (path : List Nat) : Prop := ∀ n ∈ path, g.isVariable n = false

def fixedBytes (g : Graph) (path : List Nat) : Nat := (path.map g.floor).sum

theorem fixedBytes_concat (path : List Nat) (n : Nat) :
    g.fixedBytes (path ++ [n]) = g.fixedBytes path + g.floor n := by
  simp [fixedBytes]

theorem fixedBytes_dvd (path : List Nat) : portableStackGranule ∣ g.fixedBytes path := by
  induction path with
  | nil => exact Nat.dvd_zero _
  | cons n path ih => exact Nat.dvd_add (floor_dvd n) ih

theorem postorder_spec :
    match g.postorder with
    | .ok postorder => Topological g.succ postorder.reverse ∧ (∀ e ∈ g.entries, e ∈ postorder) ∧
        ∀ v ∈ postorder, ∃ p, WalkTo g.succ g.entries p v
    | .error _ => ∃ p v, WalkTo g.succ g.entries p v ∧ v ∈ p := by
  have hclosed : ∀ u ∈ Finset.range g.nodes.length, ∀ s ∈ g.succ u,
      s ∈ Finset.range g.nodes.length := fun u _ s hs => Finset.mem_range.mpr (succ_lt hs)
  have hentries : ∀ e ∈ g.entries, e ∈ Finset.range g.nodes.length :=
    fun e he => Finset.mem_range.mpr (g.entries_lt e he)
  have hfuel : (Finset.range g.nodes.length).card < g.nodes.length + 1 := by simp
  have hsearch := search_spec hclosed hentries hfuel
  unfold postorder
  cases hrun : search g.succ g.entries (g.nodes.length + 1) with
  | error cycle => rw [hrun] at hsearch; exact hsearch
  | ok postorder => rw [hrun] at hsearch; exact hsearch

structure Ordered (g : Graph) (order : List Nat) : Prop where
  topological : Topological g.succ order
  entries_mem : ∀ e ∈ g.entries, e ∈ order
  walked : ∀ v ∈ order, ∃ p, WalkTo g.succ g.entries p v

section

variable {order : List Nat} (ho : Ordered g order)

include ho

variable {p : List Nat} {v : Nat} {e : Rejection} {pre : Nat → WithBot Nat}

theorem Ordered.mem (hw : WalkTo g.succ g.entries p v) : v ∈ order :=
  ho.topological.walkTo_mem ho.entries_mem hw

theorem Ordered.lt (hv : v ∈ order) : v < g.nodes.length := by
  obtain ⟨p, hw⟩ := ho.walked v hv
  cases hw with
  | start he => exact g.entries_lt v he
  | step _ hs => exact succ_lt hs

/-- No variable frame comes before another one on a walk. -/
theorem previousVariables_ok {seen : Nat → Finset Nat} (h : g.previousVariables order = .ok seen)
    (hw : WalkTo g.succ g.entries p v) (hv : g.isVariable v = true) : Fixed g p := by
  obtain ⟨_, _, hclosed⟩ := pass_ok ho.topological h
  have hseen : ∀ u ∈ p, g.isVariable u = true → u ∈ seen v := by
    clear hv
    induction hw with
    | start _ => intro u hu; cases hu
    | @step p w v hw hs ih =>
      have hsent := (hclosed w (ho.mem hw)).2 v hs
      intro u hu hvar
      rcases List.mem_append.mp hu with hu | hu
      · apply hsent
        split
        · exact Finset.mem_insert_of_mem (ih u hu hvar)
        · exact ih u hu hvar
      · rw [List.mem_singleton.mp hu] at hvar ⊢
        apply hsent
        rw [if_pos hvar]
        exact Finset.mem_insert_self w _
  have hcheck := rejectIf_eq_ok.mp (hclosed v (ho.mem hw)).1
  intro u hu
  by_contra hvar
  have hmem := hseen u hu (by simpa using hvar)
  exact hcheck ⟨hv, fun hempty => by rw [hempty] at hmem; cases hmem⟩

theorem previousVariables_error (h : g.previousVariables order = .error e) :
    ∃ p u v, WalkTo g.succ g.entries p v ∧ u ∈ p ∧ g.isVariable u = true ∧ g.isVariable v = true := by
  let Seen : Nat → Finset Nat → Prop := fun v seen => ∀ u ∈ seen, g.isVariable u = true ∧
    ∃ p, WalkTo g.succ g.entries p v ∧ u ∈ p
  have hsent : ∀ w ∈ order, ∀ s ∈ g.succ w, ∀ seen, Seen w seen →
      Seen s (if g.isVariable w then insert w seen else seen) := by
    intro w hw s hs seen hseen u hu
    obtain ⟨p, hwalk⟩ := ho.walked w hw
    have hcases : (u = w ∧ g.isVariable w = true) ∨ u ∈ seen := by
      split at hu
      · rcases Finset.mem_insert.mp hu with rfl | hu
        · exact .inl ⟨rfl, ‹_›⟩
        · exact .inr hu
      · exact .inr hu
    rcases hcases with ⟨rfl, hvar⟩ | hu
    · exact ⟨hvar, p ++ [u], hwalk.step hs, by simp⟩
    · obtain ⟨hvar, q, hq, hmem⟩ := hseen u hu
      exact ⟨hvar, q ++ [w], hq.step hs, List.mem_append_left _ hmem⟩
  have hjoin : ∀ v x y, Seen v x → Seen v y → Seen v (x ⊔ y) := by
    intro v x y hx hy u hu
    rcases Finset.mem_union.mp hu with hu | hu
    · exact hx u hu
    · exact hy u hu
  obtain ⟨v, _, seen, hseen, hcheck⟩ :=
    pass_error hsent hjoin (fun v u hu => absurd hu (Finset.notMem_empty u)) h
  obtain ⟨⟨hv, hne⟩, _⟩ := rejectIf_eq_error.mp hcheck
  obtain ⟨u, hu⟩ := Finset.nonempty_iff_ne_empty.mpr hne
  obtain ⟨hvar, p, hw, hp⟩ := hseen u hu
  exact ⟨p, u, v, hw, hp, hvar, hv⟩

theorem callFrames_ok {frames : Nat → Nat} (h : g.callFrames order = .ok frames)
    (hw : WalkTo g.succ g.entries p v) : p.length + 1 ≤ kernelCallFrames := by
  obtain ⟨hinit, _, hclosed⟩ := pass_ok ho.topological h
  have hlen : p.length + 1 ≤ frames v := by
    induction hw with
    | @start v he =>
      have := hinit v
      rwa [if_pos he] at this
    | @step p u v hw hs ih =>
      have hsent := (hclosed u (ho.mem hw)).2 v hs
      rw [if_neg (by omega)] at hsent
      rw [List.length_append, List.length_singleton]
      omega
  have hcheck := rejectIf_eq_ok.mp (hclosed v (ho.mem hw)).1
  omega

omit ho in
theorem callFrames_error (h : g.callFrames order = .error e) :
    ∃ p v, WalkTo g.succ g.entries p v ∧ kernelCallFrames < p.length + 1 := by
  let Counted : Nat → Nat → Prop := fun v frames =>
    frames = 0 ∨ ∃ p, WalkTo g.succ g.entries p v ∧ p.length + 1 = frames
  have hinit : ∀ v, Counted v (if v ∈ g.entries then 1 else 0) := by
    intro v
    split
    · exact .inr ⟨[], .start ‹_›, rfl⟩
    · exact .inl rfl
  have hsent : ∀ u ∈ order, ∀ s ∈ g.succ u, ∀ frames, Counted u frames →
      Counted s (if frames = 0 then 0 else frames + 1) := by
    intro u _ s hs frames hframes
    rcases hframes with rfl | ⟨p, hw, rfl⟩
    · exact .inl (if_pos rfl)
    · refine .inr ⟨p ++ [u], hw.step hs, ?_⟩
      rw [if_neg (by omega), List.length_append, List.length_singleton]
  obtain ⟨v, _, frames, hframes, hcheck⟩ := pass_error hsent (fun _ => join_of_le_total) hinit h
  obtain ⟨hreject, _⟩ := rejectIf_eq_error.mp hcheck
  rcases hframes with rfl | ⟨p, hw, rfl⟩
  · exact absurd hreject (Nat.not_lt_zero _)
  · exact ⟨p, v, hw, hreject⟩

/-- The longest fixed-only walk to a node, as far as the pass follows it. -/
theorem prefixes_ok (h : g.prefixes order = .ok pre) (hw : WalkTo g.succ g.entries p v)
    (hfixed : Fixed g (p ++ [v])) :
    (g.fixedBytes (p ++ [v]) : WithBot Nat) ≤ pre v ∧ (pre v).unbotD 0 ≤ kernelStackBytes := by
  obtain ⟨hinit, _, hclosed⟩ := pass_ok ho.topological h
  have hv : g.isVariable v = false := hfixed v (by simp)
  have hcheck := rejectIf_eq_ok.mp (hclosed v (ho.mem hw)).1
  refine ⟨?_, by simpa [hv] using hcheck⟩
  clear hcheck hv
  induction hw with
  | @start v he =>
    have hv : g.isVariable v = false := hfixed v (by simp)
    have := hinit v
    rw [if_pos ⟨he, by simp [hv]⟩] at this
    simpa [fixedBytes] using this
  | @step p u v hw hs ih =>
    have hv : g.isVariable v = false := hfixed v (by simp)
    have hu : g.isVariable u = false := hfixed u (by simp)
    have hfront := ih fun n hn => hfixed n (List.mem_append_left _ hn)
    have hsent := (hclosed u (ho.mem hw)).2 v hs
    rw [if_neg (by simp [hu, hv])] at hsent
    refine le_trans ?_ hsent
    rw [fixedBytes_concat]
    cases hpre : pre u with
    | bot => rw [hpre] at hfront; exact absurd hfront (by simp)
    | coe bytes =>
      rw [hpre] at hfront
      have hle : g.fixedBytes (p ++ [u]) ≤ bytes := WithBot.coe_le_coe.mp hfront
      exact WithBot.coe_le_coe.mpr (Nat.add_le_add_right hle _)

def Prefixed (g : Graph) (v : Nat) (bytes : WithBot Nat) : Prop :=
  bytes = ⊥ ∨ ∃ p, WalkTo g.succ g.entries p v ∧ Fixed g (p ++ [v]) ∧
    bytes = (g.fixedBytes (p ++ [v]) : WithBot Nat)

omit ho in
theorem Prefixed.initial (v : Nat) : Prefixed g v
    (if v ∈ g.entries ∧ ¬ g.isVariable v then (g.floor v : WithBot Nat) else ⊥) := by
  split
  · rename_i hstart
    refine .inr ⟨[], .start hstart.1, fun n hn => ?_, ?_⟩
    · rw [List.mem_singleton.mp hn]
      simpa using hstart.2
    · simp [fixedBytes]
  · exact .inl rfl

omit ho in
theorem Prefixed.sent {u s : Nat} (hs : s ∈ g.succ u) {bytes : WithBot Nat}
    (h : Prefixed g u bytes) : Prefixed g s
      (if g.isVariable u ∨ g.isVariable s then ⊥ else bytes.map (· + g.floor s)) := by
  split
  · exact .inl rfl
  · rename_i hboth
    rcases h with rfl | ⟨p, hw, hfixed, rfl⟩
    · exact .inl rfl
    · refine .inr ⟨p ++ [u], hw.step hs, fun n hn => ?_, ?_⟩
      · rcases List.mem_append.mp hn with hn | hn
        · exact hfixed n hn
        · rw [List.mem_singleton.mp hn]
          exact Bool.eq_false_iff.mpr fun hvar => hboth (.inr hvar)
      · rw [fixedBytes_concat (p ++ [u])]
        rfl

omit ho in
theorem prefixes_justified (h : g.prefixes order = .ok pre) (v : Nat) : Prefixed g v (pre v) :=
  pass_justified (fun _ _ _ hs _ hx => hx.sent hs) (fun _ => join_of_le_total) Prefixed.initial h v

omit ho in
theorem prefixes_error (h : g.prefixes order = .error e) :
    ∃ p v, WalkTo g.succ g.entries p v ∧ Fixed g (p ++ [v]) ∧
      kernelStackBytes < g.fixedBytes (p ++ [v]) := by
  obtain ⟨v, _, bytes, hbytes, hcheck⟩ := pass_error
    (fun _ _ _ hs _ hx => hx.sent hs) (fun _ => join_of_le_total) Prefixed.initial h
  obtain ⟨⟨_, hreject⟩, _⟩ := rejectIf_eq_error.mp hcheck
  rcases hbytes with rfl | ⟨p, hw, hfixed, rfl⟩
  · exact absurd hreject (Nat.not_lt_zero _)
  · exact ⟨p, v, hw, hfixed, hreject⟩

/-! ### Suffixes -/

def suffixOf (g : Graph) (n : Nat) (suf : Nat → WithBot Nat) : WithBot Nat :=
  if g.isVariable n then ⊥ else
    (((g.succ n).filter fun s => ¬ g.isVariable s ∧ suf s ≠ ⊥).foldl
      (fun best s => max best (g.floor n + (suf s).unbotD 0)) (g.floor n) : Nat)

theorem suffixes_eq (hv : v ∈ order) :
    g.suffixes order.reverse v = suffixOf g v (g.suffixes order.reverse) := by
  refine (fill_eq (f := suffixOf g) ?_ ho.topological _).1 v hv
  intro n suf suf' hsame
  unfold suffixOf
  have hfilter : (g.succ n).filter (fun s => ¬ g.isVariable s ∧ suf s ≠ ⊥)
      = (g.succ n).filter fun s => ¬ g.isVariable s ∧ suf' s ≠ ⊥ :=
    List.filter_congr fun s hs => by rw [hsame s hs]
  rw [hfilter]
  congr 2
  refine List.foldl_ext _ _ _ fun best s hs => ?_
  rw [hsame s (List.mem_filter.mp hs).1]

/-- The suffix of a node is at least the size of every fixed-only chain from it. -/
theorem le_suffixes (hv : v ∈ order) {q : List Nat}
    (hchain : (v :: q).IsChain fun u w => w ∈ g.succ u) (hfixed : Fixed g (v :: q)) :
    (g.fixedBytes (v :: q) : WithBot Nat) ≤ g.suffixes order.reverse v := by
  have hvfixed : g.isVariable v = false := hfixed v List.mem_cons_self
  induction q generalizing v with
  | nil =>
    rw [suffixes_eq ho hv, suffixOf, if_neg (by simp [hvfixed])]
    have hbase := (foldl_max_le_iff.mp (le_refl (((g.succ v).filter fun s => ¬ g.isVariable s ∧
      g.suffixes order.reverse s ≠ ⊥).foldl (fun best s => max best (g.floor v +
        (g.suffixes order.reverse s).unbotD 0)) (g.floor v)))).1
    exact WithBot.coe_le_coe.mpr (by simpa [fixedBytes] using hbase)
  | cons w q ih =>
    obtain ⟨hedge, hrest⟩ := List.isChain_cons_cons.mp hchain
    have hwfixed : g.isVariable w = false := hfixed w (by simp)
    have hbelow := ih (ho.topological.succ_mem hv hedge) hrest
      (fun n hn => hfixed n (List.mem_cons_of_mem _ hn)) hwfixed
    rw [suffixes_eq ho hv, suffixOf, if_neg (by simp [hvfixed])]
    cases hsuf : g.suffixes order.reverse w with
    | bot => rw [hsuf] at hbelow; exact absurd hbelow (by simp)
    | coe bytes =>
      rw [hsuf] at hbelow
      have hle : g.fixedBytes (w :: q) ≤ bytes := WithBot.coe_le_coe.mp hbelow
      have hmem : w ∈ (g.succ v).filter fun s => ¬ g.isVariable s ∧
          g.suffixes order.reverse s ≠ ⊥ :=
        List.mem_filter.mpr ⟨hedge, by simp [hwfixed, hsuf]⟩
      have hbest := le_foldl_max (h := fun s => g.floor v + (g.suffixes order.reverse s).unbotD 0)
        (a := g.floor v) hmem
      rw [hsuf] at hbest
      refine WithBot.coe_le_coe.mpr (le_trans ?_ hbest)
      show g.floor v + g.fixedBytes (w :: q) ≤ g.floor v + bytes
      omega

/-- The suffix of a fixed node is the size of such a chain. -/
theorem suffixes_attained (hv : v ∈ order) (hvfixed : g.isVariable v = false) :
    ∃ q, (v :: q).IsChain (fun u w => w ∈ g.succ u) ∧ Fixed g (v :: q) ∧
      g.suffixes order.reverse v = (g.fixedBytes (v :: q) : WithBot Nat) := by
  refine ho.topological.induction (P := fun v => g.isVariable v = false → ∃ q,
    (v :: q).IsChain (fun u w => w ∈ g.succ u) ∧ Fixed g (v :: q) ∧
      g.suffixes order.reverse v = (g.fixedBytes (v :: q) : WithBot Nat)) ?_ v hv hvfixed
  intro u hu ih hufixed
  have hsuf := suffixes_eq ho hu
  rw [suffixOf, if_neg (by simp [hufixed])] at hsuf
  rcases foldl_max_eq (fun s => g.floor u + (g.suffixes order.reverse s).unbotD 0) (g.floor u)
    ((g.succ u).filter fun s => ¬ g.isVariable s ∧ g.suffixes order.reverse s ≠ ⊥) with
    heq | ⟨s, hs, heq⟩
  · refine ⟨[], List.isChain_singleton u, fun n hn => ?_, ?_⟩
    · rw [List.mem_singleton.mp hn]
      exact hufixed
    · rw [hsuf, heq]
      simp [fixedBytes]
  · obtain ⟨hedge, hkept⟩ := List.mem_filter.mp hs
    have hsfixed : g.isVariable s = false := by simpa using (of_decide_eq_true hkept).1
    obtain ⟨q, hchain, hfixed, hbytes⟩ := ih s hedge hsfixed
    refine ⟨s :: q, List.isChain_cons_cons.mpr ⟨hedge, hchain⟩, fun n hn => ?_, ?_⟩
    · rcases List.mem_cons.mp hn with rfl | hn
      · exact hufixed
      · exact hfixed n hn
    · rw [hsuf, heq, hbytes]
      rfl

theorem suffixes_variable (hv : v ∈ order) (hvar : g.isVariable v = true) :
    g.suffixes order.reverse v = ⊥ := by
  rw [suffixes_eq ho hv, suffixOf, if_pos hvar]

/-! ### Around a variable frame -/

theorem le_after (hv : v ∈ order) {q : List Nat}
    (hchain : (v :: q).IsChain fun u w => w ∈ g.succ u) (hfixed : Fixed g q) :
    g.fixedBytes q ≤ g.after (g.suffixes order.reverse) v := by
  cases q with
  | nil => exact Nat.zero_le _
  | cons s q =>
    obtain ⟨hedge, hrest⟩ := List.isChain_cons_cons.mp hchain
    have hle := le_suffixes ho (ho.topological.succ_mem hv hedge) hrest hfixed
    have hbest := le_foldl_max (h := fun s => (g.suffixes order.reverse s).unbotD 0) (a := 0) hedge
    refine le_trans ?_ hbest
    cases hsuf : g.suffixes order.reverse s with
    | bot => rw [hsuf] at hle; exact absurd hle (by simp)
    | coe bytes => rw [hsuf] at hle; exact WithBot.coe_le_coe.mp hle

theorem after_attained (hv : v ∈ order) :
    ∃ q, (v :: q).IsChain (fun u w => w ∈ g.succ u) ∧ Fixed g q ∧
      g.after (g.suffixes order.reverse) v = g.fixedBytes q := by
  have hnone : g.after (g.suffixes order.reverse) v = 0 →
      ∃ q, (v :: q).IsChain (fun u w => w ∈ g.succ u) ∧ Fixed g q ∧
        g.after (g.suffixes order.reverse) v = g.fixedBytes q :=
    fun heq => ⟨[], List.isChain_singleton v, fun n hn => (nomatch hn), heq⟩
  rcases foldl_max_eq (fun s => (g.suffixes order.reverse s).unbotD 0) 0 (g.succ v) with
    heq | ⟨s, hedge, heq⟩
  · exact hnone heq
  · have hs := ho.topological.succ_mem hv hedge
    cases hsvar : g.isVariable s with
    | true =>
      rw [suffixes_variable ho hs hsvar] at heq
      exact hnone heq
    | false =>
      obtain ⟨q, hchain, hfixed, hbytes⟩ := suffixes_attained ho hs hsvar
      rw [hbytes] at heq
      exact ⟨s :: q, List.isChain_cons_cons.mpr ⟨hedge, hchain⟩, hfixed, heq⟩

theorem le_before (h : g.prefixes order = .ok pre) (hw : WalkTo g.succ g.entries p v)
    (hfixed : Fixed g p) : g.fixedBytes p ≤ g.before pre v := by
  cases hw with
  | start _ => exact Nat.zero_le _
  | @step p u _ hw hs =>
    have hle := (prefixes_ok ho h hw hfixed).1
    cases hpre : pre u with
    | bot => rw [hpre] at hle; exact absurd hle (by simp)
    | coe bytes =>
      rw [hpre] at hle
      have hmem : u ∈ (List.range g.nodes.length).filter fun c => pre c ≠ ⊥ ∧ v ∈ g.succ c :=
        List.mem_filter.mpr ⟨List.mem_range.mpr (ho.lt (ho.mem hw)), by simp [hpre, hs]⟩
      have hbest := le_foldl_max (h := fun c => (pre c).unbotD 0) (a := 0) hmem
      rw [hpre] at hbest
      exact (WithBot.coe_le_coe.mp hle).trans hbest

theorem before_attained (h : g.prefixes order = .ok pre) (hv : v ∈ order)
    (hnested : ∀ p, WalkTo g.succ g.entries p v → Fixed g p) :
    ∃ p, WalkTo g.succ g.entries p v ∧ g.before pre v = g.fixedBytes p := by
  rcases foldl_max_eq (fun c => (pre c).unbotD 0) 0
    ((List.range g.nodes.length).filter fun c => pre c ≠ ⊥ ∧ v ∈ g.succ c) with
    heq | ⟨c, hc, heq⟩
  · obtain ⟨p, hw⟩ := ho.walked v hv
    have hzero : g.before pre v = 0 := heq
    have hle := le_before ho h hw (hnested p hw)
    exact ⟨p, hw, by omega⟩
  · have hkept := of_decide_eq_true (List.mem_filter.mp hc).2
    rcases prefixes_justified h c with hbot | ⟨p, hw, _, hbytes⟩
    · exact absurd hbot hkept.1
    · rw [hbytes] at heq
      exact ⟨p ++ [c], hw.step hkept.2, heq⟩

end

end Graph

end BpfCapsule.StackBudget

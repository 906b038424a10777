import BpfCapsule.Flatten.Spans
import BpfCapsule.Lib.Fixpoint

/-!
# BpfCapsule — layouts for the old verifier

`repairV3VerifierCycles` edits a final layout for two corner cases of an old control flow check. A
conditional branch to the block that follows is dropped where that block is the only successor, and a
fallthrough inside a cycle gets a jump to where it falls through to. Cycles are those of the successor
lists, as strongly connected components from the entry on.
-/

namespace BpfCapsule.Flatten

open Relation MachineFunction

variable {σ : Type}

/-! ## The pass -/

def eraseLastReal (instrs : List (Inst σ)) : List (Inst σ) :=
  (instrs.reverse.eraseP fun i => !i.isDebugInstr).reverse

/-- A conditional branch to the only successor, which follows anyway, is dropped. -/
def dropOwnBranch (next : Option Id) (blk : Block σ) : Block σ :=
  match next with
  | none => blk
  | some next =>
    if blk.succs.length ≠ 1 || !blk.succs.contains next then blk
    else
      match lastReal blk.instrs with
      | some (.cond _ target) =>
        if target = next then { blk with instrs := eraseLastReal blk.instrs } else blk
      | _ => blk

namespace MachineFunction

variable (f : MachineFunction σ)

def mapBlocks (g : Option Id → Block σ → Block σ) : MachineFunction σ :=
  List.map (fun blk : Block σ => g (f.layoutNext blk.id) blk) f

def successors (b : Id) : List Id := ((f.block? b).map Block.succs).getD []

/-- The blocks that the successor lists lead to from `b`. -/
def reachable (b : Id) : Finset Id :=
  Fixpoint.closure (fun s x => decide (∃ y ∈ s, x ∈ f.successors y)) (f.flatMap Block.succs) {b}

/-- The strongly connected component of `b`, empty if the walk from the entry does not come there. -/
def component (b : Id) : Finset Id :=
  match f.ids.head? with
  | some entry =>
    if b ∈ f.reachable entry then (f.reachable b).filter fun t => b ∈ f.reachable t else ∅
  | none => ∅

/-- `target` is in the component of the block, and the component is cyclic. -/
def sameCycle (blk : Block σ) (target : Id) : Bool :=
  let component := f.component blk.id
  let hasCycle := 1 < component.card || blk.succs.contains blk.id
  decide (target ∈ component) && hasCycle

end MachineFunction

/-- A fallthrough inside a cyclic component becomes a jump. -/
def closeCycle (f : MachineFunction σ) (next : Option Id) (blk : Block σ) : Block σ :=
  match next with
  | none => blk
  | some target =>
    if !blk.succs.contains target then blk
    else if !f.sameCycle blk target then blk
    else if (lastReal blk.instrs).any Inst.isBranch then blk
    else { blk with instrs := blk.instrs ++ [.jmp target] }

def repairV3VerifierCycles (config : Config) (f : MachineFunction σ) : MachineFunction σ :=
  if config.v4 then f
  else
    let g := f.mapBlocks dropOwnBranch
    g.mapBlocks (closeCycle g)

/-! ## Editing every block -/

namespace MachineFunction

variable {f : MachineFunction σ} {g : Option Id → Block σ → Block σ}

theorem ids_mapBlocks (hg : ∀ next blk, (g next blk).id = blk.id) : (f.mapBlocks g).ids = f.ids := by
  unfold ids mapBlocks
  rw [List.map_map]
  exact List.map_congr_left fun blk _ => hg _ blk

theorem layoutNext_mapBlocks (hg : ∀ next blk, (g next blk).id = blk.id) (b : Id) :
    (f.mapBlocks g).layoutNext b = f.layoutNext b := by
  unfold layoutNext
  rw [ids_mapBlocks hg]

theorem block?_mapBlocks (hg : ∀ next blk, (g next blk).id = blk.id) (b : Id) :
    (f.mapBlocks g).block? b = (f.block? b).map (g (f.layoutNext b)) := by
  have hmap : ∀ f' : MachineFunction σ,
      List.find? (fun blk => decide (blk.id = b)) (List.map (fun blk => g (f.layoutNext blk.id) blk) f') =
        (List.find? (fun blk => decide (blk.id = b)) f').map (g (f.layoutNext b)) := by
    intro f'
    induction f' with
    | nil => rfl
    | cons blk f' ih =>
      rw [List.map_cons, List.find?_cons, List.find?_cons, hg]
      by_cases hb : blk.id = b
      · simp [hb]
      · simpa [hb] using ih
  exact hmap f

end MachineFunction

/-! ## Blocks that do the same -/

/-- Two blocks before `next` do the same. -/
structure SameBlock (next : Option Id) (is is' : List (Inst σ)) : Prop where
  run : ∀ s, run next is' s = run next is s
  edges : ∀ t, t ∈ edges next is' ↔ t ∈ edges next is

namespace SameBlock

variable {next : Option Id} {is is' : List (Inst σ)}

theorem refl : SameBlock next is is where
  run _ := rfl
  edges _ := Iff.rfl

/-- Blocks that differ at their end only. -/
theorem append_left (h : SameBlock next is is') (pre : List (Inst σ)) :
    SameBlock next (pre ++ is) (pre ++ is') := by
  induction pre with
  | nil => exact h
  | cons i pre ih =>
    cases i with
    | plain d exec => exact ⟨fun s => ih.run (exec s), ih.edges⟩
    | debug => exact ⟨ih.run, ih.edges⟩
    | cond c t =>
      refine ⟨fun s => ?_, fun u => ?_⟩
      · simp only [List.cons_append, Flatten.run, ih.run s]
      · simp only [List.cons_append, Flatten.edges, List.mem_cons, ih.edges]
    | _ => exact ⟨fun _ => rfl, fun _ => Iff.rfl⟩

variable {post : List (Inst σ)}

theorem run_debug (hpost : ∀ i ∈ post, i = .debug) (n : Id) (s : σ) :
    Flatten.run (some n) post s = .goto n s := by
  induction post with
  | nil => rfl
  | cons i post ih =>
    rw [hpost i List.mem_cons_self]
    exact ih fun j hj => hpost j (List.mem_cons_of_mem i hj)

theorem edges_debug (hpost : ∀ i ∈ post, i = .debug) (next : Option Id) :
    Flatten.edges next post = next.toList := by
  induction post with
  | nil => rfl
  | cons i post ih =>
    rw [hpost i List.mem_cons_self]
    exact ih fun j hj => hpost j (List.mem_cons_of_mem i hj)

theorem drop {pre : List (Inst σ)} (hpost : ∀ i ∈ post, i = .debug) (c : σ → Bool) (n : Id) :
    SameBlock (some n) (pre ++ .cond c n :: post) (pre ++ post) := by
  refine append_left ⟨fun s => ?_, fun t => ?_⟩ pre
  · show _ = if c s then Exit.goto n s else Flatten.run (some n) post s
    rw [run_debug hpost, ite_self]
  · show _ ↔ t ∈ n :: Flatten.edges (some n) post
    rw [edges_debug hpost]
    simp

theorem append_jmp (is : List (Inst σ)) (n : Id) : SameBlock (some n) is (is ++ [.jmp n]) := by
  have hend : SameBlock (some n) [] [(.jmp n : Inst σ)] :=
    ⟨fun _ => rfl, fun t => by simp [Flatten.edges]⟩
  simpa using hend.append_left is

end SameBlock

/-! ## The last instruction -/

theorem lastReal_eq_some {is : List (Inst σ)} {i : Inst σ} (h : lastReal is = some i) :
    ∃ pre post, is = pre ++ i :: post ∧ (∀ j ∈ post, j = .debug) ∧ eraseLastReal is = pre ++ post := by
  obtain ⟨hi, as, bs, hsplit, has⟩ := List.find?_eq_some_iff_append.mp h
  have hdebug : ∀ j ∈ as, j = (.debug : Inst σ) := by
    intro j hj
    have := has j hj
    cases j <;> simp_all [Inst.isDebugInstr]
  refine ⟨bs.reverse, as.reverse, ?_, fun j hj => hdebug j (List.mem_reverse.mp hj), ?_⟩
  · rw [← List.reverse_reverse is, hsplit]
    simp
  · unfold eraseLastReal
    rw [hsplit, List.eraseP_append_right _ (fun j hj => by simp [hdebug j hj, Inst.isDebugInstr]),
      List.eraseP_cons_of_pos (by simpa using hi)]
    simp

theorem lastReal_append_debug {pre post : List (Inst σ)} {i : Inst σ} (hi : i.isDebugInstr = false)
    (hpost : ∀ j ∈ post, j = .debug) : lastReal (pre ++ i :: post) = some i := by
  unfold lastReal
  rw [List.find?_eq_some_iff_append]
  refine ⟨by simp [hi], post.reverse, pre.reverse, by simp, fun j hj => ?_⟩
  simp [hpost j (List.mem_reverse.mp hj), Inst.isDebugInstr]

theorem lastReal_append_jmp (is : List (Inst σ)) (t : Id) :
    lastReal (is ++ [.jmp t]) = some (.jmp t) :=
  lastReal_append_debug rfl (by simp)

/-! ## What the edits do -/

/-- A dropped branch goes to the block that follows, and stands last. -/
theorem dropOwnBranch_cases (next : Option Id) (blk : Block σ) :
    dropOwnBranch next blk = blk ∨ ∃ n c pre post, next = some n ∧
      blk.instrs = pre ++ .cond c n :: post ∧ (∀ i ∈ post, i = .debug) ∧
        dropOwnBranch next blk = { blk with instrs := pre ++ post } := by
  unfold dropOwnBranch
  split
  · exact .inl rfl
  next n =>
    split
    · exact .inl rfl
    · split
      next c target hlast =>
        split
        next heq =>
          obtain ⟨pre, post, hsplit, hpost, herase⟩ := lastReal_eq_some hlast
          exact .inr ⟨n, c, pre, post, rfl, heq ▸ hsplit, hpost, by rw [herase]⟩
        next => exact .inl rfl
      next => exact .inl rfl

/-- Where only one block succeeds, a conditional branch to it that stands last is dropped. -/
theorem dropOwnBranch_of_last {n : Id} {blk : Block σ} {c : σ → Bool} (hsuccs : blk.succs = [n])
    (hlast : lastReal blk.instrs = some (.cond c n)) :
    (dropOwnBranch (some n) blk).instrs = eraseLastReal blk.instrs := by
  simp [dropOwnBranch, hsuccs, hlast]

theorem closeCycle_cases (f : MachineFunction σ) (next : Option Id) (blk : Block σ) :
    closeCycle f next blk = blk ∨ ∃ n, next = some n ∧
      closeCycle f next blk = { blk with instrs := blk.instrs ++ [.jmp n] } := by
  unfold closeCycle
  split
  · exact .inl rfl
  next n =>
    repeat' split
    all_goals first | exact .inl rfl | exact .inr ⟨n, rfl, rfl⟩

theorem closeCycle_of_mem {f : MachineFunction σ} {n : Id} {blk : Block σ} (hsucc : n ∈ blk.succs)
    (hcycle : f.sameCycle blk n = true) :
    (lastReal (closeCycle f (some n) blk).instrs).any Inst.isBranch = true := by
  by_cases hlast : (lastReal blk.instrs).any Inst.isBranch
  · simp [closeCycle, hsucc, hcycle, hlast]
  · have happend : (closeCycle f (some n) blk).instrs = blk.instrs ++ [.jmp n] := by
      simp [closeCycle, hsucc, hcycle, hlast]
    rw [happend, lastReal_append_jmp]
    rfl

/-! ## Components -/

namespace MachineFunction

variable {f : MachineFunction σ}

theorem mem_successors_iff {b t : Id} : t ∈ f.successors b ↔ f.Succ b t := by
  unfold successors Succ
  cases f.block? b with
  | none => simp
  | some blk => simp

/-- The walk finds every block that the successor lists lead to. -/
theorem mem_reachable {b t : Id} (h : ReflTransGen f.Succ b t) : t ∈ f.reachable b := by
  induction h with
  | refl => exact Fixpoint.subset_closure (Finset.mem_singleton_self b)
  | @tail x t _ hxt ih =>
    have ht : t ∈ f.flatMap Block.succs := by
      obtain ⟨blk, hblk, hmem⟩ := hxt
      exact List.mem_flatMap.mpr ⟨blk, List.mem_of_find?_eq_some hblk, hmem⟩
    apply Fixpoint.closure_closed ht
    rw [decide_eq_true_eq]
    exact ⟨x, ih, mem_successors_iff.mpr hxt⟩

theorem mem_component {entry b t : Id}
    (hentry : f.ids.head? = some entry) (hb : ReflTransGen f.Succ entry b)
    (hbt : ReflTransGen f.Succ b t) (htb : ReflTransGen f.Succ t b) : t ∈ f.component b := by
  unfold component
  rw [hentry]
  simp only
  rw [if_pos (mem_reachable hb), Finset.mem_filter]
  exact ⟨mem_reachable hbt, mem_reachable htb⟩

theorem sameCycle_of_reachable {entry : Id} {blk : Block σ} {t : Id}
    (hentry : f.ids.head? = some entry) (hb : ReflTransGen f.Succ entry blk.id)
    (hbt : ReflTransGen f.Succ blk.id t) (htb : ReflTransGen f.Succ t blk.id) (hne : blk.id ≠ t) :
    f.sameCycle blk t = true := by
  have ht : t ∈ f.component blk.id := mem_component hentry hb hbt htb
  have hself : blk.id ∈ f.component blk.id := mem_component hentry hb .refl .refl
  have hcard : 1 < (f.component blk.id).card := Finset.one_lt_card.mpr ⟨_, hself, t, ht, hne⟩
  simp [sameCycle, ht, hcard]

end MachineFunction

/-! ## The repaired function -/

/-- `g` has the blocks of `f`, and they do and go where they did. -/
structure SameFlow (f g : MachineFunction σ) : Prop where
  ids : g.ids = f.ids
  exit : ∀ b s, g.exit b s = f.exit b s
  edge : ∀ b t, g.Edge b t ↔ f.Edge b t
  succ : ∀ b t, g.Succ b t ↔ f.Succ b t

/-- What the old verifier asks of a layout. -/
structure Repaired (f : MachineFunction σ) : Prop where
  /-- A fallthrough between two blocks of a cycle leaves from a branch. -/
  cycle : ∀ b blk t, f.block? b = some blk → Open blk.instrs = true → f.layoutNext b = some t →
    ReflTransGen f.Edge t b → (lastReal blk.instrs).any Inst.isBranch = true
  /-- No conditional branch goes to where its block falls through to. -/
  own : ∀ b blk c t, f.block? b = some blk → Open blk.instrs = true → .cond c t ∈ blk.instrs →
    f.layoutNext b ≠ some t

structure Repairable (f : MachineFunction σ) : Prop extends Ready f where
  /-- A block that falls through ends in its conditional branch, if it has one. -/
  last : ∀ b blk c t, f.block? b = some blk → Open blk.instrs = true → .cond c t ∈ blk.instrs →
    ∃ pre post, blk.instrs = pre ++ .cond c t :: post ∧
      (∀ i ∈ pre, i.isConditionalBranch = false) ∧ ∀ i ∈ post, i = .debug
  /-- The walk along the successor lists comes to it, -/
  reached : ∀ b blk, f.block? b = some blk → Open blk.instrs = true →
    ∃ entry, f.ids.head? = some entry ∧ ReflTransGen f.Succ entry b
  /-- and comes back where control does. -/
  back : ∀ b blk t, f.block? b = some blk → Open blk.instrs = true → f.layoutNext b = some t →
    ReflTransGen f.Edge t b → ReflTransGen f.Succ t b

/-! ## One edit of every block -/

/-- What both edits of the repair do with a block. -/
structure Edit (g : Option Id → Block σ → Block σ) : Prop where
  id : ∀ next blk, (g next blk).id = blk.id
  succs : ∀ next blk, (g next blk).succs = blk.succs
  same : ∀ next blk, SameBlock next blk.instrs (g next blk).instrs
  opens : ∀ next blk, Open (g next blk).instrs = true → Open blk.instrs = true
  instrs : ∀ next blk, ∀ i ∈ (g next blk).instrs, i ∈ blk.instrs ∨ ∃ n, next = some n ∧ i = .jmp n

namespace Edit

variable {f : MachineFunction σ} {g : Option Id → Block σ → Block σ}

theorem block? (hg : Edit g) {b : Id} {blk' : Block σ} (h : (f.mapBlocks g).block? b = some blk') :
    ∃ blk, f.block? b = some blk ∧ blk' = g (f.layoutNext b) blk := by
  rw [block?_mapBlocks hg.id] at h
  obtain ⟨blk, hblk, heq⟩ := Option.map_eq_some_iff.mp h
  exact ⟨blk, hblk, heq.symm⟩

theorem sameFlow (hg : Edit g) : SameFlow f (f.mapBlocks g) where
  ids := ids_mapBlocks hg.id
  exit b s := by
    unfold exit
    rw [block?_mapBlocks hg.id, layoutNext_mapBlocks hg.id]
    cases f.block? b with
    | none => rfl
    | some blk => exact (hg.same _ blk).run s
  edge b t := by
    unfold Edge
    rw [block?_mapBlocks hg.id, layoutNext_mapBlocks hg.id]
    cases f.block? b with
    | none => simp
    | some blk => simpa using (hg.same _ blk).edges t
  succ b t := by
    unfold Succ
    rw [block?_mapBlocks hg.id]
    cases f.block? b with
    | none => simp
    | some blk => simp [hg.succs]

/-- Without a branch of a block to where it falls through, the rest of what relaxation needs stays. -/
theorem ready (hg : Edit g) (hf : Ready f) (hown : (f.mapBlocks g).Own) : Ready (f.mapBlocks g) where
  nodup := by
    rw [hg.sameFlow.ids]
    exact hf.nodup
  nonempty h := hf.nonempty (List.map_eq_nil_iff.mp h)
  edges b t ht := by
    rw [hg.sameFlow.ids]
    exact hf.edges b t ((hg.sameFlow.edge b t).mp ht)
  targets b blk' i t hblk' hi ht := by
    obtain ⟨blk, hblk, rfl⟩ := hg.block? hblk'
    rw [hg.sameFlow.ids]
    rcases hg.instrs _ blk i hi with hi | ⟨n, hn, rfl⟩
    · exact hf.targets b blk i t hblk hi ht
    · cases ht
      exact (Sequence.mem_of_next hn).2
  falls b blk' hblk' hopen := by
    obtain ⟨blk, hblk, rfl⟩ := hg.block? hblk'
    obtain ⟨n, hn, hnext⟩ := hf.falls b blk hblk (hg.opens _ blk hopen)
    refine ⟨n, ?_, ?_⟩
    · rwa [hg.succs]
    · rwa [layoutNext_mapBlocks hg.id]
  own := hown

end Edit

theorem open_append_debug {pre post : List (Inst σ)} {c : σ → Bool} {n : Id} :
    Open (pre ++ .cond c n :: post) = Open (pre ++ post) := by
  induction pre with
  | nil => rfl
  | cons i pre ih => cases i <;> first | exact ih | rfl

theorem edit_dropOwnBranch : Edit (dropOwnBranch : Option Id → Block σ → Block σ) where
  id next blk := by rcases dropOwnBranch_cases next blk with h | ⟨n, c, pre, post, -, -, -, h⟩ <;> rw [h]
  succs next blk := by
    rcases dropOwnBranch_cases next blk with h | ⟨n, c, pre, post, -, -, -, h⟩ <;> rw [h]
  same next blk := by
    rcases dropOwnBranch_cases next blk with heq | ⟨n, c, pre, post, rfl, hsplit, hpost, heq⟩
    · rw [heq]
      exact .refl
    · rw [heq, hsplit]
      exact .drop hpost c n
  opens next blk hopen := by
    rcases dropOwnBranch_cases next blk with heq | ⟨n, c, pre, post, rfl, hsplit, hpost, heq⟩
    · rwa [heq] at hopen
    · rw [heq] at hopen
      rw [hsplit, open_append_debug]
      exact hopen
  instrs next blk i hi := by
    rcases dropOwnBranch_cases next blk with heq | ⟨n, c, pre, post, rfl, hsplit, hpost, heq⟩
    · exact .inl (heq ▸ hi)
    · rw [heq] at hi
      rw [hsplit]
      simp only [List.mem_append, List.mem_cons] at hi ⊢
      exact .inl (hi.imp_right .inr)

theorem edit_closeCycle (f : MachineFunction σ) : Edit (closeCycle f) where
  id next blk := by rcases closeCycle_cases f next blk with h | ⟨n, -, h⟩ <;> rw [h]
  succs next blk := by rcases closeCycle_cases f next blk with h | ⟨n, -, h⟩ <;> rw [h]
  same next blk := by
    rcases closeCycle_cases f next blk with heq | ⟨n, rfl, heq⟩
    · rw [heq]
      exact .refl
    · rw [heq]
      exact .append_jmp _ n
  opens next blk hopen := by
    rcases closeCycle_cases f next blk with heq | ⟨n, -, heq⟩
    · rwa [heq] at hopen
    · rw [heq, open_append_jmp] at hopen
      cases hopen
  instrs next blk i hi := by
    rcases closeCycle_cases f next blk with heq | ⟨n, rfl, heq⟩
    · exact .inl (heq ▸ hi)
    · rw [heq, List.mem_append, List.mem_singleton] at hi
      exact hi.imp_right fun hi => ⟨n, rfl, hi⟩

/-! ## Both edits -/

section

variable {f : MachineFunction σ}

theorem SameFlow.trans {g h : MachineFunction σ} (hfg : SameFlow f g) (hgh : SameFlow g h) :
    SameFlow f h where
  ids := hgh.ids.trans hfg.ids
  exit b s := (hgh.exit b s).trans (hfg.exit b s)
  edge b t := (hgh.edge b t).trans (hfg.edge b t)
  succ b t := (hgh.succ b t).trans (hfg.succ b t)

theorem SameFlow.succ_path {g : MachineFunction σ} (hfg : SameFlow f g) {b t : Id}
    (h : ReflTransGen f.Succ b t) : ReflTransGen g.Succ b t :=
  ReflTransGen.mono (fun x y => (hfg.succ x y).mpr) _ _ h

theorem own_of_repaired
    (h : ∀ b blk c t, f.block? b = some blk → Open blk.instrs = true → .cond c t ∈ blk.instrs →
      f.layoutNext b ≠ some t) : f.Own := by
  intro b blk c t hblk hopen hlast ht
  obtain ⟨pre, post, hsplit, _, _⟩ := lastReal_eq_some hlast
  exact absurd ht (h b blk c t hblk hopen (by simp [hsplit]))

/-- After the first edit no block that falls through branches to where it does. -/
theorem own_dropOwnBranch (hf : Repairable f) {b : Id} {blk' : Block σ} {c : σ → Bool} {t : Id}
    (hblk' : (f.mapBlocks dropOwnBranch).block? b = some blk') (hopen : Open blk'.instrs = true)
    (hcond : .cond c t ∈ blk'.instrs) : f.layoutNext b ≠ some t := by
  intro ht
  obtain ⟨blk, hblk, rfl⟩ := edit_dropOwnBranch.block? hblk'
  have hopen' : Open blk.instrs = true := edit_dropOwnBranch.opens _ blk hopen
  have hmem : .cond c t ∈ blk.instrs := by
    rcases edit_dropOwnBranch.instrs _ blk _ hcond with h | ⟨n, _, h⟩
    · exact h
    · cases h
  obtain ⟨pre, post, hsplit, hpre, hpost⟩ := hf.last b blk c t hblk hopen' hmem
  have hlast : lastReal blk.instrs = some (.cond c t) := by
    rw [hsplit]
    exact lastReal_append_debug rfl hpost
  -- It is the last instruction, so it was erased, and there was only one.
  rw [ht, dropOwnBranch_of_last (hf.own b blk c t hblk hopen' hlast ht) hlast] at hcond
  obtain ⟨pre', post', hsplit', _, herase⟩ := lastReal_eq_some hlast
  have hcount : blk.instrs.countP Inst.isConditionalBranch = 1 := by
    have hpost' : ∀ i ∈ post, i.isConditionalBranch = false := fun i hi => by rw [hpost i hi]; rfl
    rw [hsplit, List.countP_append, List.countP_cons, List.countP_eq_zero.mpr fun i hi => by simp [hpre i hi],
      List.countP_eq_zero.mpr fun i hi => by simp [hpost' i hi]]
    rfl
  have hcount' : 0 < (pre' ++ post').countP Inst.isConditionalBranch := by
    rw [← herase]
    exact List.countP_pos_iff.mpr ⟨_, hcond, rfl⟩
  rw [hsplit', List.countP_append, List.countP_cons] at hcount
  rw [List.countP_append] at hcount'
  have hone : (if (Inst.cond c t).isConditionalBranch = true then 1 else 0) = 1 := rfl
  omega

def repairBlocks (f : MachineFunction σ) : MachineFunction σ :=
  (f.mapBlocks dropOwnBranch).mapBlocks (closeCycle (f.mapBlocks dropOwnBranch))

theorem sameFlow_repairBlocks (f : MachineFunction σ) : SameFlow f (repairBlocks f) :=
  edit_dropOwnBranch.sameFlow.trans (edit_closeCycle _).sameFlow

/-- A block that falls through after both edits was not changed by the second. -/
theorem open_repairBlocks {b : Id} {blk' : Block σ} (hblk' : (repairBlocks f).block? b = some blk')
    (hopen : Open blk'.instrs = true) : ∃ blk, (f.mapBlocks dropOwnBranch).block? b = some blk ∧
      blk' = closeCycle (f.mapBlocks dropOwnBranch) (f.layoutNext b) blk ∧ blk'.instrs = blk.instrs := by
  obtain ⟨blk, hblk, rfl⟩ := (edit_closeCycle _).block? hblk'
  rw [layoutNext_mapBlocks edit_dropOwnBranch.id] at hopen ⊢
  refine ⟨blk, hblk, rfl, ?_⟩
  rcases closeCycle_cases (f.mapBlocks dropOwnBranch) (f.layoutNext b) blk with heq | ⟨n, -, heq⟩
  · rw [heq]
  · rw [heq, open_append_jmp] at hopen
    cases hopen

theorem layoutNext_repairBlocks (b : Id) : (repairBlocks f).layoutNext b = f.layoutNext b := by
  unfold repairBlocks
  rw [layoutNext_mapBlocks (edit_closeCycle _).id,
    layoutNext_mapBlocks edit_dropOwnBranch.id]

theorem repaired_repairBlocks (hf : Repairable f) : Repaired (repairBlocks f) where
  own b blk' c t hblk' hopen hcond := by
    obtain ⟨blk, hblk, _, hinstrs⟩ := open_repairBlocks hblk' hopen
    rw [layoutNext_repairBlocks]
    rw [hinstrs] at hopen hcond
    exact own_dropOwnBranch hf hblk hopen hcond
  cycle b blk' t hblk' hopen ht hpath := by
    obtain ⟨blk₁, hblk₁, heq, hinstrs⟩ := open_repairBlocks hblk' hopen
    rw [layoutNext_repairBlocks] at ht
    have hopen₁ : Open blk₁.instrs = true := hinstrs ▸ hopen
    obtain ⟨blk, hblk, hblk₁eq⟩ := edit_dropOwnBranch.block? hblk₁
    have hopen₀ : Open blk.instrs = true := edit_dropOwnBranch.opens _ blk (hblk₁eq ▸ hopen₁)
    have hid : blk₁.id = b := id_of_block? hblk₁
    have hsuccs : blk₁.succs = blk.succs := by rw [hblk₁eq, edit_dropOwnBranch.succs]
    obtain ⟨entry, hentry, hreached⟩ := hf.reached b blk hblk hopen₀
    obtain ⟨n, hn, hnext⟩ := hf.falls b blk hblk hopen₀
    rw [ht] at hnext
    cases hnext
    -- The successor lists are those before, and lead around the cycle.
    have hflow : SameFlow f (f.mapBlocks dropOwnBranch) := edit_dropOwnBranch.sameFlow
    have hback : ReflTransGen f.Succ t b :=
      hf.back b blk t hblk hopen₀ ht
        (ReflTransGen.mono (fun x y => ((sameFlow_repairBlocks f).edge x y).mp) _ _ hpath)
    have hcycle : (f.mapBlocks dropOwnBranch).sameCycle blk₁ t = true := by
      refine sameCycle_of_reachable (hflow.ids ▸ hentry) ?_ ?_ ?_ ?_
      · exact hid ▸ hflow.succ_path hreached
      · exact hid ▸ .single ((hflow.succ b t).mpr ⟨blk, hblk, hn⟩)
      · exact hid ▸ hflow.succ_path hback
      · exact hid ▸ Sequence.ne_of_next hf.nodup ht
    rw [heq, ht]
    exact closeCycle_of_mem (hsuccs ▸ hn) hcycle

theorem ready_repairBlocks (hf : Repairable f) : Ready (repairBlocks f) := by
  refine (edit_closeCycle _).ready ?_ (own_of_repaired (repaired_repairBlocks hf).own)
  refine edit_dropOwnBranch.ready hf.toReady (own_of_repaired fun b blk c t hblk hopen hcond => ?_)
  rw [layoutNext_mapBlocks edit_dropOwnBranch.id]
  exact own_dropOwnBranch hf hblk hopen hcond

end

/-- Relays keep a repaired layout repaired: what falls through did so before, in no new cycle. -/
theorem Relayed.repaired {f g : MachineFunction σ} (h : Relayed f g) (hf : Repaired f) :
    Repaired g where
  cycle b blk t hblk hopen ht hpath := by
    obtain ⟨hfblk, hnext⟩ := h.falls b blk hblk hopen
    rw [hnext] at ht
    have hmem := Sequence.mem_of_next ht
    exact hf.cycle b blk t hfblk hopen ht (h.path hpath hmem.1 t (.here hmem.2))
  own b blk c t hblk hopen hcond := by
    obtain ⟨hfblk, hnext⟩ := h.falls b blk hblk hopen
    rw [hnext]
    exact hf.own b blk c t hfblk hopen hcond

end BpfCapsule.Flatten

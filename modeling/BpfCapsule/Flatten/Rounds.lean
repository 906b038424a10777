import BpfCapsule.Flatten.Relays

/-!
# BpfCapsule — a round of relays

One round places the relays of all requests. `Round` is what holds after each step of it, relative to
the function at its start.
-/

namespace BpfCapsule.Flatten

open Relation MachineFunction

variable {σ : Type} {llvm : FallThrough σ}

/-! ## Blocks that fall through -/

variable {is : List (Inst σ)} {f : MachineFunction σ}

theorem open_eq_false_of_jmp {t : Id} (h : .jmp t ∈ is) : Open is = false := by
  induction is with
  | nil => simp at h
  | cons i is ih =>
    rcases List.mem_cons.mp h with rfl | hmem
    · rfl
    · cases i <;> first | rfl | exact ih hmem

theorem open_append_jmp (is : List (Inst σ)) (t : Id) : Open (is ++ [.jmp t]) = false :=
  open_eq_false_of_jmp (t := t) (by simp)

theorem open_modify_retarget (is : List (Inst σ)) (k : Nat) (old new : Id) :
    Open (is.modify k (Inst.retarget old new)) = Open is := by
  induction is generalizing k with
  | nil => simp
  | cons i is ih =>
    cases k with
    | zero => cases i <;> rfl
    | succ k =>
      cases i <;> first | rfl | exact ih k

/-! ## What holds during a round -/

namespace MachineFunction

variable (f : MachineFunction σ)

def Closed (b : Id) : Prop := ∀ blk, f.block? b = some blk → Open blk.instrs = false

def Targets : Prop :=
  ∀ b blk i t, f.block? b = some blk → i ∈ blk.instrs → i.target? = some t → t ∈ f.ids

def Falls : Prop :=
  ∀ b blk, f.block? b = some blk → Open blk.instrs = true → ∃ n ∈ blk.succs, f.layoutNext b = some n

def Own : Prop :=
  ∀ b blk c t, f.block? b = some blk → Open blk.instrs = true →
    lastReal blk.instrs = some (.cond c t) → f.layoutNext b = some t → blk.succs = [t]

end MachineFunction

structure Ready (f : MachineFunction σ) : Prop where
  nodup : f.ids.Nodup
  nonempty : f ≠ []
  edges : ∀ b t, f.Edge b t → t ∈ f.ids
  targets : f.Targets
  falls : f.Falls
  own : f.Own

/-- The function of the round is `f` with relays. A block of `f` with a relay after it is closed, and
so is the block before a boundary with a relay. -/
structure Round (f : MachineFunction σ) (st : Islands σ) : Prop where
  nodup : st.function.ids.Nodup
  targets : st.function.Targets
  falls : st.function.Falls
  own : st.function.Own
  relayed : Relayed f st.function
  relay_succ : ∀ x blk n rest, st.function.block? x = some blk → x ∉ f.ids →
    blk.instrs = .jmp n :: rest → n ∈ blk.succs
  next : ∀ b ∈ f.ids, st.function.layoutNext b = f.layoutNext b ∨ st.function.Closed b
  islands : ∀ before next r, ((before, next), r) ∈ st.relays → r ∉ f.ids ∧
    (∃ blk rest, st.function.block? r = some blk ∧ blk.instrs = .jmp next :: rest) ∧
    ∀ b p, before = some b → f.layoutNext p = some b → st.function.Closed p

theorem Round.start (hf : Ready f) : Round f ⟨f, []⟩ where
  nodup := hf.nodup
  targets := hf.targets
  falls := hf.falls
  own := hf.own
  relayed := .refl hf.edges
  relay_succ x blk n rest hblk hx := absurd (mem_of_block? hblk) hx
  next _ _ := .inl rfl
  islands before next r h := by simp at h

namespace Round

variable {st : Islands σ}

/-! ### One step of the round -/

/-- A block before and after a step: it goes where it went up to `R`, and if control still reaches its
end, nothing about it has changed. -/
structure Kept (f g g' : MachineFunction σ) (R : Id → Id → Prop) (x : Id) (blk blk' : Block σ) : Prop where
  open_eq : Open blk'.instrs = true → blk' = blk ∧ g'.layoutNext x = g.layoutNext x
  mimics : Mimics R blk.instrs (g.layoutNext x) blk'.instrs (g'.layoutNext x)
  jmp : x ∉ f.ids → ∀ n rest, blk.instrs = .jmp n :: rest →
    ∃ rest', blk'.instrs = .jmp n :: rest' ∧ (n ∈ blk.succs → n ∈ blk'.succs)
  succs : ∀ t ∈ blk.succs, ReflTransGen g'.Succ x t

/-- A step that keeps the blocks, and adds relays only. -/
structure Step (f g g' : MachineFunction σ) (R : Id → Id → Prop) : Prop where
  nodup : g'.ids.Nodup
  entry : g'.ids.head? = g.ids.head?
  related : ∀ x y t, R x y → Leads g f.ids x t → Leads g f.ids y t
  kept : ∀ x blk, g.block? x = some blk → ∃ blk', g'.block? x = some blk' ∧ Kept f g g' R x blk blk'
  added : ∀ x blk, g'.block? x = some blk → x ∉ g.ids →
    ∃ n t, blk.instrs = [.jmp n] ∧ n ∈ blk.succs ∧ Leads g f.ids n t
  targets : g.Targets → g'.Targets

namespace Step

variable {g g' : MachineFunction σ} {R : Id → Id → Prop}

variable {x : Id} (h : Step f g g' R)

include h

theorem mem_ids (hx : x ∈ g.ids) : x ∈ g'.ids := by
  obtain ⟨blk, hblk⟩ := mem_ids_iff.mp hx
  obtain ⟨blk', hblk', _⟩ := h.kept x blk hblk
  exact mem_of_block? hblk'

theorem leads {t : Id} (hx : Leads g f.ids x t) : Leads g' f.ids x t := by
  refine hx.mono fun x blk n rest hxf hblk hjmp => ?_
  obtain ⟨blk', hblk', hkept⟩ := h.kept x blk hblk
  obtain ⟨rest', hjmp', _⟩ := hkept.jmp hxf n rest hjmp
  exact ⟨blk', rest', hblk', hjmp'⟩

/-- A block of the result is an old one or an added relay. -/
theorem block_cases {blk' : Block σ} (hblk' : g'.block? x = some blk') :
    (∃ blk, g.block? x = some blk ∧ Kept f g g' R x blk blk') ∨
      x ∉ g.ids ∧ ∃ n t, blk'.instrs = [.jmp n] ∧ n ∈ blk'.succs ∧ Leads g f.ids n t := by
  by_cases hx : x ∈ g.ids
  · obtain ⟨blk, hblk⟩ := mem_ids_iff.mp hx
    obtain ⟨blk'', hblk'', hkept⟩ := h.kept x blk hblk
    rw [hblk'] at hblk''
    cases hblk''
    exact .inl ⟨blk, hblk, hkept⟩
  · exact .inr ⟨hx, h.added x blk' hblk' hx⟩

theorem of_open {blk' : Block σ} (hblk' : g'.block? x = some blk')
    (hopen : Open blk'.instrs = true) :
    g.block? x = some blk' ∧ g'.layoutNext x = g.layoutNext x := by
  rcases h.block_cases hblk' with ⟨blk, hblk, hkept⟩ | ⟨_, n, t, hjmp, _⟩
  · obtain ⟨rfl, hnext⟩ := hkept.open_eq hopen
    exact ⟨hblk, hnext⟩
  · rw [hjmp] at hopen
    cases hopen

theorem closed (hx : g.Closed x) : g'.Closed x := by
  intro blk' hblk'
  by_contra hopen
  have hopen' : Open blk'.instrs = true := by simpa using hopen
  exact hopen (hx blk' (h.of_open hblk' hopen').1)

end Step

section

variable {g' : MachineFunction σ} {R : Id → Id → Prop}

theorem relayed_step (h : Round f st) (hstep : Step f st.function g' R) : Relayed f g' where
  subset b hb := hstep.mem_ids (h.relayed.subset b hb)
  entry := hstep.entry.trans h.relayed.entry
  mimics b fblk hfblk := by
    obtain ⟨blk, hblk, hmimics⟩ := h.relayed.mimics b fblk hfblk
    obtain ⟨blk', hblk', hkept⟩ := hstep.kept b blk hblk
    refine ⟨blk', hblk', (hmimics.trans hkept.mimics).mono fun t y hty => ?_⟩
    obtain ⟨x, hx, hxy⟩ := hty
    exact hstep.leads (hstep.related x y t hxy hx)
  relay x blk' hblk' hx := by
    rcases hstep.block_cases hblk' with ⟨blk, hblk, hkept⟩ | ⟨_, n, t, hjmp, _, hn⟩
    · obtain ⟨n, rest, t, hjmp, hn⟩ := h.relayed.relay x blk hblk hx
      obtain ⟨rest', hjmp', _⟩ := hkept.jmp hx n rest hjmp
      exact ⟨n, rest', t, hjmp', hstep.leads hn⟩
    · exact ⟨n, [], t, hjmp, hstep.leads hn⟩
  falls x blk' hblk' hopen := by
    obtain ⟨hblk, hnext⟩ := hstep.of_open hblk' hopen
    obtain ⟨hfblk, hfnext⟩ := h.relayed.falls x blk' hblk hopen
    exact ⟨hfblk, hnext.trans hfnext⟩
  succs b t hbt := by
    refine reflTransGen_closed ?_ _ _ (h.relayed.succs b t hbt)
    intro x y hxy
    obtain ⟨blk, hblk, hy⟩ := hxy
    obtain ⟨_, _, hkept⟩ := hstep.kept x blk hblk
    exact hkept.succs y hy

theorem step (h : Round f st) (hstep : Step f st.function g' R) :
    Round f { st with function := g' } where
  nodup := hstep.nodup
  targets := hstep.targets h.targets
  falls x blk' hblk' hopen := by
    obtain ⟨hblk, hnext⟩ := hstep.of_open hblk' hopen
    obtain ⟨n, hn, hnext'⟩ := h.falls x blk' hblk hopen
    exact ⟨n, hn, hnext.trans hnext'⟩
  own x blk' c t hblk' hopen hlast ht := by
    obtain ⟨hblk, hnext⟩ := hstep.of_open hblk' hopen
    exact h.own x blk' c t hblk hopen hlast (hnext.symm.trans ht)
  relayed := h.relayed_step hstep
  relay_succ x blk' n rest hblk' hx hjmp := by
    rcases hstep.block_cases hblk' with ⟨blk, hblk, hkept⟩ | ⟨_, k, t, hjmp', hk, _⟩
    · obtain ⟨k, rest', t, hjmp', _⟩ := h.relayed.relay x blk hblk hx
      obtain ⟨rest'', hjmp'', hsucc⟩ := hkept.jmp hx k rest' hjmp'
      rw [hjmp] at hjmp''
      cases hjmp''
      exact hsucc (h.relay_succ x blk n rest' hblk hx hjmp')
    · rw [hjmp] at hjmp'
      cases hjmp'
      exact hk
  next b hb := by
    obtain ⟨blk, hblk⟩ := mem_ids_iff.mp (h.relayed.subset b hb)
    obtain ⟨blk', hblk', hkept⟩ := hstep.kept b blk hblk
    -- an open block kept its end, and its successor with it
    rcases h.next b hb with hnext | hclosed
    · cases hopen : Open blk'.instrs with
      | true => exact .inl ((hkept.open_eq hopen).2.trans hnext)
      | false =>
        refine .inr fun blk'' hblk'' => ?_
        rw [hblk'] at hblk''
        cases hblk''
        exact hopen
    · exact .inr (hstep.closed hclosed)
  islands before next r hr := by
    obtain ⟨hrf, ⟨blk, rest, hblk, hjmp⟩, hbefore⟩ := h.islands before next r hr
    obtain ⟨blk', hblk', hkept⟩ := hstep.kept r blk hblk
    obtain ⟨rest', hjmp', _⟩ := hkept.jmp hrf next rest hjmp
    exact ⟨hrf, ⟨blk', rest', hblk', hjmp'⟩, fun b p hb hp => hstep.closed (hbefore b p hb hp)⟩

end

/-! ### The steps -/

section

variable {g g' : MachineFunction σ} {R : Id → Id → Prop} {x : Id} {blk : Block σ}

theorem kept_self (hR : ∀ x, R x x) (hblk : g'.block? x = some blk)
    (hnext : g'.layoutNext x = g.layoutNext x ∨ Open blk.instrs = false) :
    Kept f g g' R x blk blk where
  open_eq hopen := by
    rcases hnext with hnext | hclosed
    · exact ⟨rfl, hnext⟩
    · rw [hclosed] at hopen
      cases hopen
  mimics := by
    rcases hnext with hnext | hclosed
    · rw [hnext]
      exact .refl fun t _ => hR t
    · exact .of_not_open hclosed (fun t _ => hR t) _
  jmp _ n rest hjmp := ⟨rest, hjmp, id⟩
  succs t ht := .single ⟨blk, hblk, ht⟩

theorem step_modify {u : Block σ → Block σ} (hnodup : g.ids.Nodup) (hid : ∀ blk, (u blk).id = blk.id)
    (hR : ∀ x, R x x) (hrelated : ∀ x y t, R x y → Leads g f.ids x t → Leads g f.ids y t)
    (hblk : g.block? x = some blk) (hkept : Kept f g (g.modify x u) R x blk (u blk))
    (htargets : ∀ i ∈ (u blk).instrs, ∀ t, i.target? = some t →
      (∃ j ∈ blk.instrs, j.target? = some t) ∨ t ∈ g.ids) :
    Step f g (g.modify x u) R where
  nodup := by rwa [ids_modify hid]
  entry := by rw [ids_modify hid]
  related := hrelated
  kept y blk' hblk' := by
    have hnew := block?_modify (f := g) (b := x) (x := y) hid
    rw [hblk'] at hnew
    split at hnew
    next hy =>
      subst hy
      rw [hblk] at hblk'
      cases hblk'
      exact ⟨u blk, hnew, hkept⟩
    next => exact ⟨blk', hnew, kept_self hR hnew (.inl (layoutNext_modify hid))⟩
  added y blk' hblk' hy := by
    rw [← ids_modify (f := g) (b := x) hid] at hy
    exact absurd (mem_of_block? hblk') hy
  targets hg y blk' i t hblk' hi ht := by
    rw [ids_modify hid]
    rw [block?_modify hid] at hblk'
    split at hblk'
    next hy =>
      subst hy
      rw [hblk] at hblk'
      cases hblk'
      rcases htargets i hi t ht with ⟨j, hj, hjt⟩ | hmem
      · exact hg y blk j t hblk hj hjt
      · exact hmem
    next => exact hg y blk' i t hblk' hi ht

end

theorem id_addJump (b : Id) (blk : Block σ) : (addJump b blk).id = blk.id := rfl

variable {p b next t : Id} {before : Option Id}

theorem step_addJump (h : Round f st) {blk : Block σ} (hblk : st.function.block? p = some blk)
    (hnext : st.function.layoutNext p = some b) (hsucc : b ∈ blk.succs) :
    Step f st.function (st.function.modify p (addJump b)) Eq := by
  have hsuccs : (addJump b blk).succs = blk.succs := if_pos (List.contains_iff_mem.mpr hsucc)
  refine step_modify h.nodup (id_addJump b) (fun _ => rfl) (fun x y t hxy hx => hxy ▸ hx) hblk
    ⟨?_, ?_, ?_, ?_⟩ ?_
  · intro hopen
    rw [show (addJump b blk).instrs = blk.instrs ++ [.jmp b] from rfl, open_append_jmp] at hopen
    cases hopen
  · rw [hnext]
    exact .append_jmp (fun _ _ => rfl) _
  · intro _ n rest hjmp
    refine ⟨rest ++ [.jmp b], ?_, fun hn => hsuccs ▸ hn⟩
    show blk.instrs ++ [.jmp b] = _
    rw [hjmp]
    rfl
  · intro t ht
    refine .single ⟨addJump b blk, ?_, hsuccs ▸ ht⟩
    rw [block?_modify (id_addJump b), if_pos rfl, hblk]
    rfl
  · intro i hi t ht
    rcases List.mem_append.mp hi with hi | hi
    · exact .inl ⟨i, hi, ht⟩
    · cases List.mem_singleton.mp hi
      cases ht
      exact .inr (Sequence.mem_of_next hnext).2

theorem closed_of_layoutNext_none (h : Round f st) (hp : st.function.layoutNext p = none) :
    st.function.Closed p := by
  intro blk hblk
  by_contra hopen
  obtain ⟨n, _, hn⟩ := h.falls p blk hblk (by simpa using hopen)
  rw [hp] at hn
  cases hn

/-- A boundary at which the block before is closed. -/
structure Boundary (f g g' : MachineFunction σ) (relays : List ((Option Id × Id) × Id))
    (before : Option Id) : Prop where
  round : Round f ⟨g', relays⟩
  leads : ∀ x t, Leads g f.ids x t → Leads g' f.ids x t
  closed : ∀ p, g'.layoutNext p = before → g'.Closed p

theorem jumpToLayoutSuccessor (h : Round f st) (b : Id) :
    Boundary f st.function (Flatten.jumpToLayoutSuccessor llvm st.function b) st.relays (some b) := by
  unfold Flatten.jumpToLayoutSuccessor
  split
  next hprev =>
    refine ⟨h, fun _ _ hx => hx, fun p hp => ?_⟩
    exact absurd hp ((Sequence.prev_eq_none_iff h.nodup).mp hprev p)
  next p hprev =>
    have hnext := (Sequence.prev_eq_some_iff h.nodup).mp hprev
    obtain ⟨blk, hblk⟩ := mem_ids_iff.mp (Sequence.mem_of_next hnext).1
    have hid := id_of_block? hblk
    simp only [hblk]
    split
    next hcan =>
      have hsucc : b ∈ blk.succs := llvm.succ _ blk b hcan (hid ▸ hnext)
      have hstep := h.step_addJump hblk hnext hsucc
      refine ⟨h.step hstep, fun x t hx => hstep.leads hx, fun q hq blk' hblk' => ?_⟩
      rw [layoutNext_modify (id_addJump b)] at hq
      obtain rfl : q = p := Sequence.next_inj h.nodup hq hnext
      rw [block?_modify (id_addJump b), if_pos rfl, hblk] at hblk'
      cases hblk'
      exact open_append_jmp _ _
    next hcan =>
      refine ⟨h, fun _ _ hx => hx, fun q hq blk' hblk' => ?_⟩
      obtain rfl : q = p := Sequence.next_inj h.nodup hq hnext
      rw [hblk] at hblk'
      cases hblk'
      by_contra hopen
      have hopen' : Open blk.instrs = true := by simpa using hopen
      obtain ⟨n, hn, hnext'⟩ := h.falls q blk hblk hopen'
      exact hcan (llvm.of_open _ blk n hopen' (hid ▸ hnext') hn)

theorem closeBoundary (h : Round f st) (before : Option Id) :
    Boundary f st.function (Flatten.closeBoundary llvm st.function before) st.relays before := by
  cases before with
  | some b => exact h.jumpToLayoutSuccessor b
  | none => exact ⟨h, fun _ _ hx => hx, fun p hp => h.closed_of_layoutNext_none hp⟩

/-- Placing a relay to a block that leads to an old one. -/
theorem step_placeRelay (h : Round f st) {r : Id} (hne : st.function ≠ [])
    (hr : r ∉ st.function.ids) (hbefore : ∀ b, before = some b → b ∈ st.function.ids)
    (hentry : ∀ b, before = some b → st.function.ids.head? ≠ some b)
    (hclosed : ∀ p, st.function.layoutNext p = before → st.function.Closed p)
    (hnext : Leads st.function f.ids next t) :
    Step f st.function (placeRelay st.function before ⟨r, [.jmp next], [next]⟩) Eq where
  nodup := by
    rw [(ids_placeRelay_perm hbefore).nodup_iff]
    exact List.nodup_cons.mpr ⟨hr, h.nodup⟩
  entry := head?_placeRelay hne hentry
  related x y t hxy hx := hxy ▸ hx
  kept x blk hblk := by
    have hx := mem_of_block? hblk
    have hxr : x ≠ r := fun heq => hr (heq ▸ hx)
    have hblk' := block?_placeRelay ⟨r, [.jmp next], [next]⟩ hr hbefore x
    rw [if_neg hxr, hblk] at hblk'
    refine ⟨blk, hblk', kept_self (fun _ => rfl) hblk' ?_⟩
    rcases layoutNext_placeRelay ⟨r, [.jmp next], [next]⟩ h.nodup hr hbefore hx with hsame | hnew
    · exact .inl hsame
    · exact .inr (hclosed x hnew.1 blk hblk)
  added x blk hblk hx := by
    rw [block?_placeRelay _ hr hbefore] at hblk
    split at hblk
    · cases hblk
      exact ⟨next, t, rfl, by simp, hnext⟩
    · exact absurd (mem_of_block? hblk) hx
  targets hg x blk i u hblk hi hu := by
    have hsub : ∀ y ∈ st.function.ids, y ∈ (placeRelay st.function before
        ⟨r, [.jmp next], [next]⟩).ids := fun y hy =>
      (ids_placeRelay_perm hbefore).mem_iff.mpr (List.mem_cons_of_mem _ hy)
    rw [block?_placeRelay _ hr hbefore] at hblk
    split at hblk
    · cases hblk
      cases List.mem_singleton.mp hi
      cases hu
      exact hsub _ (hnext.mem_ids h.relayed.subset)
    · exact hsub _ (hg x blk i u hblk hi hu)

theorem replace_eq_append {l : List Id} {a : Id} (ha : a ∈ l) (b : Id) :
    ∃ pre post, l = pre ++ a :: post ∧ l.replace a b = pre ++ b :: post := by
  obtain ⟨pre, post, rfl, hpre⟩ := List.eq_append_cons_of_mem ha
  exact ⟨pre, post, rfl, by simp [List.replace_append, hpre]⟩

theorem mem_replaceSuccessor {succs : List Id} {old new : Id} (hold : old ∈ succs)
    (ht : t ∈ succs) :
    t ∈ replaceSuccessor succs old new ∨ t = old ∧ new ∈ replaceSuccessor succs old new := by
  unfold replaceSuccessor
  split
  · exact .inl ht
  next hne =>
    obtain ⟨pre, post, hsplit, hreplace⟩ := replace_eq_append hold new
    by_cases hto : t = old
    · refine .inr ⟨hto, ?_⟩
      split
      next hnew => exact (List.mem_erase_of_ne (Ne.symm hne)).mpr (List.contains_iff_mem.mp hnew)
      next => simp [hreplace]
    · refine .inl ?_
      split
      · exact (List.mem_erase_of_ne hto).mpr ht
      · rw [hreplace]
        simpa [hsplit, hto, or_left_comm] using Or.inr ht

theorem mem_modify {α : Type} {l : List α} {k : Nat} {u : α → α} {a : α} (h : a ∈ l.modify k u) :
    a ∈ l ∨ ∃ b ∈ l, a = u b := by
  obtain ⟨j, hj⟩ := List.mem_iff_getElem?.mp h
  rw [List.getElem?_modify] at hj
  obtain ⟨b, hb, rfl⟩ := Option.map_eq_some_iff.mp hj
  have hmem := List.mem_of_getElem? hb
  split
  · exact .inr ⟨b, hmem, rfl⟩
  · exact .inl hmem

theorem target?_retarget {old new : Id} {i : Inst σ} (h : (i.retarget old new).target? = some t) :
    i.target? = some t ∨ t = new := by
  cases i with
  | cond c u | jmp u =>
    simp only [Inst.retarget, Inst.target?, Option.some.injEq] at h ⊢
    split at h
    · exact .inr h.symm
    · exact .inl h
  | _ => exact .inl h

theorem step_setBranch (h : Round f st) {rq : Request} {blk : Block σ} (hb : rq.block ∈ f.ids)
    (hblk : st.function.block? rq.block = some blk) (hclosed : Open blk.instrs = false)
    (htarget : rq.target ∈ f.ids) (hnext : Leads st.function f.ids next rq.target) :
    Step f st.function (st.function.modify rq.block (setBranch rq next))
      (fun x y => y = x ∨ x = rq.target ∧ y = next) := by
  have hid : ∀ blk : Block σ, (setBranch rq next blk).id = blk.id := fun _ => rfl
  have hnew : (st.function.modify rq.block (setBranch rq next)).block? rq.block =
      some (setBranch rq next blk) := by
    rw [block?_modify hid, if_pos rfl, hblk]
    rfl
  -- The relays are not the block that changes, so their successor lists stay.
  have hpath : ∀ {x t : Id}, Leads st.function f.ids x t →
      ReflTransGen (st.function.modify rq.block (setBranch rq next)).Succ x t := by
    intro x t hx
    induction hx with
    | here _ => exact .refl
    | @relay x n t xblk rest hx hxblk hjmp _ ih =>
      have hne : x ≠ rq.block := fun heq => hx (heq ▸ hb)
      refine .head ⟨xblk, ?_, h.relay_succ x xblk n rest hxblk hx hjmp⟩ ih
      rw [block?_modify hid, if_neg hne, hxblk]
  refine step_modify h.nodup hid (fun _ => .inl rfl) ?_ hblk
    ⟨?_, ?_, fun hnot => absurd hb hnot, ?_⟩ ?_
  · intro x y t hxy hx
    rcases hxy with rfl | ⟨rfl, rfl⟩
    · exact hx
    · exact hx.eq_of_mem htarget ▸ hnext
  · intro hopen
    rw [show (setBranch rq next blk).instrs = blk.instrs.modify rq.index _ from rfl,
      open_modify_retarget, hclosed] at hopen
    cases hopen
  · rw [layoutNext_modify hid]
    exact .retarget (fun _ _ => .inl rfl) (.inr ⟨rfl, rfl⟩) _
  · intro t ht
    by_cases hold : rq.target ∈ blk.succs
    · have hsuccs : (setBranch rq next blk).succs = replaceSuccessor blk.succs rq.target next :=
        if_pos (List.contains_iff_mem.mpr hold)
      rcases mem_replaceSuccessor hold ht with hmem | ⟨rfl, hmem⟩
      · exact .single ⟨_, hnew, hsuccs ▸ hmem⟩
      · exact .head ⟨_, hnew, hsuccs ▸ hmem⟩ (hpath hnext)
    · have hsuccs : (setBranch rq next blk).succs = blk.succs :=
        if_neg fun hmem => hold (List.contains_iff_mem.mp hmem)
      exact .single ⟨_, hnew, hsuccs ▸ ht⟩
  · intro i hi t ht
    rcases mem_modify hi with hi | ⟨j, hj, rfl⟩
    · exact .inl ⟨i, hi, ht⟩
    · rcases target?_retarget ht with hold | rfl
      · exact .inl ⟨j, hj, hold⟩
      · exact .inr (hnext.mem_ids h.relayed.subset)

/-! ### Requests -/

theorem addRelay (h : Round f st) {r : Id} (hr : r ∉ f.ids)
    (hblk : ∃ blk rest, st.function.block? r = some blk ∧ blk.instrs = .jmp next :: rest)
    (hclosed : ∀ b p, before = some b → f.layoutNext p = some b → st.function.Closed p) :
    Round f { st with relays := st.relays ++ [((before, next), r)] } where
  nodup := h.nodup
  targets := h.targets
  falls := h.falls
  own := h.own
  relayed := h.relayed
  relay_succ := h.relay_succ
  next := h.next
  islands before' next' r' hmem := by
    rcases List.mem_append.mp hmem with hmem | hmem
    · exact h.islands before' next' r' hmem
    · cases List.mem_singleton.mp hmem
      exact ⟨hr, hblk, hclosed⟩

theorem lookup_mem {α β : Type} [BEq α] [LawfulBEq α] {l : List (α × β)} {a : α} {b : β}
    (h : l.lookup a = some b) : (a, b) ∈ l := by
  obtain ⟨pre, post, rfl, -⟩ := List.lookup_eq_some_iff.mp h
  simp

theorem head?_ne_of_layoutNext (hf : f.ids.Nodup)
    (hp : f.layoutNext p = some b) : f.ids.head? ≠ some b := by
  unfold layoutNext at hp
  generalize f.ids = ids at hf hp
  cases ids with
  | nil => simp
  | cons a l =>
    intro hhead
    obtain rfl : a = b := by simpa using hhead
    exact Sequence.next_ne_head hf hp

theorem ne_nil (h : Round f st) (hf : Ready f) : st.function ≠ [] := by
  intro hnil
  have hentry := h.relayed.entry
  rw [hnil] at hentry
  have hids : f.ids = [] := List.head?_eq_none_iff.mp hentry.symm
  exact hf.nonempty (List.map_eq_nil_iff.mp hids)

theorem addIsland_spec (hf : Ready f) (h : Round f st)
    (hbefore : ∀ b, before = some b → ∃ p, f.layoutNext p = some b)
    (hnext : Leads st.function f.ids next t) :
    Round f (addIsland llvm before (st, next)).1 ∧
      Leads (addIsland llvm before (st, next)).1.function f.ids (addIsland llvm before (st, next)).2 t ∧
      ∃ k, ((before, k), (addIsland llvm before (st, next)).2) ∈ (addIsland llvm before (st, next)).1.relays := by
  unfold addIsland
  simp only
  split
  next r hlookup =>
    have hmem := lookup_mem hlookup
    obtain ⟨hr, ⟨blk, rest, hblk, hjmp⟩, _⟩ := h.islands before next r hmem
    exact ⟨h, .relay hr hblk hjmp hnext, next, hmem⟩
  next hlookup =>
    -- The function in which the relay is placed: the block before the boundary is closed in it.
    obtain ⟨hround, hleads, hclosed⟩ := h.closeBoundary before
    have hnext' := hleads next t hnext
    generalize Flatten.closeBoundary llvm st.function before = g at hround hnext' hclosed
    have hinner : ∀ b, before = some b → b ∈ g.ids ∧ g.ids.head? ≠ some b := by
      intro b hb
      obtain ⟨p, hp⟩ := hbefore b hb
      refine ⟨hround.relayed.subset b (Sequence.mem_of_next hp).2, ?_⟩
      rw [hround.relayed.entry]
      exact head?_ne_of_layoutNext hf.nodup hp
    have hfresh := freshId_not_mem (f := g)
    have hstep := hround.step_placeRelay (hround.ne_nil hf) hfresh (fun b hb => (hinner b hb).1)
      (fun b hb => (hinner b hb).2) hclosed hnext'
    have hold : g.freshId ∉ f.ids := fun hmem => hfresh (hround.relayed.subset _ hmem)
    have hrelay : (placeRelay g before ⟨g.freshId, [.jmp next], [next]⟩).block? g.freshId =
        some ⟨g.freshId, [.jmp next], [next]⟩ := by
      rw [block?_placeRelay _ hfresh (fun b hb => (hinner b hb).1), if_pos rfl]
    refine ⟨(hround.step hstep).addRelay hold ⟨_, [], hrelay, rfl⟩ ?_,
      .relay hold hrelay rfl (hstep.leads hnext'), next, by simp⟩
    intro b p hb hp
    apply hstep.closed
    rcases hround.next p (Sequence.mem_of_next hp).1 with hsame | hp'
    · exact hclosed p (hsame.trans (hp.trans hb.symm))
    · exact hp'

/-- The relays of a request lead from the first to its target. -/
theorem foldr_addIsland_spec (hf : Ready f) (h : Round f st) {boundaries : List (Option Id)}
    (ht : t ∈ f.ids) (hboundaries : ∀ b, some b ∈ boundaries → ∃ p, f.layoutNext p = some b) :
    Round f (boundaries.foldr (addIsland llvm) (st, t)).1 ∧
      Leads (boundaries.foldr (addIsland llvm) (st, t)).1.function f.ids
        (boundaries.foldr (addIsland llvm) (st, t)).2 t ∧
      ∀ first, boundaries.head? = some first →
        ∃ k r, ((first, k), r) ∈ (boundaries.foldr (addIsland llvm) (st, t)).1.relays := by
  induction boundaries with
  | nil => exact ⟨h, .here ht, fun first hfirst => by simp at hfirst⟩
  | cons before boundaries ih =>
    obtain ⟨hround, hleads, _⟩ := ih fun b hb => hboundaries b (List.mem_cons_of_mem _ hb)
    rw [List.foldr_cons]
    generalize boundaries.foldr (addIsland llvm) (st, t) = acc at hround hleads
    obtain ⟨st', next⟩ := acc
    have hbefore : ∀ b, before = some b → ∃ p, f.layoutNext p = some b := fun b hb =>
      hboundaries b (hb ▸ List.mem_cons_self)
    obtain ⟨hround', hleads', k, hmem⟩ := hround.addIsland_spec hf hbefore hleads
    refine ⟨hround', hleads', fun first hfirst => ?_⟩
    obtain rfl : before = first := by simpa using hfirst
    exact ⟨k, _, hmem⟩

/-- A request of the function at the start of the round. The block of its branch is closed, or the
first relay is placed right after it. -/
structure Valid (f : MachineFunction σ) (rq : Request) : Prop where
  block : rq.block ∈ f.ids
  target : rq.target ∈ f.ids
  boundaries : ∀ b, some b ∈ rq.boundaries → ∃ p, f.layoutNext p = some b
  first : f.Closed rq.block ∨ rq.boundaries.head? = some (f.layoutNext rq.block)

/-- A block of `f` that was closed is closed. -/
theorem closed_of_closed (h : Round f st) (hb : b ∈ f.ids) (hclosed : f.Closed b) :
    st.function.Closed b := by
  intro blk hblk
  obtain ⟨fblk, hfblk⟩ := mem_ids_iff.mp hb
  obtain ⟨blk', hblk', hmimics⟩ := h.relayed.mimics b fblk hfblk
  rw [hblk] at hblk'
  cases hblk'
  by_contra hopen
  have := hmimics.open_le (by simpa using hopen)
  rw [hclosed fblk hfblk] at this
  cases this

theorem relayRequest (hf : Ready f) (h : Round f st) {rq : Request} (hrq : Valid f rq) :
    Round f (Flatten.relayRequest llvm st rq) := by
  obtain ⟨hround, hleads, hfirst⟩ := h.foldr_addIsland_spec hf hrq.target hrq.boundaries
  unfold Flatten.relayRequest
  generalize rq.boundaries.foldr (addIsland llvm) (st, rq.target) = acc at hround hleads hfirst
  obtain ⟨st', next⟩ := acc
  obtain ⟨blk, hblk⟩ := mem_ids_iff.mp (hround.relayed.subset _ hrq.block)
  have hclosed : st'.function.Closed rq.block := by
    rcases hrq.first with hclosed | hhead
    · exact hround.closed_of_closed hrq.block hclosed
    · rcases hround.next rq.block hrq.block with hsame | hclosed
      · cases hnext : f.layoutNext rq.block with
        | none => exact hround.closed_of_layoutNext_none (hsame.trans hnext)
        | some b =>
          rw [hnext] at hhead
          obtain ⟨k, r, hmem⟩ := hfirst (some b) hhead
          exact (hround.islands (some b) k r hmem).2.2 b rq.block rfl hnext
      · exact hclosed
  exact hround.step (hround.step_setBranch hrq.block hblk (hclosed blk hblk) hrq.target hleads)

end Round

/-- A round of relays keeps the control flow, and the function is ready for another one. -/
theorem relayRound_spec (hf : Ready f) {rs : List Request} (hrs : ∀ rq ∈ rs, Round.Valid f rq) :
    Ready (relayRound llvm f rs) ∧ Relayed f (relayRound llvm f rs) := by
  have hround : Round f (rs.foldl (relayRequest llvm) ⟨f, []⟩) := by
    have hgen : ∀ st : Islands σ, Round f st → Round f (rs.foldl (relayRequest llvm) st) := by
      induction rs with
      | nil => exact fun st h => h
      | cons rq rs ih =>
        intro st h
        exact ih (fun rq' hrq' => hrs rq' (List.mem_cons_of_mem _ hrq')) _
          (h.relayRequest hf (hrs rq List.mem_cons_self))
    exact hgen _ (.start hf)
  refine ⟨⟨hround.nodup, hround.ne_nil hf, ?_, hround.targets, hround.falls, hround.own⟩,
    hround.relayed⟩
  intro b t hbt
  obtain ⟨blk, hblk, ht⟩ := hbt
  by_cases hb : b ∈ f.ids
  · obtain ⟨fblk, hfblk⟩ := mem_ids_iff.mp hb
    obtain ⟨blk', hblk', hmimics⟩ := hround.relayed.mimics b fblk hfblk
    rw [show relayRound llvm f rs = (rs.foldl (relayRequest llvm) ⟨f, []⟩).function from rfl] at hblk ht
    rw [hblk] at hblk'
    cases hblk'
    obtain ⟨t', _, hleads⟩ := hmimics.exists_edge ht
    exact hleads.mem_ids hround.relayed.subset
  · obtain ⟨n, rest, t', hjmp, hleads⟩ := hround.relayed.relay b blk hblk hb
    rw [hjmp] at ht
    obtain rfl : t = n := by simpa [edges] using ht
    exact hleads.mem_ids hround.relayed.subset

end BpfCapsule.Flatten

import BpfCapsule.Flatten.Relax
import Mathlib.Logic.Relation
import Mathlib.Data.List.MinMax
import Mathlib.Order.Nat

/-!
# BpfCapsule — relays keep the control flow

A function with relays does what it did without: a branch or a fallthrough of an old block leads,
through relay blocks only, to its old target (`Relayed`). The round is followed one relay and one
branch at a time (`Round`); what makes it work is that a block with a relay after it never falls
through, since it got a jump before the relay was placed.
-/

namespace BpfCapsule.Flatten

open Relation MachineFunction

variable {σ : Type}

/-! ## Editing the layout -/

namespace MachineFunction

variable {f : MachineFunction σ} {b x : Id} {g : Block σ → Block σ} {relay : Block σ}

theorem mem_ids_iff : x ∈ f.ids ↔ ∃ blk, f.block? x = some blk := by
  unfold ids block?
  rw [List.mem_map]
  constructor
  · rintro ⟨blk, hblk, rfl⟩
    have hsome : (f.find? fun b => decide (b.id = blk.id)).isSome := by
      rw [List.find?_isSome]
      exact ⟨blk, hblk, by simp⟩
    exact Option.isSome_iff_exists.mp hsome
  · rintro ⟨blk, hblk⟩
    exact ⟨blk, List.mem_of_find?_eq_some hblk, by simpa using List.find?_some hblk⟩

theorem mem_of_block? {blk : Block σ} (h : f.block? x = some blk) : x ∈ f.ids := mem_ids_iff.mpr ⟨blk, h⟩

theorem id_of_block? {blk : Block σ} (h : f.block? x = some blk) : blk.id = x := by
  simpa using List.find?_some h

theorem ids_modify (hg : ∀ blk, (g blk).id = blk.id) : (f.modify b g).ids = f.ids := by
  unfold ids modify
  rw [List.map_map]
  apply List.map_congr_left
  intro blk _
  simp only [Function.comp]
  split
  · exact hg blk
  · rfl

theorem block?_modify (hg : ∀ blk, (g blk).id = blk.id) :
    (f.modify b g).block? x = if x = b then (f.block? x).map g else f.block? x := by
  induction f with
  | nil => simp [modify, block?]
  | cons blk f ih =>
    unfold block? modify at ih ⊢
    rw [List.map_cons, List.find?_cons, List.find?_cons, ih]
    by_cases hid : blk.id = b
    · rw [if_pos hid, hg]
      by_cases hx : blk.id = x
      · simp [hx, hid ▸ hx.symm]
      · simp [hx]
    · rw [if_neg hid]
      by_cases hx : blk.id = x
      · have : x ≠ b := fun h => hid (hx.trans h)
        simp [hx, this]
      · simp [hx]

theorem layoutNext_modify (hg : ∀ blk, (g blk).id = blk.id) :
    (f.modify b g).layoutNext x = f.layoutNext x := by
  unfold layoutNext
  rw [ids_modify hg]

theorem freshId_not_mem : f.freshId ∉ f.ids :=
  fun hmem => Nat.not_succ_le_self _ (List.le_max_of_le hmem (Nat.le_refl _))

theorem ids_insertBefore : (insertBefore relay b f).ids = Sequence.insertBefore relay.id b f.ids := by
  induction f with
  | nil => rfl
  | cons blk f ih =>
    show ids (if _ then _ else _) = if _ then _ else _
    split
    · rfl
    · exact congrArg (blk.id :: ·) ih

theorem block?_insertBefore (hr : relay.id ∉ f.ids) (hb : b ∈ f.ids) :
    (insertBefore relay b f).block? x = if x = relay.id then some relay else f.block? x := by
  induction f with
  | nil => simp [ids] at hb
  | cons blk f ih =>
    have hne : blk.id ≠ relay.id := fun h => hr (by simp [ids, h])
    unfold insertBefore
    split
    next hblk =>
      simp only [block?, List.find?_cons]
      by_cases hx : relay.id = x
      · simp [hx]
      · simp [hx, Ne.symm hx]
    next hblk =>
      have hb' : b ∈ ids f := by
        rcases List.mem_cons.mp hb with h | h
        · exact absurd h.symm hblk
        · exact h
      have ih' := ih (fun h => hr (List.mem_cons_of_mem _ h)) hb'
      unfold block? at ih' ⊢
      rw [List.find?_cons, List.find?_cons, ih']
      by_cases hx : blk.id = x
      · have : x ≠ relay.id := fun h => hne (hx.trans h)
        simp [hx, this]
      · simp [hx]

end MachineFunction

section

variable {f : MachineFunction σ} {before : Option Id} {relay : Block σ}

theorem ids_placeRelay_perm (hbefore : ∀ b, before = some b → b ∈ f.ids) :
    (placeRelay f before relay).ids.Perm (relay.id :: f.ids) := by
  cases before with
  | none =>
    show (List.map Block.id (f ++ [relay])).Perm _
    rw [List.map_append]
    exact List.perm_append_singleton _ _
  | some b =>
    show (insertBefore relay b f).ids.Perm _
    rw [ids_insertBefore]
    exact Sequence.insertBefore_perm (hbefore b rfl)

variable (relay) in
theorem block?_placeRelay (hr : relay.id ∉ f.ids) (hbefore : ∀ b, before = some b → b ∈ f.ids) (x : Id) :
    (placeRelay f before relay).block? x = if x = relay.id then some relay else f.block? x := by
  cases before with
  | some b => exact block?_insertBefore hr (hbefore b rfl)
  | none =>
    show (f ++ [relay]).find? _ = _
    rw [List.find?_append]
    show (f.block? x).or _ = _
    split
    next hx =>
      have hnone : f.block? x = none := by
        cases hblk : f.block? x with
        | none => rfl
        | some blk => exact absurd (mem_of_block? hblk) (hx ▸ hr)
      rw [hnone, hx]
      simp
    next hx => simp [Ne.symm hx]

variable (relay) in
theorem layoutNext_placeRelay (hnodup : f.ids.Nodup) (hr : relay.id ∉ f.ids)
    (hbefore : ∀ b, before = some b → b ∈ f.ids) {x : Id} (hx : x ∈ f.ids) :
    (placeRelay f before relay).layoutNext x = f.layoutNext x ∨
      f.layoutNext x = before ∧ (placeRelay f before relay).layoutNext x = some relay.id := by
  have hxr : x ≠ relay.id := fun h => hr (h ▸ hx)
  unfold layoutNext
  cases before with
  | some b =>
    show Sequence.next (insertBefore relay b f).ids x = _ ∨ _ ∧
      Sequence.next (insertBefore relay b f).ids x = _
    rw [ids_insertBefore, Sequence.next_insertBefore hnodup hr (hbefore b rfl),
      if_neg hxr]
    split
    next h => exact .inr ⟨h, rfl⟩
    next => exact .inl rfl
  | none =>
    have hids : (placeRelay f none relay).ids = f.ids ++ [relay.id] := by
      show List.map Block.id (f ++ [relay]) = _
      rw [List.map_append]
      rfl
    rw [hids, Sequence.next_append_singleton hnodup hr]
    split
    next h => exact .inr ⟨Sequence.next_eq_none_of_getLast? hnodup h, rfl⟩
    next => exact .inl rfl

theorem head?_placeRelay (hne : f ≠ []) (hbefore : ∀ b, before = some b → f.ids.head? ≠ some b) :
    (placeRelay f before relay).ids.head? = f.ids.head? := by
  have hids : f.ids ≠ [] := fun h => hne (List.map_eq_nil_iff.mp h)
  cases before with
  | some b =>
    show (insertBefore relay b f).ids.head? = _
    rw [ids_insertBefore]
    exact Sequence.head?_insertBefore_of_ne (hbefore b rfl) hids
  | none =>
    show (List.map Block.id (f ++ [relay])).head? = _
    rw [List.map_append]
    exact List.head?_append_of_ne_nil _ hids

end

/-! ## Relays -/

/-- From `x` control comes through relay blocks, those not among the old ones, to the old block `t`. -/
inductive Leads (g : MachineFunction σ) (old : List Id) : Id → Id → Prop
  | here {x : Id} (hx : x ∈ old) : Leads g old x x
  | relay {x n t : Id} {blk : Block σ} {rest : List (Inst σ)} (hx : x ∉ old)
    (hblk : g.block? x = some blk) (hjmp : blk.instrs = .jmp n :: rest) (h : Leads g old n t) :
    Leads g old x t

namespace Leads

variable {g g' h : MachineFunction σ} {old : List Id} {x t : Id}

theorem mem_old (h : Leads g old x t) : t ∈ old := by
  induction h with
  | here hx => exact hx
  | relay _ _ _ _ ih => exact ih

theorem eq_of_mem (h : Leads g old x t) (hx : x ∈ old) : x = t := by
  cases h with
  | here _ => rfl
  | relay hnot _ _ _ => exact absurd hx hnot

theorem mem_ids (h : Leads g old x t) (hold : ∀ b ∈ old, b ∈ g.ids) : x ∈ g.ids := by
  cases h with
  | here hx => exact hold x hx
  | relay _ hblk _ _ => exact mem_of_block? hblk

/-- Relays that keep their jump lead where they led. -/
theorem mono (h : Leads g old x t)
    (hkeep : ∀ x blk n rest, x ∉ old → g.block? x = some blk → blk.instrs = .jmp n :: rest →
      ∃ blk' rest', g'.block? x = some blk' ∧ blk'.instrs = .jmp n :: rest') : Leads g' old x t := by
  induction h with
  | here hx => exact .here hx
  | relay hx hblk hjmp _ ih =>
    obtain ⟨blk', rest', hblk', hjmp'⟩ := hkeep _ _ _ _ hx hblk hjmp
    exact .relay hx hblk' hjmp' ih

end Leads

/-- `g` is `f` with relays. -/
structure Relayed (f g : MachineFunction σ) : Prop where
  subset : ∀ b ∈ f.ids, b ∈ g.ids
  entry : g.ids.head? = f.ids.head?
  /-- The old blocks do what they did, and go where they went through relays. -/
  mimics : ∀ b blk, f.block? b = some blk → ∃ blk', g.block? b = some blk' ∧
    Mimics (fun t x => Leads g f.ids x t) blk.instrs (f.layoutNext b) blk'.instrs (g.layoutNext b)
  relay : ∀ x blk, g.block? x = some blk → x ∉ f.ids →
    ∃ n rest t, blk.instrs = .jmp n :: rest ∧ Leads g f.ids n t
  /-- What falls through is an old block, and falls through as it did. -/
  falls : ∀ x blk, g.block? x = some blk → Open blk.instrs = true →
    f.block? x = some blk ∧ g.layoutNext x = f.layoutNext x
  /-- The old successors are still reached along successor lists. -/
  succs : ∀ b t, f.Succ b t → ReflTransGen g.Succ b t

namespace Relayed

variable {f g h : MachineFunction σ}

theorem refl (hedges : ∀ b t, f.Edge b t → t ∈ f.ids) : Relayed f f where
  subset _ hb := hb
  entry := rfl
  mimics b blk hblk := ⟨blk, hblk, .refl fun t ht => .here (hedges b t ⟨blk, hblk, ht⟩)⟩
  relay _ _ hblk hx := absurd (mem_of_block? hblk) hx
  falls _ _ hblk _ := ⟨hblk, rfl⟩
  succs _ _ h := .single h

/-- A jump at the head of an old block leads where it went. -/
theorem jmp (hgh : Relayed g h) {x n : Id} {blk : Block σ} {rest : List (Inst σ)}
    (hblk : g.block? x = some blk) (hjmp : blk.instrs = .jmp n :: rest) :
    ∃ blk' n' rest', h.block? x = some blk' ∧ blk'.instrs = .jmp n' :: rest' ∧ Leads h g.ids n' n := by
  obtain ⟨blk', hblk', hmimics⟩ := hgh.mimics _ _ hblk
  rw [hjmp] at hmimics
  generalize hinstrs : blk'.instrs = instrs' at hmimics
  cases hmimics with
  | jmp ht => exact ⟨blk', _, _, hblk', hinstrs, ht⟩

/-- A relay of the first step still leads where it led, through relays of both. -/
theorem leads_trans (hfg : Relayed f g) (hgh : Relayed g h) {x y t : Id} (hy : Leads h g.ids y x)
    (hx : Leads g f.ids x t) : Leads h f.ids y t := by
  have hkeep : ∀ {y : Id}, y ∉ g.ids → y ∉ f.ids := fun hy hf => hy (hfg.subset _ hf)
  induction hx generalizing y with
  | here hx =>
    induction hy with
    | here _ => exact .here hx
    | relay hy hyblk hyjmp _ ih => exact .relay (hkeep hy) hyblk hyjmp (ih hx)
  | @relay x n t blk rest hx hblk hjmp _ ih =>
    induction hy with
    | relay hy hyblk hyjmp _ ih' => exact .relay (hkeep hy) hyblk hyjmp (ih' hx hblk)
    | here _ =>
      obtain ⟨blk', n', rest', hblk', hjmp', hn'⟩ := hgh.jmp hblk hjmp
      exact .relay hx hblk' hjmp' (ih hn')

theorem trans (hfg : Relayed f g) (hgh : Relayed g h) : Relayed f h where
  subset b hb := hgh.subset b (hfg.subset b hb)
  entry := hgh.entry.trans hfg.entry
  mimics b blk hblk := by
    obtain ⟨blk', hblk', hmimics⟩ := hfg.mimics b blk hblk
    obtain ⟨blk'', hblk'', hmimics'⟩ := hgh.mimics b blk' hblk'
    refine ⟨blk'', hblk'', (hmimics.trans hmimics').mono fun t y hty => ?_⟩
    obtain ⟨x, hx, hy⟩ := hty
    exact leads_trans hfg hgh hy hx
  relay x blk hblk hx := by
    by_cases hxg : x ∈ g.ids
    · obtain ⟨blk', hblk'⟩ := mem_ids_iff.mp hxg
      obtain ⟨n, rest, t, hjmp, hn⟩ := hfg.relay x blk' hblk' hx
      obtain ⟨blk'', n', rest', hblk'', hjmp', hn'⟩ := hgh.jmp hblk' hjmp
      rw [hblk] at hblk''
      cases hblk''
      exact ⟨n', rest', t, hjmp', leads_trans hfg hgh hn' hn⟩
    · obtain ⟨n, rest, u, hjmp, hn⟩ := hgh.relay x blk hblk hxg
      -- `n` leads to a block of `g`, which is an old one or a relay of the first step.
      obtain ⟨blk', hblk'⟩ := mem_ids_iff.mp hn.mem_old
      by_cases hu : u ∈ f.ids
      · exact ⟨n, rest, u, hjmp, leads_trans hfg hgh hn (.here hu)⟩
      · obtain ⟨k, rest', t, hjmp', hk⟩ := hfg.relay u blk' hblk' hu
        exact ⟨n, rest, t, hjmp, leads_trans hfg hgh hn (.relay hu hblk' hjmp' hk)⟩
  falls x blk hblk hopen := by
    obtain ⟨hblk', hnext'⟩ := hgh.falls x blk hblk hopen
    obtain ⟨hblk'', hnext''⟩ := hfg.falls x blk hblk' hopen
    exact ⟨hblk'', hnext'.trans hnext''⟩
  succs b t hbt := reflTransGen_closed hgh.succs _ _ (hfg.succs b t hbt)

theorem exit_same (hfg : Relayed f g) {b : Id} (hb : b ∈ f.ids) (s : σ) :
    Exit.Same (fun t x => Leads g f.ids x t) (f.exit b s) (g.exit b s) := by
  obtain ⟨blk, hblk⟩ := mem_ids_iff.mp hb
  obtain ⟨blk', hblk', hmimics⟩ := hfg.mimics b blk hblk
  unfold exit
  rw [hblk, hblk']
  exact hmimics.run_same s

/-- A path of the relayed function is one of the function, from where its start leads to. -/
theorem path (hfg : Relayed f g) {x t : Id} (hpath : ReflTransGen g.Edge x t) (ht : t ∈ f.ids) :
    ∀ u, Leads g f.ids x u → ReflTransGen f.Edge u t := by
  induction hpath using ReflTransGen.head_induction_on with
  | refl =>
    intro u hu
    rw [hu.eq_of_mem ht]
  | @head x y hxy _ ih =>
    intro u hu
    obtain ⟨blk', hblk', hy⟩ := hxy
    cases hu with
    | here hx =>
      -- An old block: its edge comes from an old one.
      obtain ⟨blk, hblk⟩ := mem_ids_iff.mp hx
      obtain ⟨blk'', hblk'', hmimics⟩ := hfg.mimics _ _ hblk
      rw [hblk'] at hblk''
      cases hblk''
      obtain ⟨v, hv, hlead⟩ := hmimics.exists_edge hy
      exact .head ⟨blk, hblk, hv⟩ (ih v hlead)
    | @relay _ n _ blk rest hx hblk hjmp hn =>
      rw [hblk'] at hblk
      cases hblk
      rw [hjmp] at hy
      have hyn : y = n := by simpa [edges] using hy
      exact ih u (hyn ▸ hn)

end Relayed

end BpfCapsule.Flatten

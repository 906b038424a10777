import BpfCapsule.Flatten.Rounds
import BpfCapsule.Lib.Check

/-!
# BpfCapsule — how far branches span

The requests of a layout are valid ones, so every round keeps the control flow; and where a layout has
none, every branch of it is within its limit and no conditional branch goes backwards.
-/

namespace BpfCapsule.Flatten

open MachineFunction
open Check (bind_eq_ok)

variable {σ : Type} {llvm : FallThrough σ}

/-! ## Offsets -/

theorem blockSlots_append (is is' : List (Inst σ)) :
    blockSlots (is ++ is') = blockSlots is + blockSlots is' := by
  simp [blockSlots]

theorem blockSlots_cons (i : Inst σ) (is : List (Inst σ)) :
    blockSlots (i :: is) = instructionSlots i + blockSlots is := by
  simp [blockSlots]

theorem blockSlots_nonneg (instrs : List (Inst σ)) : 0 ≤ blockSlots instrs := by
  induction instrs with
  | nil => exact Int.le_refl _
  | cons i is ih =>
    rw [blockSlots_cons]
    omega

theorem ids_layoutOffsets (f : MachineFunction σ) (offset : Int) :
    (layoutOffsets offset f).map Prod.fst = f.ids := by
  induction f generalizing offset with
  | nil => rfl
  | cons blk f ih => exact congrArg (blk.id :: ·) (ih _)

theorem totalSlots_cons (blk : Block σ) (f : MachineFunction σ) :
    totalSlots (blk :: f) = blockSlots blk.instrs + totalSlots f := by
  simp [totalSlots]

theorem totalSlots_nonneg (f : MachineFunction σ) : 0 ≤ f.totalSlots := by
  induction f with
  | nil => exact Int.le_refl _
  | cons blk f ih =>
    rw [totalSlots_cons]
    have := blockSlots_nonneg blk.instrs
    omega

variable {f : MachineFunction σ} {b : Id}

theorem mem_ids_of_layoutOffsets {offset o : Int} (h : (b, o) ∈ layoutOffsets offset f) :
    b ∈ f.ids := by
  rw [← ids_layoutOffsets f offset]
  exact List.mem_map.mpr ⟨(b, o), h, rfl⟩

theorem le_of_mem_layoutOffsets {offset o : Int} (h : (b, o) ∈ layoutOffsets offset f) :
    offset ≤ o ∧ o ≤ offset + f.totalSlots := by
  induction f generalizing offset with
  | nil => simp [layoutOffsets] at h
  | cons blk f ih =>
    have hslots := blockSlots_nonneg blk.instrs
    have htotal := totalSlots_nonneg f
    rw [totalSlots_cons]
    rcases List.mem_cons.mp h with h | h
    · cases h
      omega
    · have := ih h
      omega

/-- The first block is the only one with its id, so no other offset is its own. -/
theorem exists_layoutNext_of_offset (hf : f.ids.Nodup) {o : Int} (h : (b, o) ∈ layoutOffsets 0 f)
    (ho : 0 < o) : ∃ p, f.layoutNext p = some b := by
  have hb := mem_ids_of_layoutOffsets h
  cases f with
  | nil => simp [layoutOffsets] at h
  | cons blk f =>
    rcases List.mem_cons.mp h with h | h
    · cases h
      omega
    · have hne : blk.id ≠ b := fun heq =>
        (List.nodup_cons.mp hf).1 (heq ▸ mem_ids_of_layoutOffsets h)
      exact Sequence.exists_next_eq hf hb (by simpa [ids] using hne)

theorem mem_layoutOffsets_blockOffset (hb : b ∈ f.ids) :
    (b, f.blockOffset b) ∈ layoutOffsets 0 f := by
  unfold blockOffset
  cases h : (layoutOffsets 0 f).lookup b with
  | none =>
    rw [← ids_layoutOffsets f 0] at hb
    obtain ⟨entry, hentry, rfl⟩ := List.mem_map.mp hb
    simpa using List.lookup_eq_none_iff.mp h entry hentry
  | some o => exact Round.lookup_mem h

theorem blockOffset_nonneg (f : MachineFunction σ) (b : Id) : 0 ≤ f.blockOffset b := by
  unfold blockOffset
  cases h : (layoutOffsets 0 f).lookup b with
  | none => exact Int.le_refl _
  | some o => exact (le_of_mem_layoutOffsets (Round.lookup_mem h)).1

/-! ## Valid requests -/

def Config.StepFits (config : Config) : Prop :=
  config.v4 = false → config.v3RelayStep < config.v3EncodableSpan

section

variable {config : Config}

variable {source : Int} {fuel index : Nat} {blk : Block σ} {inst : Inst σ}

theorem relayBoundary_spec {layout : List (Id × Int)} {next : Int} {forward : Bool}
    (h : relayBoundary config layout source forward = some (b, next)) :
    (b, next) ∈ layout ∧ (forward = true → source < next) ∧
      (forward = false → source - config.v3RelayStep ≤ next ∧ next < source) := by
  unfold relayBoundary at h
  cases forward with
  | true =>
    simp only [↓reduceIte] at h
    split at h
    next upper hupper =>
      split at h
      · cases h
      · cases h
        have hmem := List.mem_of_getLast? hupper
        exact ⟨(List.takeWhile_prefix _).subset hmem, fun _ => by omega, nofun⟩
    next => cases h
  | false =>
    simp only [Bool.false_eq_true, ↓reduceIte] at h
    split at h
    next lower hlower =>
      have hle := List.find?_some hlower
      simp only [decide_eq_true_eq] at hle
      split at h
      · cases h
      · cases h
        exact ⟨List.mem_of_find?_eq_some hlower, nofun, fun _ => ⟨hle, by omega⟩⟩
    next => cases h

/-- The boundaries of a chain are blocks with a block before them: going forward they lie after the
source, and going backwards a step never reaches the beginning. -/
theorem appendV3Chain_spec (hf : f.ids.Nodup)
    (hstep : config.v3RelayStep < config.v3EncodableSpan) {destination : Int}
    (hdestination : 0 ≤ destination) (hsource : 0 ≤ source) {chain : List (Option Id)}
    (h : appendV3Chain config (layoutOffsets 0 f) destination fuel source = .ok chain) :
    ∀ b, some b ∈ chain → ∃ p, f.layoutNext p = some b := by
  induction fuel generalizing source chain with
  | zero => simp [appendV3Chain] at h
  | succ fuel ih =>
    simp only [appendV3Chain] at h
    split at h
    · cases h
      simp
    next hspan =>
      split at h
      · cases h
      next before next hboundary =>
        obtain ⟨hmem, hforward, hbackward⟩ := relayBoundary_spec hboundary
        -- no relay goes before the first block
        have hpos : 0 < next := by
          simp only [Bool.and_eq_true, decide_eq_true_eq, not_and] at hspan
          by_cases hspan' : 0 < destination - source - 1
          · have := hforward (by simpa using hspan')
            omega
          · have := hbackward (by simpa using hspan')
            omega
        split at h
        · cases h
        · cases hrest : appendV3Chain config (layoutOffsets 0 f) destination fuel next with
          | error e =>
            rw [hrest] at h
            cases h
          | ok rest =>
            rw [hrest] at h
            cases h
            intro b hb
            rcases List.mem_cons.mp hb with hb | hb
            · cases hb
              exact exists_layoutNext_of_offset hf hmem hpos
            · exact ih (Int.le_of_lt hpos) hrest b hb

theorem map_eq_ok {ε α β : Type} {x : Except ε α} {k : α → β} {b : β} (h : x.map k = .ok b) :
    ∃ a, x = .ok a ∧ k a = b := by
  cases x with
  | error e => cases h
  | ok a => exact ⟨a, rfl, Except.ok.inj h⟩

theorem closed_of_jmp (hblk : f.block? b = some blk) (hinst : inst ∈ blk.instrs) {t : Id}
    (ht : inst.target? = some t) (hcond : inst.isConditionalBranch = false) : f.Closed b := by
  intro blk' hblk'
  rw [hblk] at hblk'
  cases hblk'
  cases inst with
  | jmp u => exact open_eq_false_of_jmp hinst
  | cond c u => simp [Inst.isConditionalBranch] at hcond
  | _ => cases ht

theorem request_valid (hf : Ready f) (hconfig : config.StepFits) {rq : Request}
    (hblk : f.block? b = some blk) (hinst : inst ∈ blk.instrs) (hsource : 0 ≤ source)
    (h : request config fuel f b index source inst = .ok (some rq)) : Round.Valid f rq := by
  have hb : b ∈ f.ids := mem_of_block? hblk
  unfold request at h
  split at h
  · cases h
  split at h
  · cases h
  next hv4 =>
  split at h
  · cases h
  next target htarget =>
  have hmem : target ∈ f.ids := hf.targets b blk inst target hblk hinst htarget
  split at h
  · cases h
  split at h
  next hcond =>
    -- A conditional branch: the first boundary is the end of its own block.
    have hfirst : ∀ b', some b' = f.layoutNext b → ∃ p, f.layoutNext p = some b' :=
      fun b' hb' => ⟨b, hb'.symm⟩
    split at h
    · cases h
      refine ⟨hb, hmem, fun b' hb' => hfirst b' ?_, .inr rfl⟩
      simpa using hb'
    next hv3 =>
      have hv3' : config.v4 = false := by simpa using hv3
      obtain ⟨chain, hchain, hrq⟩ := map_eq_ok h
      cases hrq
      refine ⟨hb, hmem, fun b' hb' => ?_, .inr rfl⟩
      rcases List.mem_cons.mp hb' with hb' | hb'
      · exact hfirst b' hb'
      · refine appendV3Chain_spec hf.nodup (hconfig hv3') (blockOffset_nonneg f _) ?_ hchain b' hb'
        split
        · exact blockOffset_nonneg f _
        · exact totalSlots_nonneg f
  next hcond =>
    have hcond' : inst.isConditionalBranch = false := by simpa using hcond
    have hv3 : config.v4 = false := by simpa [hcond'] using hv4
    obtain ⟨chain, hchain, hrq⟩ := map_eq_ok h
    cases hrq
    exact ⟨hb, hmem, appendV3Chain_spec hf.nodup (hconfig hv3) (blockOffset_nonneg f _) hsource hchain,
      .inl (closed_of_jmp hblk hinst htarget hcond')⟩

theorem near_of_request {t : Id} (ht : inst.target? = some t)
    (h : request config fuel f b index source inst = .ok none) :
    near config f inst source t = true ∨ config.v4 = true ∧ inst.isConditionalBranch = false := by
  have hbranch : inst.isBranch = true := by cases inst <;> first | rfl | cases ht
  unfold request at h
  rw [hbranch, ht] at h
  simp only [Bool.not_true, Bool.false_eq_true, ↓reduceIte] at h
  split at h
  next hv4 => exact .inr (by simpa using hv4)
  next =>
    split at h
    next hnear => exact .inl hnear
    next =>
      split at h
      · split at h
        · cases h
        · obtain ⟨_, _, hrq⟩ := map_eq_ok h
          cases hrq
      · obtain ⟨_, _, hrq⟩ := map_eq_ok h
        cases hrq

/-- The requests of a block are valid; if there are none, its branches are near. -/
theorem blockRequests_spec (hf : Ready f) (hconfig : config.StepFits)
    (hblk : f.block? b = some blk) {is : List (Inst σ)} (his : ∀ i ∈ is, i ∈ blk.instrs)
    (hsource : 0 ≤ source) {rs : List Request}
    (h : blockRequests config fuel f b index source is = .ok rs) :
    (∀ rq ∈ rs, Round.Valid f rq) ∧ (rs = [] → ∀ pre i post t, is = pre ++ i :: post →
      i.target? = some t → near config f i (source + blockSlots pre) t = true ∨
        config.v4 = true ∧ i.isConditionalBranch = false) := by
  induction is generalizing index source rs with
  | nil =>
    cases h
    exact ⟨by simp, fun _ pre i post t hsplit => by simp at hsplit⟩
  | cons inst is ih =>
    unfold blockRequests at h
    obtain ⟨first, hfirst, h⟩ := bind_eq_ok.mp h
    obtain ⟨others, hothers, h⟩ := bind_eq_ok.mp h
    cases h
    obtain ⟨hvalid, hnear⟩ := ih (fun i hi => his i (List.mem_cons_of_mem _ hi))
      (by omega) hothers
    refine ⟨fun rq hrq => ?_, fun hnil pre i post t hsplit ht => ?_⟩
    · rcases List.mem_append.mp hrq with hrq | hrq
      · have hsome : first = some rq := by simpa using hrq
        subst hsome
        exact request_valid hf hconfig hblk (his inst List.mem_cons_self) hsource hfirst
      · exact hvalid rq hrq
    · obtain ⟨hfirst', hothers'⟩ := List.append_eq_nil_iff.mp hnil
      have hnone : first = none := by simpa using hfirst'
      subst hnone
      cases pre with
      | nil =>
        cases hsplit
        have := near_of_request ht hfirst
        simpa [blockSlots] using this
      | cons j pre =>
        cases hsplit
        have := hnear hothers' pre i post t rfl ht
        rwa [blockSlots_cons, ← Int.add_assoc]

theorem requests_spec (hf : Ready f) (hconfig : config.StepFits)
    {g : MachineFunction σ} (hg : ∀ blk ∈ g, f.block? blk.id = some blk) {rs : List Request}
    (h : requests config fuel f g = .ok rs) :
    (∀ rq ∈ rs, Round.Valid f rq) ∧ (rs = [] → ∀ blk ∈ g, ∀ pre i post t,
      blk.instrs = pre ++ i :: post → i.target? = some t →
        near config f i (f.blockOffset blk.id + blockSlots pre) t = true ∨
          config.v4 = true ∧ i.isConditionalBranch = false) := by
  induction g generalizing rs with
  | nil =>
    cases h
    exact ⟨by simp, fun _ blk hblk => by simp at hblk⟩
  | cons blk g ih =>
    obtain ⟨first, hfirst, h⟩ := bind_eq_ok.mp h
    obtain ⟨others, hothers, h⟩ := bind_eq_ok.mp h
    cases h
    obtain ⟨hvalid, hnear⟩ := ih (fun blk' hblk' => hg blk' (List.mem_cons_of_mem _ hblk')) hothers
    obtain ⟨hvalid', hnear'⟩ := blockRequests_spec hf hconfig (hg blk List.mem_cons_self)
      (fun i hi => hi) (blockOffset_nonneg f _) hfirst
    refine ⟨fun rq hrq => ?_, fun hnil blk' hblk' => ?_⟩
    · rcases List.mem_append.mp hrq with hrq | hrq
      · exact hvalid' rq hrq
      · exact hvalid rq hrq
    · obtain ⟨hfirst', hothers'⟩ := List.append_eq_nil_iff.mp hnil
      rcases List.mem_cons.mp hblk' with rfl | hblk'
      · exact hnear' hfirst'
      · exact hnear hothers' blk' hblk'

end

/-! ## Layouts without requests -/

namespace MachineFunction

/-- How far a branch to `t` spans that stands in the block `b` after the instructions `pre`. -/
def span (f : MachineFunction σ) (b : Id) (pre : List (Inst σ)) (t : Id) : Int :=
  f.blockOffset t - (f.blockOffset b + blockSlots pre) - 1

end MachineFunction

/-- Every branch is within its limit. Spans are in the slots the pass counts (`instructionSlots`), in
which inline assembly takes none. -/
structure Spans (config : Config) (f : MachineFunction σ) : Prop where
  conditional : ∀ b blk pre c t post, f.block? b = some blk → blk.instrs = pre ++ .cond c t :: post →
    0 ≤ f.span b pre t ∧ f.span b pre t ≤ config.conditionalSpan
  unconditional : config.v4 = false → ∀ b blk pre t post, f.block? b = some blk →
    blk.instrs = pre ++ .jmp t :: post →
      -config.v3EncodableSpan ≤ f.span b pre t ∧ f.span b pre t ≤ config.v3EncodableSpan
  /-- A long jump carries what a function of fewer than `2 ^ 31` slots can ask for. -/
  long : config.v4 = true → ∀ b blk pre t post, f.block? b = some blk →
    blk.instrs = pre ++ .jmp t :: post →
      -f.totalSlots ≤ f.span b pre t ∧ f.span b pre t < f.totalSlots

section

variable {config : Config}

theorem le_totalSlots {offset : Int} {blk : Block σ} (h : blk ∈ f) (hf : f.ids.Nodup) {o : Int}
    (ho : (blk.id, o) ∈ layoutOffsets offset f) : o + blockSlots blk.instrs ≤ offset + f.totalSlots := by
  induction f generalizing offset with
  | nil => simp at h
  | cons blk' f ih =>
    have hnodup := List.nodup_cons.mp hf
    rw [totalSlots_cons]
    have htotal := totalSlots_nonneg f
    rcases List.mem_cons.mp h with rfl | h
    · rcases List.mem_cons.mp ho with ho | ho
      · cases ho
        omega
      · exact absurd (mem_ids_of_layoutOffsets ho) hnodup.1
    · rcases List.mem_cons.mp ho with ho | ho
      · have hid : blk.id = blk'.id := congrArg Prod.fst ho
        exact absurd (List.mem_map.mpr ⟨blk, h, hid⟩) hnodup.1
      · have := ih h hnodup.2 ho
        omega

theorem block?_of_mem {blk : Block σ} (hf : f.ids.Nodup) (h : blk ∈ f) :
    f.block? blk.id = some blk := by
  obtain ⟨blk', hblk'⟩ := mem_ids_iff.mp (List.mem_map.mpr ⟨blk, h, rfl⟩)
  have heq : blk' = blk := List.inj_on_of_nodup_map hf (List.mem_of_find?_eq_some hblk') h
    (id_of_block? hblk')
  rw [← heq, id_of_block? hblk', heq] at hblk' ⊢
  exact hblk'

variable {fuel : Nat}

/-- A layout without requests is within the limits. -/
theorem spans_of_requests (hf : Ready f) (hconfig : config.StepFits)
    (h : requests config fuel f f = .ok []) : Spans config f := by
  have hnear := (requests_spec hf hconfig (fun blk hblk => block?_of_mem hf.nodup hblk) h).2 rfl
  have hmem : ∀ {b : Id} {blk : Block σ}, f.block? b = some blk → blk ∈ f ∧ blk.id = b :=
    fun hblk => ⟨List.mem_of_find?_eq_some hblk, id_of_block? hblk⟩
  constructor
  · intro b blk pre c t post hblk hinstrs
    obtain ⟨hblk', rfl⟩ := hmem hblk
    have hspan := hnear blk hblk' pre _ post t hinstrs rfl
    simp only [near, encodableSpan, Inst.isConditionalBranch, Bool.and_eq_true, decide_eq_true_eq,
      ↓reduceIte, Bool.true_and, Bool.not_eq_true', decide_eq_false_iff_not, Bool.true_eq_false,
      and_false, or_false] at hspan
    unfold span
    omega
  · intro hv3 b blk pre t post hblk hinstrs
    obtain ⟨hblk', rfl⟩ := hmem hblk
    have := hnear blk hblk' pre _ post t hinstrs rfl
    simpa [near, encodableSpan, Inst.isConditionalBranch, span, hv3] using this
  · intro hv4 b blk pre t post hblk hinstrs
    obtain ⟨hblk', rfl⟩ := hmem hblk
    have htarget : t ∈ f.ids := hf.targets _ blk (.jmp t) t hblk (by simp [hinstrs]) rfl
    have hdestination := le_of_mem_layoutOffsets (mem_layoutOffsets_blockOffset htarget)
    have hend := le_totalSlots hblk' hf.nodup
      (mem_layoutOffsets_blockOffset (mem_of_block? hblk))
    have hsource := blockOffset_nonneg f blk.id
    have hpre := blockSlots_nonneg pre
    have hpost := blockSlots_nonneg post
    rw [hinstrs, blockSlots_append, blockSlots_cons] at hend
    simp only [instructionSlots] at hend
    unfold span
    omega

theorem relaxRounds_spec (hf : Ready f) (hconfig : config.StepFits)
    {g : MachineFunction σ} (h : relaxRounds llvm config fuel f = .ok g) :
    Ready g ∧ Relayed f g ∧ Spans config g := by
  induction fuel generalizing f with
  | zero => cases h
  | succ fuel ih =>
    obtain ⟨rs, hrs, h⟩ := bind_eq_ok.mp h
    cases rs with
    | nil =>
      cases h
      exact ⟨hf, .refl hf.edges, spans_of_requests hf hconfig hrs⟩
    | cons rq rs =>
      have hvalid := (requests_spec hf hconfig (fun blk hblk => block?_of_mem hf.nodup hblk) hrs).1
      obtain ⟨hready, hrelayed⟩ := relayRound_spec hf hvalid
      obtain ⟨hg, hrelayed', hspans⟩ := ih hready h
      exact ⟨hg, hrelayed.trans hrelayed', hspans⟩

/-- Relaxation keeps the control flow and puts every branch within its limit. -/
theorem relax_spec (hf : Ready f) {g : MachineFunction σ}
    (h : relaxFlattenedBranches llvm config fuel f = .ok g) :
    Ready g ∧ Relayed f g ∧ Spans config g := by
  unfold relaxFlattenedBranches at h
  split at h
  · cases h
  split at h
  · cases h
  next hsteps =>
    refine relaxRounds_spec hf (fun hv3 => ?_) h
    simp only [hv3, Bool.not_false, Bool.true_and, Bool.or_eq_true, decide_eq_true_eq] at hsteps
    omega

end

end BpfCapsule.Flatten

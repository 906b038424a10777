import BpfCapsule.Stackify.StackMachine

/-!
# BpfCapsule — every frame stays in its slice

The invariant of the software stack. A fiber's activations form a chain (`Chain`): each one's
outgoing area ends at the frontier of its caller, whose frame base lies at or above the reserve
floor, and its linkage words name that caller. The floor leaves room for the largest outgoing area
above the transient reserve, so a call needs no check of its own; the prologue and the carve check
before `sp` moves (`prologue_some`, `carve_some`).

What the invariant says about memory it says about the linkage words and the frontier snapshots, so
every other store keeps it (`FiberOk.congr`).
-/

namespace BpfCapsule.Stackify

open Placement

variable {τ : Type} {M : Machine τ} {i : Nat}

/-! ## Slices and addresses -/

namespace Machine

variable (M)

theorem laid : M.program.Laid M.dl M.S M.layout := (layOut_ok M.accepted).1

theorem align_dvd_size : M.layout.frameAlignment ∣ M.S.size := by
  obtain ⟨k, hk⟩ := M.laid.align_pow
  have hle := M.laid.align_le
  rw [hk] at hle ⊢
  exact Nat.pow_dvd_pow 2 ((Nat.pow_le_pow_iff_right (by omega)).mp hle)

theorem size_dvd_base (i : Nat) : M.S.size ∣ M.base i := by
  have hwindow : M.S.size ∣ M.bank.window :=
    Nat.dvd_trans (Nat.pow_dvd_pow 2 (by have := M.S.shift_le; omega)) M.bank.window_dvd
  exact Nat.dvd_add (Nat.dvd_add hwindow M.bank.offset_dvd) (Nat.dvd_mul_left _ _)

theorem align_dvd_base (i : Nat) : M.layout.frameAlignment ∣ M.base i :=
  Nat.dvd_trans M.align_dvd_size (M.size_dvd_base i)

theorem base_add_le (hi : i < M.bank.fibers) : M.base i + M.S.size + 2 ^ 32 ≤ 2 ^ 64 := by
  have hmul : (i + 1) * M.S.size ≤ M.bank.fibers * M.S.size := Nat.mul_le_mul_right _ hi
  have hfits := M.bank.fits
  have hwindow := M.bank.window_le
  rw [Nat.add_mul, Nat.one_mul] at hmul
  show M.bank.window + M.bank.offset + i * M.S.size + M.S.size + 2 ^ 32 ≤ 2 ^ 64
  omega

theorem slices_disjoint {j : Nat} (hij : i < j) : M.base i + M.S.size ≤ M.base j := by
  have hmul : (i + 1) * M.S.size ≤ j * M.S.size := Nat.mul_le_mul_right _ hij
  rw [Nat.add_mul, Nat.one_mul] at hmul
  show M.bank.window + M.bank.offset + i * M.S.size + M.S.size ≤
    M.bank.window + M.bank.offset + j * M.S.size
  omega

def InSlice (i a : Nat) : Prop := M.base i ≤ a ∧ a < M.base i + M.S.size

variable {a : Nat}

theorem sliceOffset_eq (ha : M.InSlice i a) : M.sliceOffset a = a - M.base i := by
  have hmod : M.sliceOffset a = a % M.S.size := Nat.and_two_pow_sub_one_eq_mod a M.S.shift
  obtain ⟨k, hk⟩ := M.size_dvd_base i
  have hsplit : a = a - M.base i + M.S.size * k := by have := ha.1; omega
  rw [hmod]
  conv_lhs => rw [hsplit]
  rw [Nat.add_mul_mod_self_left, Nat.mod_eq_of_lt (by have := ha.2; omega)]

theorem sliceOffset_of_lt (ha : a < M.S.size) : M.sliceOffset a = a :=
  (Nat.and_two_pow_sub_one_eq_mod a M.S.shift).trans (Nat.mod_eq_of_lt ha)

theorem stackPtr_eq (hi : i < M.bank.fibers) : M.stackPtr i a = M.base i + M.sliceOffset a := by
  have hle := M.base_add_le hi
  have hlt : M.sliceOffset a < M.S.size := by
    rw [sliceOffset, Slice.size, Nat.and_two_pow_sub_one_eq_mod]
    exact Nat.mod_lt _ (Nat.two_pow_pos _)
  have hbase : M.base i = M.bank.window + M.bank.offset + i * M.S.size := rfl
  have hinner : Word.add 64 (i * M.S.size) (M.sliceOffset a) = i * M.S.size + M.sliceOffset a :=
    Word.add_eq (by omega)
  unfold Machine.stackPtr
  rw [Word.mul_eq (by omega), hinner, Word.add_eq (by omega)]
  omega

theorem framePointer_eq (hi : i < M.bank.fibers) (ha : M.InSlice i a) : M.framePointer i a = a := by
  unfold framePointer
  split
  · rfl
  · rw [M.stackPtr_eq hi, M.sliceOffset_eq ha]
    have := ha.1
    omega

end Machine

/-! ## Managed functions of an accepted program -/

namespace Machine.Managed

variable {f : Nat} {fn : Function τ} {info : FrameInfo} {view : ManagedCallLayout}
  (h : M.Managed f fn info view)

include h

theorem mem : fn ∈ M.program.managed := List.mem_of_getElem? h.fn

theorem frame : info.Of M.dl M.S M.layout.frameAlignment fn ∧
    M.layout.reserveFloor + info.frameSize ≤ M.layout.rootFp := by
  have hframes := M.laid.frames
  obtain ⟨hlt, hget⟩ := List.getElem?_eq_some_iff.mp h.fn
  obtain ⟨hlt', hget'⟩ := List.getElem?_eq_some_iff.mp h.info
  have := hframes.get hlt hlt'
  simpa only [List.get_eq_getElem, hget, hget'] using this

theorem layout : ∃ F,
    layoutCall M.dl M.S F fn.name fn.returnType (fn.args.map Operand.callValue) = .ok view := by
  obtain ⟨-, F, hviews⟩ := layOut_ok M.accepted
  exact ⟨F, Check.getElem?_of_mapM_eq_ok hviews h.fn h.view⟩

theorem unique {fn' : Function τ} {info' : FrameInfo} {view' : ManagedCallLayout}
    (h' : M.Managed f fn' info' view') :
    fn = fn' ∧ info = info' ∧ view = view' :=
  ⟨Option.some.inj (h.fn.symm.trans h'.fn), Option.some.inj (h.info.symm.trans h'.info),
    Option.some.inj (h.view.symm.trans h'.view)⟩

end Machine.Managed

/-- In an accepted program every managed function has a frame and a view. -/
theorem exists_managed {f : Nat} {fn : Function τ} (h : M.program.managed[f]? = some fn) :
    ∃ info view, M.Managed f fn info view := by
  obtain ⟨hlt, -⟩ := List.getElem?_eq_some_iff.mp h
  obtain ⟨-, F, hviews⟩ := layOut_ok M.accepted
  have hframes : f < M.layout.frames.length := M.laid.frames.length_eq ▸ hlt
  have hlen : M.views.length = M.program.managed.length := Check.length_of_mapM_eq_ok hviews
  exact ⟨_, _, h, List.getElem?_eq_getElem hframes, List.getElem?_eq_getElem (hlen ▸ hlt)⟩

/-! ## The invariant -/

section

variable (M : Machine τ) (i : Nat) (m : Mem)

/-- A value of an activation's frontier: at or above the floor, at or below the local frame, and
the frame base itself where the function never moves `sp`. -/
structure Frontier (fn : Function τ) (info : FrameInfo) (fp v : Nat) : Prop where
  floor : M.base i + M.layout.reserveFloor ≤ v
  le : v + info.frameSize ≤ fp
  dvd : M.layout.frameAlignment ∣ v
  static : fn.dynamicSp = false → v + info.frameSize = fp

/-- What holds of one activation, whoever called it. -/
structure ActivationOk (a : Activation) (fn : Function τ) (info : FrameInfo)
    (view : ManagedCallLayout) : Prop where
  managed : M.Managed a.fn fn info view
  view_le : view.argsEnd ≤ a.out
  dvd : M.layout.frameAlignment ∣ a.fp
  low : M.base i + M.S.transientReserve ≤ a.fp
  high : a.fp + a.out ≤ M.base i + M.S.size
  claimed : a.claimed = true → M.base i + M.layout.reserveFloor + info.frameSize ≤ a.fp
  saves : ∀ j v, a.saves j = some v → a.claimed = true ∧ Frontier M i fn info a.fp v ∧
    ∃ start, a.Slot M j .stackSave start ∧ M.load64 m start = v
  jumps : ∀ jump ∈ a.jumps, a.claimed = true ∧ Frontier M i fn info a.fp jump.sp ∧
    jump.fp = a.fp ∧ a.Slot M jump.inst .setjmp jump.result
  blocks : ∀ b ∈ a.blocks, a.claimed = true ∧ fn.dynamicSp = true ∧
    M.base i + M.layout.reserveFloor ≤ b.start ∧ b.start + b.bytes + info.frameSize ≤ a.fp
  ordered : a.blocks.Pairwise fun b c => b.start + b.bytes ≤ c.start

/-- The frontier an activation has now: no block of it starts below. -/
structure Live (a : Activation) (fn : Function τ) (info : FrameInfo) (v : Nat) : Prop extends
    Frontier M i fn info a.fp v where
  clear : ∀ b ∈ a.blocks, v ≤ b.start

structure Linked (a : Activation) (savedFp : Nat) (returnTo : Pos) : Prop where
  savedFp : M.load64 m a.fp = savedFp
  region : M.load32 m (a.fp + 8) = M.regionId returnTo

inductive Chain : List Activation → Prop where
  | root {a : Activation} {fn : Function τ} {info : FrameInfo} {view : ManagedCallLayout}
      (hok : ActivationOk M i m a fn info view) (hreturn : a.returnTo = .done)
      (hlink : Linked M m a 0 .done) : Chain [a]
  | call {a b : Activation} {rest : List Activation} {fn gn : Function τ} {info ginfo : FrameInfo}
      {view gview : ManagedCallLayout} {j : Nat} {site : CallSite τ} {l : ManagedCallLayout}
      (hok : ActivationOk M i m a gn ginfo gview) (hrest : Chain (b :: rest))
      (hclaimed : b.claimed = true) (hb : M.Managed b.fn fn info view)
      (hj : fn.body[j]? = some (.call site))
      (hl : M.callLayout site fn.name = .ok l) (hout : a.out = l.size)
      (hfront : Live M i b fn info (a.fp + a.out)) (hreturn : a.returnTo = .afterCall b.fn j)
      (hlink : Linked M m a b.fp (.afterCall b.fn j)) : Chain (a :: b :: rest)

structure Running (x : FiberState) (f : Nat) (a : Activation) (rest : List Activation)
    (fn : Function τ) (info : FrameInfo) (view : ManagedCallLayout) : Prop where
  frames : x.frames = a :: rest
  fp : x.fp = a.fp
  index : a.fn = f
  managed : M.Managed f fn info view
  claimed : a.claimed = true

/-- What holds of `sp`, `fp` and the top of the chain at a position. A function that never moves
`sp` and never saves it for a jump leaves `sp` where the last callee put it. -/
def PosOk (x : FiberState) : Prop :=
  match x.pos with
  | .done => x.frames = []
  | .overflow => ∃ a rest, x.frames = a :: rest ∧ x.fp = a.fp
  | .entry f => ∃ a rest, x.frames = a :: rest ∧ x.fp = a.fp ∧ a.fn = f ∧ a.claimed = false
  | .body f => ∃ a rest fn info view, Running M x f a rest fn info view ∧
      (fn.dynamicSp = true ∨ fn.hasSetjmp = true → Live M i a fn info x.sp)
  | .afterSetjmp f j => ∃ a rest fn info view, Running M x f a rest fn info view ∧
      Live M i a fn info x.sp ∧ fn.body[j]? = some .setjmp
  | .afterCall f j => ∃ a rest fn info view, Running M x f a rest fn info view ∧
      ∃ site l c, fn.body[j]? = some (.call site) ∧
        M.callLayout site fn.name = .ok l ∧ x.sp = c + linkageBytes ∧
        M.base i + M.S.transientReserve ≤ c ∧ Live M i a fn info (c + l.size)

structure FiberOk (x : FiberState) : Prop where
  pos : PosOk M i x
  chain : x.frames ≠ [] → Chain M i m x.frames
  sp : x.frames ≠ [] → M.base i + M.S.transientReserve ≤ x.sp ∧ x.sp < M.base i + M.S.size

end

/-! ## Where the bytes of an activation lie -/

section

variable {m m' : Mem} {a b : Activation} {fn : Function τ} {info : FrameInfo}
  {view : ManagedCallLayout}

variable {f j start y sp : Nat} {inst : Inst τ} {l rest : List Activation} {x : FiberState}

theorem linkageBytes_le_argsEnd (h : M.Managed f fn info view) : linkageBytes ≤ view.argsEnd := by
  obtain ⟨F, hview⟩ := h.layout
  exact (layoutCall_ok hview).placed.le

theorem ActivationOk.linkage_le (h : ActivationOk M i m a fn info view) : linkageBytes ≤ a.out :=
  Nat.le_trans (linkageBytes_le_argsEnd h.managed) h.view_le

theorem item_at (hinst : fn.body[j]? = some inst) :
    (fn.body.map (Inst.item M.dl M.S))[j]? = some (inst.item M.dl M.S) := by
  rw [List.getElem?_map, hinst]
  rfl

/-- The slot of an instruction ends inside the local frame. -/
theorem Machine.Managed.slot_le (h : M.Managed f fn info view) {offset : Nat}
    (hinst : fn.body[j]? = some inst) (hoffset : info.offsets[j]? = some offset) :
    offset + (inst.item M.dl M.S).bytes ≤ info.frameSize := by
  obtain ⟨last, hlast, hplaced⟩ := h.frame.1.placed
  exact Nat.le_trans (hplaced.slot (item_at hinst) hoffset).2.2 hlast

theorem Activation.Slot.placed (h : a.Slot M j inst start) (hf : M.Managed a.fn fn info view) :
    fn.body[j]? = some inst ∧ ∃ offset, info.offsets[j]? = some offset ∧
      start + info.frameSize = a.fp + offset := by
  obtain ⟨fn', info', offset, hfn, hinfo, hinst, -, hoffset, hstart⟩ := h
  cases Option.some.inj (hf.fn.symm.trans hfn)
  cases Option.some.inj (hf.info.symm.trans hinfo)
  exact ⟨hinst, offset, hoffset, hstart⟩

namespace ActivationOk

variable (h : ActivationOk M i m a fn info view)

include h

/-- A hidden slot lies inside the local frame. -/
theorem slot_bounds
    (hslot : a.Slot M j inst start) (hclaimed : a.claimed = true) :
    M.base i + M.layout.reserveFloor ≤ start ∧ a.fp ≤ start + info.frameSize ∧
      start + (inst.item M.dl M.S).bytes ≤ a.fp := by
  obtain ⟨hinst, offset, hoffset, hstart⟩ := hslot.placed h.managed
  have := h.managed.slot_le hinst hoffset
  have := h.claimed hclaimed
  exact ⟨by omega, by omega, by omega⟩

theorem slot_disjoint {j' start' : Nat}
    {inst' : Inst τ} (hslot : a.Slot M j inst start) (hslot' : a.Slot M j' inst' start')
    (hne : j ≠ j') : start + (inst.item M.dl M.S).bytes ≤ start' ∨
      start' + (inst'.item M.dl M.S).bytes ≤ start := by
  obtain ⟨hinst, offset, hoffset, hstart⟩ := hslot.placed h.managed
  obtain ⟨hinst', offset', hoffset', hstart'⟩ := hslot'.placed h.managed
  obtain ⟨last, -, hplaced⟩ := h.managed.frame.1.placed
  rcases Nat.lt_or_gt_of_ne hne with hlt | hlt
  · have := hplaced.ordered hlt (item_at hinst) hoffset hoffset'
    exact .inl (by omega)
  · have := hplaced.ordered hlt (item_at hinst') hoffset' hoffset
    exact .inr (by omega)

/-- Owned bytes lie in the slice above the transient reserve, and at or above the frame base. -/
theorem owns_bounds
    (hy : a.Owns M y) : M.base i + M.S.transientReserve ≤ y ∧ y < a.fp + linkageBytes ∧
      (a.claimed = false → a.fp ≤ y) ∧ a.fp ≤ y + info.frameSize := by
  have hlow := h.low
  have hfloor := M.laid.floor_ge
  rcases hy with ⟨hle, hlt⟩ | ⟨hclaimed, j, inst, start, hslot, hle, hlt⟩
  · exact ⟨by omega, hlt, fun _ => hle, by omega⟩
  · have hbounds := h.slot_bounds hslot hclaimed
    exact ⟨by omega, by omega, fun hnot => absurd hclaimed (by rw [hnot]; decide), by omega⟩

theorem owns_inSlice (hy : a.Owns M y) : M.InSlice i y := by
  obtain ⟨hlow, hlt, -, -⟩ := h.owns_bounds hy
  have := h.linkage_le
  have := h.high
  exact ⟨by omega, by omega⟩

end ActivationOk

/-! ## The bytes the invariant is about -/

def Activation.Relies (M : Machine τ) (a : Activation) (y : Nat) : Prop :=
  (a.fp ≤ y ∧ y < a.fp + linkageBytes) ∨
    a.claimed = true ∧ ∃ j start, a.Slot M j .stackSave start ∧ start ≤ y ∧ y < start + 8

theorem Activation.Relies.owns (h : a.Relies M y) : a.Owns M y := by
  rcases h with hlink | ⟨hclaimed, j, start, hslot, hy⟩
  · exact .inl hlink
  · exact .inr ⟨hclaimed, j, .stackSave, start, hslot, hy⟩

variable {c : Activation}

theorem Linked.congr {savedFp : Nat} {returnTo : Pos} (hfp : c.fp = a.fp)
    (hkeep : ∀ y, a.fp ≤ y → y < a.fp + linkageBytes → m' y = m y)
    (h : Linked M m a savedFp returnTo) : Linked M m' c savedFp returnTo := by
  have hlink : ∀ k < linkageBytes, m' (a.fp + k) = m (a.fp + k) :=
    fun k hk => hkeep _ (by omega) (by omega)
  have hbytes : linkageBytes = 16 := rfl
  constructor
  · rw [← h.savedFp, hfp]
    exact Bytes.load_congr fun k hk => hlink k (by omega)
  · rw [← h.region, hfp]
    apply Bytes.load_congr
    intro k hk
    rw [Nat.add_assoc]
    exact hlink (8 + k) (by omega)

theorem ActivationOk.congr (hkeep : ∀ y, a.Relies M y → m' y = m y)
    (h : ActivationOk M i m a fn info view) : ActivationOk M i m' a fn info view :=
  { h with
    saves := by
      intro j v hv
      obtain ⟨hclaimed, hfront, start, hslot, hload⟩ := h.saves j v hv
      refine ⟨hclaimed, hfront, start, hslot, hload ▸ ?_⟩
      exact Bytes.load_congr fun k hk =>
        hkeep _ (.inr ⟨hclaimed, j, start, hslot, by omega, by omega⟩) }

/-- A chain survives every change to bytes it does not rely on. -/
theorem Chain.congr (hkeep : ∀ a ∈ l, ∀ y, a.Relies M y → m' y = m y) (h : Chain M i m l) :
    Chain M i m' l := by
  induction h with
  | root hok hreturn hlink =>
    have hown := hkeep _ List.mem_cons_self
    exact .root (hok.congr hown) hreturn (hlink.congr rfl fun y hle hlt => hown y (.inl ⟨hle, hlt⟩))
  | call hok _ hclaimed hb hj hl hout hfront hreturn hlink ih =>
    have hown := hkeep _ List.mem_cons_self
    exact .call (hok.congr hown) (ih fun b hb => hkeep b (List.mem_cons_of_mem _ hb)) hclaimed hb hj hl
      hout hfront hreturn (hlink.congr rfl fun y hle hlt => hown y (.inl ⟨hle, hlt⟩))

theorem FiberOk.congr (hkeep : ∀ a ∈ x.frames, ∀ y, a.Relies M y → m' y = m y)
    (h : FiberOk M i m x) : FiberOk M i m' x :=
  ⟨h.pos, fun hne => (h.chain hne).congr hkeep, h.sp⟩

/-! ## The chain -/

theorem Chain.head (h : Chain M i m (a :: rest)) :
    ∃ fn info view, ActivationOk M i m a fn info view := by
  cases h with
  | root hok => exact ⟨_, _, _, hok⟩
  | call hok => exact ⟨_, _, _, hok⟩

theorem Chain.head_ok (h : Chain M i m (a :: rest)) (hf : M.Managed a.fn fn info view) :
    ActivationOk M i m a fn info view := by
  obtain ⟨fn', info', view', hok⟩ := h.head
  obtain ⟨rfl, rfl, rfl⟩ := hok.managed.unique hf
  exact hok

theorem Running.mem (h : Running M x f a rest fn info view) : a ∈ x.frames := by
  rw [h.frames]
  exact List.mem_cons_self

theorem Running.frames_ne (h : Running M x f a rest fn info view) :
    x.frames ≠ [] := List.ne_nil_of_mem h.mem

/-- The running activation, with the function the position names. -/
theorem Running.ok (h : Running M x f a rest fn info view) (hchain : Chain M i m x.frames) :
    ActivationOk M i m a fn info view := by
  rw [h.frames] at hchain
  exact hchain.head_ok (h.index ▸ h.managed)

namespace Chain

theorem tail (h : Chain M i m (a :: rest)) (hne : rest ≠ []) : Chain M i m rest := by
  cases h with
  | root => exact absurd rfl hne
  | call _ hrest => exact hrest

theorem drop (h : Chain M i m l) {k : Nat} (hk : k < l.length) : Chain M i m (l.drop k) := by
  induction k generalizing l with
  | zero => exact h
  | succ k ih =>
    cases l with
    | nil => exact absurd hk (Nat.not_lt_zero _)
    | cons a rest =>
      have hlt : k < rest.length := Nat.lt_of_succ_lt_succ hk
      exact ih (h.tail (List.ne_nil_of_length_pos (by omega))) hlt

theorem forall_ok (h : Chain M i m l) :
    ∀ a ∈ l, ∃ fn info view, ActivationOk M i m a fn info view := by
  induction h with
  | root hok =>
    intro a ha
    cases List.mem_singleton.mp ha
    exact ⟨_, _, _, hok⟩
  | call hok _ _ _ _ _ _ _ _ _ ih =>
    intro a ha
    rcases List.mem_cons.mp ha with rfl | ha
    · exact ⟨_, _, _, hok⟩
    · exact ih a ha

variable (h : Chain M i m (a :: rest))

include h

/-- The callers of an activation lie above its outgoing area, with their local frames and their
blocks. -/
theorem callers_above :
    ∀ b ∈ rest, ∃ fn info view, ActivationOk M i m b fn info view ∧
      a.fp + a.out + info.frameSize ≤ b.fp ∧ ∀ c ∈ b.blocks, a.fp + a.out ≤ c.start := by
  generalize hl : a :: rest = l at h
  induction h generalizing a rest with
  | root =>
    cases hl
    exact fun b hb => absurd hb List.not_mem_nil
  | call hok hrest hclaimed hb hj hlayout hout hfront hreturn hlink ih =>
    cases hl
    intro c hc
    have hle := hfront.le
    rcases List.mem_cons.mp hc with rfl | hc
    · exact ⟨_, _, _, hrest.head_ok hb, hle, hfront.clear⟩
    · obtain ⟨fn', info', view', hok', habove, hblocks⟩ := ih rfl c hc
      exact ⟨fn', info', view', hok', by omega, fun d hd => by have := hblocks d hd; omega⟩

theorem owns_above : ∀ b ∈ rest, ∀ y, b.Owns M y → a.fp + a.out ≤ y := by
  intro b hb y hy
  obtain ⟨fn, info, view, hok, habove, -⟩ := h.callers_above b hb
  have := (hok.owns_bounds hy).2.2.2
  omega

theorem spans_above : ∀ b ∈ rest, ∀ y, b.Spans M y → a.fp + a.out ≤ y := by
  intro b hb y hy
  obtain ⟨fn, info, view, hok, habove, hblocks⟩ := h.callers_above b hb
  rcases hy with ⟨hle, -⟩ | ⟨-, info', hinfo, hle, -⟩ | ⟨c, hc, hle, -⟩
  · omega
  · cases Option.some.inj (hok.managed.info.symm.trans hinfo)
    omega
  · have := hblocks c hc
    omega

/-- Above a limit below the running frame lie all owned bytes of the fiber. -/
theorem owns_ge (hok : ActivationOk M i m a fn info view)
    {limit : Nat} (hlimit : limit + info.frameSize ≤ a.fp) :
    ∀ b ∈ a :: rest, ∀ y, b.Owns M y → limit ≤ y := by
  intro b hb y hy
  rcases List.mem_cons.mp hb with rfl | hb
  · have := (hok.owns_bounds hy).2.2.2
    omega
  · have := h.owns_above b hb y hy
    omega

/-- The running activation can be updated in place, and its snapshots with it, as long as the linkage
words stay. -/
theorem replaceHead
    (hok : ActivationOk M i m' c fn info view) (hfp : c.fp = a.fp) (hout : c.out = a.out)
    (hreturn : c.returnTo = a.returnTo)
    (hlink : ∀ y, a.fp ≤ y → y < a.fp + linkageBytes → m' y = m y)
    (hkeep : ∀ b ∈ rest, ∀ y, b.Relies M y → m' y = m y) : Chain M i m' (c :: rest) := by
  cases h with
  | root _ hto hl => exact .root hok (hreturn.trans hto) (hl.congr hfp hlink)
  | call _ hrest hclaimed hb hj hlayout hsize hfront hto hl =>
    refine .call hok (hrest.congr hkeep) hclaimed hb hj hlayout (hout.trans hsize) ?_
      (hreturn.trans hto) (hl.congr hfp hlink)
    rw [hfp, hout]
    exact hfront

/-- The running activation can be updated without a store. -/
theorem setHead
    (hok : ActivationOk M i m c fn info view) (hfp : c.fp = a.fp) (hout : c.out = a.out)
    (hreturn : c.returnTo = a.returnTo) : Chain M i m (c :: rest) :=
  h.replaceHead hok hfp hout hreturn (fun _ _ _ => rfl) fun _ _ _ _ => rfl

/-! ## The generated arithmetic, in range -/

end Chain

theorem ActivationOk.inSlice (h : ActivationOk M i m a fn info view) : M.InSlice i a.fp := by
  have := h.linkage_le
  have := h.high
  have := h.low
  have : linkageBytes = 16 := rfl
  exact ⟨by omega, by omega⟩

theorem ActivationOk.lt_word (h : ActivationOk M i m a fn info view) (hi : i < M.bank.fibers) :
    a.fp + a.out + 2 ^ 32 ≤ 2 ^ 64 := by
  have := h.high
  have := M.base_add_le hi
  omega

theorem slot_eq (hi : i < M.bank.fibers) (h : ActivationOk M i m a fn info view)
    (hclaimed : a.claimed = true) {offset : Nat} (hinst : fn.body[j]? = some inst)
    (hhidden : inst.hidden = true) (hoffset : info.offsets[j]? = some offset) :
    a.Slot M j inst (M.slot i info a.fp offset) := by
  have hbase := h.claimed hclaimed
  have hword := h.lt_word hi
  have hend := h.managed.slot_le hinst hoffset
  have hslot : M.slot i info a.fp offset = a.fp + offset - info.frameSize := by
    unfold Machine.slot
    rw [M.framePointer_eq hi h.inSlice]
    exact Word.offset_eq (by omega) (by omega)
  exact ⟨fn, info, offset, h.managed.fn, h.managed.info, hinst, hhidden, hoffset, by omega⟩

theorem Activation.Slot.unique {start' : Nat} {inst' : Inst τ} (h : a.Slot M j inst start)
    (h' : a.Slot M j inst' start') : start = start' := by
  obtain ⟨fn₁, info₁, offset, hfn, hinfo, hinst, -, hoffset, hstart⟩ := h
  obtain ⟨fn₂, info₂, offset', hfn', hinfo', hinst', -, hoffset', hstart'⟩ := h'
  cases Option.some.inj (hinfo.symm.trans hinfo')
  cases Option.some.inj (hoffset.symm.trans hoffset')
  omega

/-- The prologue refuses exactly the frames that would come below the floor. -/
theorem prologue_eq (h : ActivationOk M i m a fn info view) : M.prologue info a.fp =
    if a.fp < M.base i + M.layout.reserveFloor + info.frameSize then none
    else some (Word.sub 64 a.fp info.frameSize) := by
  unfold Machine.prologue
  rw [M.sliceOffset_eq h.inSlice]
  have := h.inSlice.1
  congr 1
  exact propext ⟨fun hlt => by omega, fun hlt => by omega⟩

/-- A claimed frame lies above the reserve floor, and its base is the new frontier. -/
theorem prologue_some (hi : i < M.bank.fibers) (h : ActivationOk M i m a fn info view)
    (hclaim : M.prologue info a.fp = some sp) :
    M.base i + M.layout.reserveFloor + info.frameSize ≤ a.fp ∧ Frontier M i fn info a.fp sp := by
  rw [prologue_eq h] at hclaim
  split at hclaim
  · exact absurd hclaim (by simp)
  · have hword := h.lt_word hi
    have hsub : Word.sub 64 a.fp info.frameSize = a.fp - info.frameSize :=
      Word.sub_eq (by omega) (by omega)
    have hsp : a.fp - info.frameSize = sp := hsub ▸ Option.some.inj hclaim
    refine ⟨by omega, by omega, by omega, ?_, fun _ => by omega⟩
    rw [← hsp]
    exact Nat.dvd_sub h.dvd h.managed.frame.1.dvd

/-- The frame base is the frontier of a function that never moves `sp`, and so carves nothing. -/
theorem frameBase_live (hi : i < M.bank.fibers) (h : ActivationOk M i m a fn info view)
    (hclaimed : a.claimed = true) (hstatic : fn.dynamicSp = false) :
    Live M i a fn info (Word.sub 64 a.fp info.frameSize) := by
  have hword := h.lt_word hi
  have hbase := h.claimed hclaimed
  have hsub : Word.sub 64 a.fp info.frameSize = a.fp - info.frameSize :=
    Word.sub_eq (by omega) (by omega)
  rw [hsub]
  refine ⟨⟨by omega, by omega, Nat.dvd_sub h.dvd h.managed.frame.1.dvd, fun _ => by omega⟩, ?_⟩
  intro b hb
  exact absurd (h.blocks b hb).2.1 (by rw [hstatic]; decide)

/-- The caller's `sp` is its frontier, also where it is derived from `fp`. -/
theorem callerSp_live (hi : i < M.bank.fibers) (h : ActivationOk M i m a fn info view)
    (hclaimed : a.claimed = true)
    (hsp : fn.dynamicSp = true ∨ fn.hasSetjmp = true → Live M i a fn info sp) :
    Live M i a fn info (Machine.callerSp fn info sp a.fp) := by
  unfold Machine.callerSp
  split
  · exact hsp (.inl ‹_›)
  · rename_i hstatic
    exact frameBase_live hi h hclaimed (by simpa using hstatic)

theorem outgoing_le (h : M.Managed f fn info view) {site : CallSite τ} {l : ManagedCallLayout}
    (hj : fn.body[j]? = some (.call site)) (hl : M.callLayout site fn.name = .ok l) :
    l.size + M.S.transientReserve ≤ M.layout.reserveFloor ∧ M.layout.frameAlignment ∣ l.size := by
  have hsite : site ∈ fn.sites :=
    List.mem_filterMap.mpr ⟨_, List.mem_of_getElem? hj, rfl⟩
  obtain ⟨l', hl', hle⟩ := M.laid.outgoing fn h.mem site hsite
  cases Except.ok.inj (hl.symm.trans hl')
  have := M.laid.floor_ge
  exact ⟨by omega, (layoutCall_ok hl).tail.dvd⟩

/-- A call's outgoing area ends at the caller's frontier and stays above the transient reserve. -/
theorem calleeFp_bounds (hi : i < M.bank.fibers) (h : ActivationOk M i m a fn info view)
    (hclaimed : a.claimed = true) {site : CallSite τ} {l : ManagedCallLayout}
    (hsp : fn.dynamicSp = true ∨ fn.hasSetjmp = true → Live M i a fn info sp)
    (hj : fn.body[j]? = some (.call site)) (hl : M.callLayout site fn.name = .ok l) :
    Machine.calleeFp fn info l sp a.fp + l.size = Machine.callerSp fn info sp a.fp ∧
      M.base i + M.S.transientReserve ≤ Machine.calleeFp fn info l sp a.fp ∧
      M.layout.frameAlignment ∣ Machine.calleeFp fn info l sp a.fp ∧
      M.outFrame i fn info l sp a.fp = Machine.calleeFp fn info l sp a.fp := by
  have hfront := callerSp_live hi h hclaimed hsp
  obtain ⟨hsize, hdvd⟩ := outgoing_le h.managed hj hl
  have hword := h.lt_word hi
  have hfloor := hfront.floor
  have hle := hfront.le
  have hfp : Machine.calleeFp fn info l sp a.fp = Machine.callerSp fn info sp a.fp - l.size :=
    Word.sub_eq (by omega) (by omega)
  have hslice : M.InSlice i (Machine.calleeFp fn info l sp a.fp) := by
    have := h.inSlice.2
    exact ⟨by omega, by omega⟩
  refine ⟨by omega, by omega, hfp ▸ Nat.dvd_sub hfront.dvd hdvd, ?_⟩
  unfold Machine.outFrame
  split
  · exact M.framePointer_eq hi hslice
  · rename_i hstatic
    have := hfront.static (by simpa using hstatic)
    rw [M.framePointer_eq hi h.inSlice]
    exact Word.offset_eq (by omega) (by omega)

theorem linkage_ok (m : Mem) {out savedFp : Nat} (returnTo : Pos) (hout : out + linkageBytes ≤ 2 ^ 64)
    (hsaved : savedFp < 2 ^ 64) :
    M.load64 (M.linkage m out savedFp returnTo) out = savedFp ∧
      M.load32 (M.linkage m out savedFp returnTo) (out + 8) = M.regionId returnTo ∧
      Bytes.Outside out (out + linkageBytes) m (M.linkage m out savedFp returnTo) := by
  have hbytes : linkageBytes = 16 := rfl
  have hzero : Word.offset 64 out 0 = out := Word.offset_eq (by omega) (by omega)
  have height : Word.offset 64 out 8 = out + 8 := Word.offset_eq (by omega) (by omega)
  unfold Machine.linkage
  rw [hzero, height]
  refine ⟨?_, ?_, ?_⟩
  · have hsecond : M.load64 (M.store32 (M.store64 m out savedFp) (out + 8) (M.regionId returnTo)) out =
        M.load64 (M.store64 m out savedFp) out :=
      Bytes.outside_store.load_eq (.inl (Nat.le_refl _))
    rw [hsecond]
    exact Bytes.load_store.trans (Nat.mod_eq_of_lt hsaved)
  · exact Bytes.load_store.trans (Nat.mod_eq_of_lt (M.regionId_lt returnTo))
  · exact (Bytes.outside_store.mono (Nat.le_refl _) (by omega)).trans
      (Bytes.outside_store.mono (by omega) (by omega))

end

end BpfCapsule.Stackify

import BpfCapsule.Stackify.StackSlice

/-!
# BpfCapsule — runs of the software stack

Every step of a fiber keeps its chain (`FiberStep.ok`), changes only bytes it may change
(`FiberStep.allowed`), and so keeps the chains of the other fibers; `Reachable.ok` is the invariant
of whole runs. `stack_slice_invariant` states what it means for the slice.
-/

namespace BpfCapsule.Stackify

open Placement

variable {τ : Type} {M : Machine τ} {i : Nat} {m m' : Mem} {a b : Activation} {fn : Function τ}
  {info : FrameInfo} {view : ManagedCallLayout}

/-! ## Carving -/

variable {align : Align} {elementBytes count sp j y out f offset value env : Nat} {inst : Inst τ}
    {site : CallSite τ} {l : ManagedCallLayout} {returnTo : Pos} {e : Event} {jump : Jump}
    {s s' : State}

theorem carveAlign_pow (M : Machine τ) (halign : align.value ≤ M.S.size) :
    ∃ k, M.carveAlign align = 2 ^ k ∧ M.layout.frameAlignment ∣ 2 ^ k ∧ 2 ^ k ≤ M.S.size := by
  obtain ⟨j, hj⟩ := M.laid.align_pow
  refine ⟨max j align.shift, ?_, ?_, ?_⟩
  · rw [Machine.carveAlign, hj, ← max_two_pow]
    rfl
  · rw [hj]
    exact Nat.pow_dvd_pow 2 (Nat.le_max_left _ _)
  · rw [← max_two_pow, ← hj]
    exact Nat.max_le.mpr ⟨M.laid.align_le, halign⟩

/-- The exact size of a carve: a count that passes the first check cannot wrap. -/
theorem carve_bytes_le (hcount : count ≤ M.S.size / elementBytes) :
    count * elementBytes ≤ M.S.size :=
  Nat.le_trans (Nat.mul_le_mul_right _ hcount) (Nat.div_mul_le_self _ _)

/-- A carve is refused exactly when the count is beyond the slice or the request, rounded down in
the worst case, would come below the floor. -/
theorem carve_eq_none_iff (hsp : M.InSlice i sp) (halign : align.value ≤ M.S.size) :
    M.carve elementBytes align count sp = none ↔ M.S.size / elementBytes < count ∨
      sp < M.base i + M.layout.reserveFloor + count * elementBytes + (M.carveAlign align - 1) := by
  obtain ⟨k, hk, -, hle⟩ := carveAlign_pow M halign
  unfold Machine.carve
  rw [M.sliceOffset_eq hsp, hk]
  rcases Nat.lt_or_ge (M.S.size / elementBytes) count with hmany | hfew
  · simp [hmany]
  · have hbytes := carve_bytes_le hfew
    have hsize := M.S.size_le
    have hfloor := M.laid.floor_lt
    have hroot := M.laid.root_lt
    have hmul : Word.mul 64 count elementBytes = count * elementBytes := Word.mul_eq (by omega)
    have hreserve : Word.add 64 (count * elementBytes) (2 ^ k - 1) =
        count * elementBytes + (2 ^ k - 1) := Word.add_eq (by omega)
    have hminimum : Word.add 64 (count * elementBytes + (2 ^ k - 1)) M.layout.reserveFloor =
        count * elementBytes + (2 ^ k - 1) + M.layout.reserveFloor := Word.add_eq (by omega)
    have := hsp.1
    simp only [hmul, hreserve, hminimum, Nat.not_lt.mpr hfew, false_or]
    split
    · exact ⟨fun _ => by omega, fun _ => rfl⟩
    · exact ⟨fun h => absurd h (by simp), fun h => by omega⟩

/-- An accepted carve is a frontier below the old one, with room for the request between them. -/
theorem carve_some (hi : i < M.bank.fibers) (h : ActivationOk M i m a fn info view) {next : Nat}
    (hfront : Frontier M i fn info a.fp sp) (halign : align.value ≤ M.S.size)
    (hdynamic : fn.dynamicSp = true) (hcarve : M.carve elementBytes align count sp = some next) :
    Frontier M i fn info a.fp next ∧ next + count * elementBytes ≤ sp := by
  have hfloor := hfront.floor
  have hle := hfront.le
  have hword := h.lt_word hi
  have hsp : M.InSlice i sp := by
    have := h.inSlice.2
    exact ⟨by omega, by omega⟩
  have hnone : M.carve elementBytes align count sp ≠ none := by
    rw [hcarve]
    exact Option.some_ne_none next
  rw [Ne, carve_eq_none_iff hsp halign] at hnone
  have hfew : count ≤ M.S.size / elementBytes := Nat.not_lt.mp fun hlt => hnone (.inl hlt)
  have hroom := Nat.not_lt.mp fun hlt => hnone (.inr hlt)
  have hbytes := carve_bytes_le hfew
  have hsize := M.S.size_le
  obtain ⟨k, hk, hdvd, hpow⟩ := carveAlign_pow M halign
  have hkle : k ≤ 64 := by
    have hlt : 2 ^ k ≤ 2 ^ 21 := by omega
    have := (Nat.pow_le_pow_iff_right (by omega)).mp hlt
    omega
  have hmul : Word.mul 64 count elementBytes = count * elementBytes := Word.mul_eq (by omega)
  have hsub : Word.sub 64 sp (count * elementBytes) = sp - count * elementBytes :=
    Word.sub_eq (by omega) (by omega)
  -- the new frontier is the request rounded down
  have hnext : (sp - count * elementBytes) / 2 ^ k * 2 ^ k = next := by
    simp only [Machine.carve] at hcarve
    split at hcarve
    · exact absurd hcarve (by simp)
    · have := Option.some.inj hcarve
      rwa [hmul, hsub, hk, Word.and_not_mask (by omega) hkle] at this
  have hdown := Nat.div_mul_le_self (sp - count * elementBytes) (2 ^ k)
  have hdiv := Nat.div_add_mod (sp - count * elementBytes) (2 ^ k)
  have hmod := Nat.mod_lt (sp - count * elementBytes) (Nat.two_pow_pos k)
  rw [Nat.mul_comm] at hdiv
  rw [hk] at hroom
  refine ⟨⟨by omega, by omega, ?_, fun hstatic => ?_⟩, by omega⟩
  · rw [← hnext]
    exact Nat.dvd_trans hdvd (Nat.dvd_mul_left _ _)
  · exact absurd hdynamic (by rw [hstatic]; decide)

/-! ## What a step may write -/

/-- The bytes a step may change: a store of the program is to a byte nobody owns, `setjmp` also
writes its `jmp_buf`, and all other generated stores are to bytes of the fiber's activations. -/
def Allowed (M : Machine τ) (owned : Nat → Prop) (frames : List Activation) : Event → Nat → Prop
  | .program, y => ¬ owned y
  | .setjmp _ env, y => (env ≤ y ∧ y < env + 32 ∧ ¬ owned y) ∨ ∃ a ∈ frames, a.Spans M y
  | _, y => ∃ a ∈ frames, a.Spans M y

structure StepOk (M : Machine τ) (i : Nat) (owned : Nat → Prop) (x : FiberState) (m : Mem) (e : Event)
    (x' : FiberState) (m' : Mem) : Prop where
  ok : FiberOk M i m' x'
  allowed : ∀ y, m' y ≠ m y → Allowed M owned (x.frames ++ x'.frames) e y

variable {owned : Nat → Prop} {x : FiberState} {rest : List Activation}

theorem Frontier.bounds {v : Nat} (h : Frontier M i fn info a.fp v)
    (hok : ActivationOk M i m a fn info view) :
    M.base i + M.S.transientReserve ≤ v ∧ v < M.base i + M.S.size := by
  have := h.floor
  have := h.le
  have := hok.inSlice.2
  have := M.laid.floor_ge
  exact ⟨by omega, by omega⟩

/-- Where something has changed after a store to a hidden slot. -/
theorem ActivationOk.spans_of_changed (hok : ActivationOk M i m a fn info view)
    (hclaimed : a.claimed = true) {start : Nat} (hslot : a.Slot M j inst start)
    (h : ¬ (start ≤ y ∧ y < start + (inst.item M.dl M.S).bytes) → m' y = m y) (hy : m' y ≠ m y) :
    a.Spans M y := by
  obtain ⟨-, hbase, hend⟩ := hok.slot_bounds hslot hclaimed
  have hin := not_imp_comm.mp h hy
  exact .inr (.inl ⟨hclaimed, info, hok.managed.info, by omega, by omega⟩)

theorem ActivationOk.fresh (m : Mem) {g : Nat} (fp : Nat) (returnTo : Pos) {gn : Function τ}
    {owner : String} (hg : M.program.managed[g]? = some gn) (hsite : site.Of gn)
    (hl : M.callLayout site owner = .ok l)
    (hdvd : M.layout.frameAlignment ∣ fp) (hlow : M.base i + M.S.transientReserve ≤ fp)
    (hhigh : fp + l.size ≤ M.base i + M.S.size) :
    ∃ info view, ActivationOk M i m { fn := g, fp := fp, out := l.size, returnTo := returnTo } gn info
      view := by
  obtain ⟨info, view, hmanaged⟩ := exists_managed hg
  obtain ⟨F, hview⟩ := hmanaged.layout
  obtain ⟨-, tail, -, -, hplaced⟩ := view_agrees hsite hl hview
  exact ⟨info, view, hmanaged, Nat.le_trans hplaced.le (layoutCall_ok hl).tail.le, hdvd, hlow, hhigh,
    nofun, nofun, nofun, nofun, .nil⟩

/-- The linkage and argument stores of a call stay in its outgoing area, and leave the linkage
words. -/
theorem outgoing_stores {savedFp : Nat} (hargsEnd : linkageBytes ≤ l.argsEnd)
    (hsize : l.argsEnd ≤ l.size) (hword : out + l.size ≤ 2 ^ 64) (hsaved : savedFp < 2 ^ 64)
    (hargs : Bytes.Outside (out + linkageBytes) (out + l.argsEnd) (M.linkage m out savedFp returnTo) m') :
    M.load64 m' out = savedFp ∧ M.load32 m' (out + 8) = M.regionId returnTo ∧
      Bytes.Outside out (out + l.size) m m' := by
  obtain ⟨hfp, hregion, hlink⟩ := linkage_ok (M := M) m returnTo
    (show out + linkageBytes ≤ 2 ^ 64 by omega) hsaved
  have hbytes : linkageBytes = 16 := rfl
  refine ⟨?_, ?_, ?_⟩
  · rw [← hfp]
    exact hargs.load_eq (.inl (by omega))
  · rw [← hregion]
    exact hargs.load_eq (.inl (by omega))
  · exact (hlink.mono (Nat.le_refl _) (by omega)).trans (hargs.mono (by omega) (by omega))

theorem argsEnd_bounds {owner : String} (hl : M.callLayout site owner = .ok l) :
    linkageBytes ≤ l.argsEnd ∧ l.argsEnd ≤ l.size :=
  ⟨(layoutCall_ok hl).placed.le, (layoutCall_ok hl).tail.le⟩

/-! ## One lemma for each step -/

theorem start_ok (hi : i < M.bank.fibers) {r : RootCall τ} (hroot : r ∈ M.program.roots)
    (hfn : M.program.managed[r.callee]? = some fn) (hsite : r.site.Of fn)
    (hl : M.callLayout r.site r.owner = .ok l)
    (hout : out = M.stackPtr i M.layout.rootFp)
    (hargs : Bytes.Outside (out + linkageBytes) (out + l.argsEnd) (M.linkage m out 0 .done) m') :
    StepOk M i owned x m (.start r.callee out)
      { pos := .entry r.callee, sp := out, fp := out
        frames := [{ fn := r.callee, fp := out, out := l.size }] } m' := by
  have hlaid := M.laid
  have hlt := hlaid.root_lt
  have hfloor := hlaid.floor_lt
  have hge := hlaid.floor_ge
  rw [M.stackPtr_eq hi, M.sliceOffset_of_lt hlt] at hout
  obtain ⟨l', hl', hsize⟩ := hlaid.roots r hroot
  cases Except.ok.inj (hl.symm.trans hl')
  have hword := M.base_add_le hi
  have hend := argsEnd_bounds hl
  obtain ⟨hsaved, hregion, houtside⟩ := outgoing_stores hend.1 hend.2 (by omega) (by omega) hargs
  obtain ⟨info, view, hok⟩ := ActivationOk.fresh (i := i) m' out .done hfn hsite hl
    (hout ▸ Nat.dvd_add (M.align_dvd_base i) hlaid.root_dvd) (by omega) (by omega)
  refine ⟨⟨⟨_, _, rfl, rfl, rfl, rfl⟩, fun _ => .root hok rfl ⟨hsaved, hregion⟩, fun _ => ?_⟩, ?_⟩
  · exact ⟨by dsimp only; omega, by dsimp only; omega⟩
  · intro y hy
    refine ⟨_, List.mem_append_right _ List.mem_cons_self, .inl ?_⟩
    by_contra hout'
    exact hy (houtside y hout')

theorem mapHead_frames {g : Activation → Activation} (hframes : x.frames = a :: rest) :
    (x.mapHead g).frames = g a :: rest := by
  rw [FiberState.mapHead, hframes]
  rfl

/-- At the entry of a function its activation is on top, with the frame not claimed yet. -/
theorem FiberOk.atEntry (hok : FiberOk M i m x) (hpos : x.pos = .entry f)
    (hf : M.Managed f fn info view) : ∃ a rest, x.frames = a :: rest ∧ x.fp = a.fp ∧ a.fn = f ∧
      a.claimed = false ∧ Chain M i m (a :: rest) ∧ ActivationOk M i m a fn info view := by
  have hstands := hok.pos
  rw [PosOk, hpos] at hstands
  obtain ⟨a, rest, hframes, hfp, rfl, hunclaimed⟩ := hstands
  have hchain := hok.chain (by simp [hframes])
  rw [hframes] at hchain
  exact ⟨a, rest, hframes, hfp, rfl, hunclaimed, hchain, hchain.head_ok hf⟩

theorem enter_ok (hi : i < M.bank.fibers) (hok : FiberOk M i m x) (hpos : x.pos = .entry f)
    (hf : M.Managed f fn info view) (hclaim : M.prologue info x.fp = some sp) :
    StepOk M i owned x m .enter
      ({ x with pos := .body f, sp := sp }.mapHead fun a => { a with claimed := true }) m := by
  obtain ⟨a, rest, hframes, hfp, hfn, hunclaimed, hchain, hact⟩ := hok.atEntry hpos hf
  rw [hfp] at hclaim
  obtain ⟨hbase, hfront⟩ := prologue_some hi hact hclaim
  -- nothing was saved or carved before the prologue
  have hnot : a.claimed ≠ true := by simp [hunclaimed]
  have hclaimed : ActivationOk M i m { a with claimed := true } fn info view :=
    { hact with
      claimed := fun _ => hbase
      saves := fun j v hv => absurd (hact.saves j v hv).1 hnot
      jumps := fun jump hjump => absurd (hact.jumps jump hjump).1 hnot
      blocks := fun b hb => absurd (hact.blocks b hb).1 hnot }
  have hlive : Live M i { a with claimed := true } fn info sp :=
    ⟨hfront, fun b hb => absurd (hact.blocks b hb).1 hnot⟩
  have hframes' := mapHead_frames (x := { x with pos := .body f, sp := sp })
    (g := fun a => { a with claimed := true }) hframes
  refine ⟨⟨?_, fun _ => ?_, fun _ => hfront.bounds hact⟩, fun y hy => absurd rfl hy⟩
  · exact ⟨_, rest, _, _, _, ⟨hframes', hfp, hfn, hf, rfl⟩, fun _ => hlive⟩
  · rw [hframes']
    exact hchain.setHead hclaimed rfl rfl rfl

/-- Stopping with `STACK_OVERFLOW` leaves `sp`, `fp` and memory as they are. -/
theorem overflow_ok (hok : FiberOk M i m x) (hne : x.frames ≠ [])
    (hfp : ∃ a rest, x.frames = a :: rest ∧ x.fp = a.fp) :
    StepOk M i owned x m .stackOverflow { x with pos := .overflow } m :=
  ⟨⟨hfp, fun _ => hok.chain hne, fun _ => hok.sp hne⟩, fun _ hy => absurd rfl hy⟩

/-- Inside a body the activation of the function is on top of the chain, its frame claimed, and `sp` is
its frontier where the function maintains it. -/
theorem FiberOk.running (hok : FiberOk M i m x) (hpos : x.pos = .body f)
    (hf : M.Managed f fn info view) : ∃ a rest, Running M x f a rest fn info view ∧
      Chain M i m (a :: rest) ∧ ActivationOk M i m a fn info view ∧
      (fn.dynamicSp = true ∨ fn.hasSetjmp = true → Live M i a fn info x.sp) := by
  have hstands := hok.pos
  rw [PosOk, hpos] at hstands
  obtain ⟨a, rest, fn', info', view', hrun, hsp⟩ := hstands
  obtain ⟨rfl, rfl, rfl⟩ := hrun.managed.unique hf
  have hchain := hok.chain hrun.frames_ne
  exact ⟨a, rest, hrun, hrun.frames ▸ hchain, hrun.ok hchain, hsp⟩

theorem FiberOk.frames_ne (hok : FiberOk M i m x) (hpos : x.pos = .body f) :
    x.frames ≠ [] ∧ ∃ a rest, x.frames = a :: rest ∧ x.fp = a.fp := by
  have hstands := hok.pos
  rw [PosOk, hpos] at hstands
  obtain ⟨a, rest, fn', info', view', hrun, -⟩ := hstands
  exact ⟨hrun.frames_ne, a, rest, hrun.frames, hrun.fp⟩

theorem posOk_body (hpos : x.pos = .body f) (hrun : Running M x f a rest fn info view)
    (hsp : fn.dynamicSp = true ∨ fn.hasSetjmp = true → Live M i a fn info x.sp) :
    PosOk M i x := by
  rw [PosOk, hpos]
  exact ⟨a, rest, fn, info, view, hrun, hsp⟩

/-- The linkage words name the place the activation was called from. -/
theorem Chain.returnTo_eq (h : Chain M i m (a :: rest)) (hstate : M.program.HasState returnTo)
    (hregion : M.regionId returnTo = M.load32 m (a.fp + 8)) : returnTo = a.returnTo := by
  cases h with
  | root _ hreturn hlink =>
    rw [hreturn]
    exact M.regionId_inj _ _ hstate trivial (hregion.trans hlink.region)
  | call _ _ _ hb hj _ _ _ hreturn hlink =>
    rw [hreturn]
    exact M.regionId_inj _ _ hstate ⟨_, _, hb.fn, hj⟩ (hregion.trans hlink.region)

/-- What a return reads and computes, and that its result store leaves the chain alone. -/
theorem ret_reads (hi : i < M.bank.fibers) {frame : Nat} (hchain : Chain M i m (a :: rest))
    (hact : ActivationOk M i m a fn info view) (hstate : M.program.HasState returnTo)
    (hframe : frame = M.framePointer i a.fp)
    (hresult : Bytes.Outside (frame + linkageBytes) (frame + view.argsEnd) m m')
    (hregion : M.regionId returnTo = M.load32 m' (Word.offset 64 frame 8)) :
    frame = a.fp ∧ Chain M i m' (a :: rest) ∧ returnTo = a.returnTo ∧
      Word.offset 64 frame 0 = a.fp ∧ Word.add 64 a.fp linkageBytes = a.fp + linkageBytes := by
  have hword := hact.lt_word hi
  have hview := hact.view_le
  have hbytes : linkageBytes = 16 := rfl
  have hlinkage := hact.linkage_le
  rw [M.framePointer_eq hi hact.inSlice] at hframe
  subst hframe
  have height : Word.offset 64 a.fp 8 = a.fp + 8 := Word.offset_eq (by omega) (by omega)
  rw [height] at hregion
  -- the result slot is above the linkage words and below the caller's frame
  have hkeep : ∀ b ∈ a :: rest, ∀ y, b.Relies M y → m' y = m y := by
    intro b hb y hy
    rcases List.mem_cons.mp hb with rfl | hb
    · have := (hact.owns_bounds hy.owns).2.1
      exact hresult y (by omega)
    · have := hchain.owns_above b hb y hy.owns
      exact hresult y (by omega)
  have hchain' := hchain.congr hkeep
  exact ⟨rfl, hchain', hchain'.returnTo_eq hstate hregion, Word.offset_eq (by omega) (by omega),
    Word.add_eq (by omega)⟩

/-- The chain relies on no byte of a hidden slot other than a frontier snapshot. -/
theorem slot_not_relied (hchain : Chain M i m (a :: rest))
    (hact : ActivationOk M i m a fn info view) (hclaimed : a.claimed = true) {start : Nat}
    (hslot : a.Slot M j inst start) (hne : inst ≠ .stackSave) (hb : b ∈ a :: rest)
    (hy : b.Relies M y) : ¬ (start ≤ y ∧ y < start + (inst.item M.dl M.S).bytes) := by
  obtain ⟨-, -, hend⟩ := hact.slot_bounds hslot hclaimed
  rcases List.mem_cons.mp hb with rfl | hb
  · rcases hy with ⟨hle, -⟩ | ⟨-, j', start', hslot', hle, hlt⟩
    · omega
    · have hjj : j ≠ j' := by
        rintro rfl
        have hsame := (hslot.placed hact.managed).1.symm.trans (hslot'.placed hact.managed).1
        exact hne (Option.some.inj hsame)
      have hdisj : start + (inst.item M.dl M.S).bytes ≤ start' ∨ start' + 8 ≤ start :=
        hact.slot_disjoint hslot hslot' hjj
      omega
  · have := hchain.owns_above b hb y hy.owns
    omega

theorem dynamicSp_of_moves (hj : fn.body[j]? = some inst) (hmoves : inst.movesSp = true) :
    fn.dynamicSp = true :=
  List.any_eq_true.mpr ⟨inst, List.mem_of_getElem? hj, hmoves⟩

theorem hasSetjmp_of_setjmp (hj : fn.body[j]? = some .setjmp) : fn.hasSetjmp = true :=
  List.any_eq_true.mpr ⟨_, List.mem_of_getElem? hj, rfl⟩

/-- A carve puts its block between the new frontier and the old one, so below every block before. -/
theorem carve_block (hi : i < M.bank.fibers) (h : ActivationOk M i m a fn info view) {next : Nat}
    (hclaimed : a.claimed = true) (hlive : Live M i a fn info sp) (halign : align.value ≤ M.S.size)
    (hdynamic : fn.dynamicSp = true) (hcarve : M.carve elementBytes align count sp = some next) :
    ActivationOk M i m { a with blocks := ⟨M.framePointer i next, count * elementBytes⟩ :: a.blocks }
        fn info view ∧
      Live M i { a with blocks := ⟨M.framePointer i next, count * elementBytes⟩ :: a.blocks } fn info
        next := by
  obtain ⟨hfront, hroom⟩ := carve_some hi h hlive.toFrontier halign hdynamic hcarve
  have hbounds := hfront.bounds h
  have hfloor := hfront.floor
  have hle := hlive.le
  rw [M.framePointer_eq hi ⟨by omega, hbounds.2⟩]
  have hbelow : ∀ b ∈ a.blocks, next + count * elementBytes ≤ b.start := fun b hb =>
    Nat.le_trans hroom (hlive.clear b hb)
  refine ⟨{ h with
    blocks := fun b hb => ?_
    ordered := List.pairwise_cons.mpr ⟨hbelow, h.ordered⟩ }, hfront, fun b hb => ?_⟩
  · rcases List.mem_cons.mp hb with rfl | hb
    · exact ⟨hclaimed, hdynamic, hfloor, by dsimp only; omega⟩
    · exact h.blocks b hb
  · rcases List.mem_cons.mp hb with rfl | hb
    · exact Nat.le_refl _
    · exact Nat.le_trans (Nat.le_add_right _ _) (hbelow b hb)

/-- A restored frontier is the one that was saved. -/
theorem ActivationOk.restore_reads (hi : i < M.bank.fibers)
    (h : ActivationOk M i m a fn info view) {saved : Nat} (hj : fn.body[j]? = some .stackSave)
    (hoffset : info.offsets[j]? = some offset) (hsaved : a.saves j = some saved) :
    M.load64 m (M.slot i info a.fp offset) = saved := by
  obtain ⟨hclaimed, -, start, hslot, hload⟩ := h.saves j saved hsaved
  rw [← hslot.unique (slot_eq hi h hclaimed hj rfl hoffset), hload]

theorem ActivationOk.rewind (h : ActivationOk M i m a fn info view) (v : Nat) :
    ActivationOk M i m (a.rewind v) fn info view :=
  { h with
    blocks := fun b hb => h.blocks b (List.mem_filter.mp hb).1
    ordered := h.ordered.filter _ }

theorem Frontier.live_rewind {v : Nat} (h : Frontier M i fn info a.fp v) :
    Live M i (a.rewind v) fn info v :=
  ⟨h, fun _ hb => of_decide_eq_true (List.mem_filter.mp hb).2⟩

/-- Outside its `jmp_buf`, `setjmp` only clears its result slot. -/
theorem saveJump_eq (henv : ¬ (env ≤ y ∧ y < env + 32)) :
    M.saveJump m env f jump y = M.store32 m jump.result 0 y := by
  unfold Machine.saveJump
  have hstore : ∀ {m : Mem} {a v : Nat}, env ≤ a → a + 8 ≤ env + 32 → M.store64 m a v y = m y :=
    fun hle hend => Bytes.outside_store y (by omega)
  have hregion : ∀ {m : Mem} {v : Nat}, M.store32 m env v y = m y :=
    Bytes.outside_store y (by omega)
  rw [hstore (by omega) (by omega), hstore (by omega) (by omega), hstore (by omega) (by omega), hregion]

theorem saveJump_outside (hslot : ¬ (jump.result ≤ y ∧ y < jump.result + 4))
    (henv : ¬ (env ≤ y ∧ y < env + 32)) : M.saveJump m env f jump y = m y :=
  (saveJump_eq henv).trans (Bytes.outside_store y hslot)

section Body

/-! The steps inside a body: the running activation changes, and the store it makes is to bytes the
chain below does not rely on. -/

variable (hi : i < M.bank.fibers) (hok : FiberOk M i m x) (hpos : x.pos = .body f)
  (hf : M.Managed f fn info view)

include hi hok hpos hf

theorem call_ok {g fp : Nat} {gn : Function τ} (hj : fn.body[j]? = some (.call site))
    (hl : M.callLayout site fn.name = .ok l)
    (hg : M.program.managed[g]? = some gn) (hsite : site.Of gn)
    (hfp : fp = Machine.calleeFp fn info l x.sp x.fp)
    (hout : out = M.outFrame i fn info l x.sp x.fp)
    (hargs : Bytes.Outside (out + linkageBytes) (out + l.argsEnd) (M.linkage m out x.fp (.afterCall f j)) m') :
    StepOk M i owned x m (.call j g l.size)
      { pos := .entry g, sp := x.sp, fp := fp
        frames := { fn := g, fp := fp, out := l.size, returnTo := .afterCall f j } :: x.frames } m' := by
  obtain ⟨a, rest, hrun, hchain, hact, hsp⟩ := hok.running hpos hf
  rw [hrun.fp] at hfp hout
  obtain ⟨hend, hlow, hdvd, hframe⟩ := calleeFp_bounds hi hact hrun.claimed hsp hj hl
  have hfront := callerSp_live hi hact hrun.claimed hsp
  rw [← hend, ← hfp] at hfront
  rw [← hfp] at hlow hdvd hframe
  rw [hframe] at hout
  subst hout
  have hword := hact.lt_word hi
  have hle := hfront.le
  have hhigh := hact.inSlice.2
  have hends := argsEnd_bounds hl
  obtain ⟨hsaved, hregion, houtside⟩ := outgoing_stores hends.1 hends.2 (by omega)
    (by rw [hrun.fp]; omega) hargs
  obtain ⟨ginfo, gview, hcallee⟩ := ActivationOk.fresh (i := i) m' out (.afterCall f j) hg hsite hl
    hdvd hlow (by omega)
  -- every byte the callers rely on lies at or above the caller's frontier
  have hkeep : ∀ b ∈ a :: rest, ∀ y, b.Relies M y → m' y = m y := by
    intro b hb y hy
    have := hchain.owns_ge hact hle b hb y hy.owns
    exact houtside y (by omega)
  have hchain' := hchain.congr hkeep
  rw [hrun.fp] at hsaved
  have hmanaged : M.Managed a.fn fn info view := hrun.index ▸ hf
  have hregion' : M.load32 m' (out + 8) = M.regionId (.afterCall a.fn j) := hrun.index ▸ hregion
  refine ⟨⟨⟨_, _, rfl, rfl, rfl, rfl⟩, fun _ => ?_, fun _ => ?_⟩, ?_⟩
  · show Chain M i m' ({ fn := g, fp := out, out := l.size, returnTo := .afterCall f j } :: x.frames)
    rw [hrun.frames]
    exact .call hcallee hchain' hrun.claimed hmanaged hj hl rfl hfront (hrun.index ▸ rfl)
      ⟨hsaved, hregion'⟩
  · exact hok.sp hrun.frames_ne
  · intro y hy
    refine ⟨_, List.mem_append_right _ List.mem_cons_self, .inl ?_⟩
    by_contra hout'
    exact hy (houtside y hout')

theorem ret_ok {frame : Nat} (hstate : M.program.HasState returnTo)
    (hframe : frame = M.framePointer i x.fp)
    (hresult : Bytes.Outside (frame + linkageBytes) (frame + view.argsEnd) m m')
    (hregion : M.regionId returnTo = M.load32 m' (Word.offset 64 frame 8)) :
    StepOk M i owned x m .ret
      { pos := returnTo, sp := Word.add 64 x.fp linkageBytes
        fp := M.load64 m' (Word.offset 64 frame 0), frames := x.frames.tail } m' := by
  obtain ⟨a, rest, hrun, hchain, hact, hsp⟩ := hok.running hpos hf
  rw [hrun.fp] at hframe
  obtain ⟨rfl, hchain', htarget, hzero, hsum⟩ :=
    ret_reads hi hchain hact hstate hframe hresult hregion
  have hview := hact.view_le
  have hallowed : ∀ y, m' y ≠ m y → ∃ c ∈ x.frames ++ x.frames.tail, c.Spans M y := by
    intro y hy
    refine ⟨a, List.mem_append_left _ hrun.mem, .inl ?_⟩
    by_contra hout
    exact hy (hresult y (by omega))
  refine ⟨?_, hallowed⟩
  rw [hzero, hrun.fp, hsum, hrun.frames, List.tail_cons, htarget]
  cases hchain' with
  | root _ hreturn _ =>
    -- the root returns: no activation is left
    rw [hreturn]
    exact ⟨rfl, fun hne => absurd rfl hne, fun hne => absurd rfl hne⟩
  | @call _ b rest _ _ _ _ _ _ j site l _ hrest hclaimed hb hj hl hout hfront hreturn hlink =>
    rw [hreturn, hlink.savedFp]
    have hlow := hact.low
    have hhigh := hact.high
    obtain ⟨_, _, _, hcaller⟩ := hrest.head
    refine ⟨⟨b, rest, _, _, _, ⟨rfl, rfl, rfl, hb, hclaimed⟩, site, l, a.fp, hj, hl, rfl, hlow, ?_⟩,
      fun _ => hrest, fun _ => ⟨by dsimp only; omega, ?_⟩⟩
    · rw [← hout]
      exact hfront
    · have := hact.linkage_le
      have := hfront.le
      have := hcaller.inSlice.2
      dsimp only
      omega

variable (hoffset : info.offsets[j]? = some offset)

include hoffset

/-- A store into the handle of a dynamic alloca, with `sp` and the blocks moved along. -/
theorem handle_store_ok (value : Nat) {width : Nat} {type : τ}
    (hj : fn.body[j]? = some (.alloca type align (.dynamic width))) {g : List Carved → List Carved}
    (hblocks : ∀ a, ActivationOk M i m a fn info view → a.claimed = true → Live M i a fn info x.sp →
      ActivationOk M i m { a with blocks := g a.blocks } fn info view ∧
        Live M i { a with blocks := g a.blocks } fn info sp)
    (hevent : ∀ frames y, (∃ a ∈ frames, a.Spans M y) → Allowed M owned frames e y) :
    StepOk M i owned x m e ({ x with sp := sp }.mapHead fun a => { a with blocks := g a.blocks })
      (M.store64 m (M.slot i info x.fp offset) value) := by
  obtain ⟨a, rest, hrun, hchain, hact, hfront⟩ := hok.running hpos hf
  obtain ⟨hact', hlive⟩ := hblocks a hact hrun.claimed (hfront (.inl (dynamicSp_of_moves hj rfl)))
  have hslot := slot_eq hi hact hrun.claimed hj rfl hoffset
  rw [hrun.fp]
  have hstore : Bytes.Outside (M.slot i info a.fp offset) (M.slot i info a.fp offset + 8) m
      (M.store64 m (M.slot i info a.fp offset) value) := Bytes.outside_store
  have hkeep : ∀ b ∈ a :: rest, ∀ y, b.Relies M y →
      M.store64 m (M.slot i info a.fp offset) value y = m y := fun b hb y hy =>
    hstore y (slot_not_relied hchain hact hrun.claimed hslot (by simp) hb hy)
  have hframes := mapHead_frames (x := { x with sp := sp, fp := a.fp })
    (g := fun a => { a with blocks := g a.blocks }) hrun.frames
  refine ⟨⟨?_, fun _ => ?_, fun _ => hlive.toFrontier.bounds hact'⟩, ?_⟩
  · exact posOk_body hpos ⟨hframes, rfl, hrun.index, hf, hrun.claimed⟩ fun _ => hlive
  · rw [hframes]
    exact (hchain.congr hkeep).setHead (hact'.congr (hkeep a List.mem_cons_self)) rfl rfl rfl
  · intro y hy
    exact hevent _ _ ⟨a, List.mem_append_left _ hrun.mem,
      hact.spans_of_changed hrun.claimed hslot (hstore y) hy⟩

theorem save_ok (hj : fn.body[j]? = some .stackSave) :
    StepOk M i owned x m (.save j)
      (x.mapHead fun a => { a with saves := Function.update a.saves j (some x.sp) })
      (M.store64 m (M.slot i info x.fp offset) x.sp) := by
  obtain ⟨a, rest, hrun, hchain, hact, hsp⟩ := hok.running hpos hf
  have hfront := hsp (.inl (dynamicSp_of_moves hj rfl))
  have hslot := slot_eq hi hact hrun.claimed hj rfl hoffset
  rw [hrun.fp]
  obtain ⟨-, -, hend⟩ := hact.slot_bounds hslot hrun.claimed
  have hstore : Bytes.Outside (M.slot i info a.fp offset) (M.slot i info a.fp offset + 8) m
      (M.store64 m (M.slot i info a.fp offset) x.sp) := Bytes.outside_store
  have hword := hact.lt_word hi
  have hle := hfront.le
  have hend' : M.slot i info a.fp offset + 8 ≤ a.fp := hend
  -- the snapshot itself, and the snapshots of the other saves
  have hact' : ActivationOk M i (M.store64 m (M.slot i info a.fp offset) x.sp)
      { a with saves := Function.update a.saves j (some x.sp) } fn info view :=
    { hact with
      saves := by
        intro j' v hv
        by_cases hjj : j' = j
        · subst hjj
          have hv' : Function.update a.saves j' (some x.sp) j' = some v := hv
          rw [Function.update_self] at hv'
          cases hv'
          exact ⟨hrun.claimed, hfront.toFrontier, _, hslot,
            Bytes.load_store.trans (Nat.mod_eq_of_lt (show x.sp < 2 ^ 64 by omega))⟩
        · have hv' : Function.update a.saves j (some x.sp) j' = some v := hv
          rw [Function.update_of_ne hjj] at hv'
          obtain ⟨hclaimed, hfront', start, hslot', hload⟩ := hact.saves j' v hv'
          refine ⟨hclaimed, hfront', start, hslot', hload ▸ ?_⟩
          exact hstore.load_eq (hact.slot_disjoint hslot' hslot hjj)
      jumps := hact.jumps }
  refine ⟨⟨?_, fun _ => ?_, fun _ => hfront.toFrontier.bounds hact⟩, ?_⟩
  · exact posOk_body hpos ⟨mapHead_frames hrun.frames, hrun.fp, hrun.index, hf, hrun.claimed⟩
      fun _ => ⟨hfront.toFrontier, hfront.clear⟩
  · rw [mapHead_frames hrun.frames]
    refine hchain.replaceHead hact' rfl rfl rfl (fun y hy _ => hstore y (by omega)) ?_
    intro b hb y hy
    have := hchain.owns_above b hb y hy.owns
    exact hstore y (by omega)
  · intro y hy
    exact ⟨a, List.mem_append_left _ hrun.mem,
      hact.spans_of_changed hrun.claimed hslot (hstore y) hy⟩

theorem restore_ok {saved : Nat} (hj : fn.body[j]? = some .stackSave)
    (hhead : x.frames.head? = some a) (hsaved : a.saves j = some saved) :
    StepOk M i owned x m (.restore j) ({ x with sp := M.load64 m (M.slot i info x.fp offset) }.mapHead
      (Activation.rewind (M.load64 m (M.slot i info x.fp offset)))) m := by
  obtain ⟨b, rest, hrun, hchain, hact, -⟩ := hok.running hpos hf
  rw [hrun.frames] at hhead
  cases hhead
  obtain ⟨hclaimed, hfront, -⟩ := hact.saves j saved hsaved
  rw [hrun.fp, hact.restore_reads hi hj hoffset hsaved]
  have hframes := mapHead_frames (x := { x with sp := saved, fp := a.fp })
    (g := Activation.rewind saved) hrun.frames
  refine ⟨⟨?_, fun _ => ?_, fun _ => hfront.bounds hact⟩, fun _ hy => absurd rfl hy⟩
  · exact posOk_body hpos ⟨hframes, rfl, hrun.index, hf, hclaimed⟩ fun _ => hfront.live_rewind
  · rw [hframes]
    exact hchain.setHead (hact.rewind saved) rfl rfl rfl

theorem setjmp_ok (howned : ∀ a ∈ x.frames, ∀ y, a.Owns M y → owned y)
    (hj : fn.body[j]? = some .setjmp) (henv : ∀ y, env ≤ y → y < env + 32 → ¬ owned y)
    (hjump : jump = ⟨j, x.sp, x.fp, M.slot i info x.fp offset⟩) :
    StepOk M i owned x m (.setjmp j env)
      ({ x with pos := .afterSetjmp f j }.mapHead fun a => { a with jumps := jump :: a.jumps })
      (M.saveJump m env f jump) := by
  obtain ⟨a, rest, hrun, hchain, hact, hsp⟩ := hok.running hpos hf
  have hfront := hsp (.inr (hasSetjmp_of_setjmp hj))
  have hslot := slot_eq hi hact hrun.claimed hj rfl hoffset
  rw [hrun.fp] at hjump
  have hresult : jump.result = M.slot i info a.fp offset := by rw [hjump]
  have hkeep : ∀ b ∈ a :: rest, ∀ y, b.Relies M y → M.saveJump m env f jump y = m y := by
    intro b hb y hy
    apply saveJump_outside
    · rw [hresult]
      exact slot_not_relied hchain hact hrun.claimed hslot (by simp) hb hy
    · exact fun ⟨hle, hlt⟩ => henv y hle hlt (howned b (by rw [hrun.frames]; exact hb) y hy.owns)
  have hact' : ActivationOk M i (M.saveJump m env f jump) { a with jumps := jump :: a.jumps } fn info
      view :=
    { hact.congr (hkeep a List.mem_cons_self) with
      jumps := by
        intro jump' hjump'
        rcases List.mem_cons.mp hjump' with rfl | hjump'
        · rw [hjump]
          exact ⟨hrun.claimed, hfront.toFrontier, rfl, hslot⟩
        · exact hact.jumps jump' hjump' }
  have hframes := mapHead_frames (x := { x with pos := .afterSetjmp f j })
    (g := fun a => { a with jumps := jump :: a.jumps }) hrun.frames
  refine ⟨⟨?_, fun _ => ?_, fun _ => hfront.toFrontier.bounds hact⟩, ?_⟩
  · exact ⟨_, rest, fn, info, view, ⟨hframes, hrun.fp, hrun.index, hf, hrun.claimed⟩,
      ⟨hfront.toFrontier, hfront.clear⟩, hj⟩
  · rw [hframes]
    exact (hchain.congr hkeep).setHead hact' rfl rfl rfl
  · intro y hy
    by_cases hin : env ≤ y ∧ y < env + 32
    · exact .inl ⟨hin.1, hin.2, henv y hin.1 hin.2⟩
    · refine .inr ⟨a, List.mem_append_left _ hrun.mem, ?_⟩
      apply hact.spans_of_changed hrun.claimed hslot _ hy
      rw [← hresult]
      exact fun hslotIn => saveJump_outside hslotIn hin

end Body

section

variable (hok : FiberOk M i m x)

include hok

/-- In the resume state of a call the caller is on top, and `sp` stands above the linkage words of the
callee's frame, which ends at the caller's frontier. -/
theorem FiberOk.afterCall (hpos : x.pos = .afterCall f j)
    (hf : M.Managed f fn info view) (hj : fn.body[j]? = some (.call site))
    (hl : M.callLayout site fn.name = .ok l) :
    ∃ a rest c, Running M x f a rest fn info view ∧ ActivationOk M i m a fn info view ∧
      x.sp = c + linkageBytes ∧ Live M i a fn info (c + l.size) := by
  have hstands := hok.pos
  rw [PosOk, hpos] at hstands
  obtain ⟨a, rest, fn', info', view', hrun, site', l', c, hj', hl', hsp, -, hfront⟩ := hstands
  obtain ⟨rfl, rfl, rfl⟩ := hrun.managed.unique hf
  cases Option.some.inj (hj.symm.trans hj')
  cases Except.ok.inj (hl.symm.trans hl')
  exact ⟨a, rest, c, hrun, hrun.ok (hok.chain hrun.frames_ne), hsp, hfront⟩

theorem resume_ok (hi : i < M.bank.fibers) (hpos : x.pos = .afterCall f j)
    (hf : M.Managed f fn info view) (hj : fn.body[j]? = some (.call site))
    (hl : M.callLayout site fn.name = .ok l) :
    StepOk M i owned x m .resume
      { x with pos := .body f, sp := Machine.spAfterCall fn info l x.sp x.fp } m := by
  obtain ⟨a, rest, c, hrun, hact, hsp, hfront⟩ := hok.afterCall hpos hf hj hl
  have hne : x.frames ≠ [] := hrun.frames_ne
  have hword := hact.lt_word hi
  have hle := hfront.le
  have hbytes : linkageBytes = 16 := rfl
  -- the three ways `sp` comes back: from the returned frame, from `fp`, or not at all
  have hfinal : (fn.dynamicSp = true ∨ fn.hasSetjmp = true →
        Live M i a fn info (Machine.spAfterCall fn info l x.sp x.fp)) ∧
      (fn.dynamicSp = false → fn.hasSetjmp = false →
        Machine.spAfterCall fn info l x.sp x.fp = x.sp) := by
    cases hdynamic : fn.dynamicSp with
    | true =>
      have hrestore : Machine.spAfterCall fn info l x.sp x.fp = c + l.size := by
        have hsub : Word.sub 64 (c + linkageBytes) linkageBytes = c :=
          (Word.sub_eq (by omega) (by omega)).trans (Nat.add_sub_cancel _ _)
        rw [Machine.spAfterCall, hdynamic, if_pos rfl, hsp, hsub, Word.add_eq (by omega)]
      exact ⟨fun _ => hrestore ▸ hfront, fun h => absurd h (by decide)⟩
    | false =>
      cases hsetjmp : fn.hasSetjmp with
      | true =>
        have hrestore : Machine.spAfterCall fn info l x.sp x.fp = Word.sub 64 a.fp info.frameSize := by
          rw [Machine.spAfterCall, hdynamic, hsetjmp, hrun.fp]
          rfl
        exact ⟨fun _ => hrestore ▸ frameBase_live hi hact hrun.claimed hdynamic,
          fun _ h => absurd h (by decide)⟩
      | false =>
        refine ⟨fun h => absurd h (by simp), fun _ _ => ?_⟩
        rw [Machine.spAfterCall, hdynamic, hsetjmp]
        rfl
  refine ⟨⟨?_, fun _ => hok.chain hne, fun _ => ?_⟩, fun _ hy => absurd rfl hy⟩
  · exact ⟨a, rest, fn, info, view, ⟨hrun.frames, hrun.fp, hrun.index, hf, hrun.claimed⟩, hfinal.1⟩
  · by_cases hmoves : fn.dynamicSp = true ∨ fn.hasSetjmp = true
    · exact (hfinal.1 hmoves).bounds hact
    · show _ ≤ Machine.spAfterCall fn info l x.sp x.fp ∧ _ < _
      rw [hfinal.2 (by simpa using fun h => hmoves (.inl h)) (by simpa using fun h => hmoves (.inr h))]
      exact hok.sp hne

theorem FiberOk.afterSetjmp (hpos : x.pos = .afterSetjmp f j)
    (hf : M.Managed f fn info view) : ∃ a rest, Running M x f a rest fn info view ∧
      ActivationOk M i m a fn info view ∧ Live M i a fn info x.sp := by
  have hstands := hok.pos
  rw [PosOk, hpos] at hstands
  obtain ⟨a, rest, fn', info', view', hrun, hfront, -⟩ := hstands
  obtain ⟨rfl, rfl, rfl⟩ := hrun.managed.unique hf
  exact ⟨a, rest, hrun, hrun.ok (hok.chain hrun.frames_ne), hfront⟩

theorem afterSetjmp_ok (hpos : x.pos = .afterSetjmp f j) (hf : M.Managed f fn info view) :
    StepOk M i owned x m (.setjmpReturns j value) { x with pos := .body f } m := by
  obtain ⟨a, rest, hrun, -, hfront⟩ := hok.afterSetjmp hpos hf
  have hne : x.frames ≠ [] := hrun.frames_ne
  refine ⟨⟨?_, fun _ => hok.chain hne, fun _ => hok.sp hne⟩, fun _ hy => absurd rfl hy⟩
  exact ⟨a, rest, fn, info, view, ⟨hrun.frames, hrun.fp, hrun.index, hf, hrun.claimed⟩, fun _ => hfront⟩

/-- The activation a `longjmp` goes back to, and the `setjmp` it makes return. -/
structure JumpTarget (M : Machine τ) (i : Nat) (m : Mem) (x : FiberState) (k : Nat) (a : Activation)
    (jump : Jump) (target : Pos) (fn : Function τ) (info : FrameInfo) (view : ManagedCallLayout) :
    Prop where
  frames : x.frames.drop k = a :: x.frames.drop (k + 1)
  chain : Chain M i m (a :: x.frames.drop (k + 1))
  act : ActivationOk M i m a fn info view
  claimed : a.claimed = true
  frontier : Frontier M i fn info a.fp jump.sp
  fp : jump.fp = a.fp
  slot : a.Slot M jump.inst .setjmp jump.result
  inst : fn.body[jump.inst]? = some .setjmp
  target : target = .afterSetjmp a.fn jump.inst

theorem jumpTarget {k n : Nat} {target : Pos} (hpos : x.pos = .body f)
    (hlive : x.frames[k]? = some a) (hjump : a.jumps[n]? = some jump)
    (henv : M.Holds m env a.fn jump) (hstate : M.program.HasState target)
    (htarget : M.regionId target = M.load32 m env) :
    ∃ fn info view, JumpTarget M i m x k a jump target fn info view := by
  obtain ⟨hlt, hget⟩ := List.getElem?_eq_some_iff.mp hlive
  have hdrop : x.frames.drop k = a :: x.frames.drop (k + 1) := by
    rw [List.drop_eq_getElem_cons hlt, hget]
  have hchain := (hok.chain (hok.frames_ne hpos).1).drop hlt
  rw [hdrop] at hchain
  obtain ⟨fn, info, view, hact⟩ := hchain.head
  obtain ⟨hclaimed, hfront, hfp, hslot⟩ := hact.jumps jump (List.mem_of_getElem? hjump)
  have hbody := (hslot.placed hact.managed).1
  exact ⟨fn, info, view, hdrop, hchain, hact, hclaimed, hfront, hfp, hslot, hbody,
    M.regionId_inj _ _ hstate ⟨fn, hact.managed.fn, hbody⟩ (htarget.trans henv.region)⟩

theorem longjmp_ok {k n result : Nat} {target : Pos}
    (hpos : x.pos = .body f) (hlive : x.frames[k]? = some a) (hjump : a.jumps[n]? = some jump)
    (henv : M.Holds m env a.fn jump) (hstate : M.program.HasState target)
    (htarget : M.regionId target = M.load32 m env) :
    StepOk M i owned x m (.longjmp k n value)
      { pos := target, sp := M.load64 m (env + 8), fp := M.load64 m (env + 16)
        frames := (x.frames.drop k).modifyHead (Activation.rewind (M.load64 m (env + 8))) }
      (M.store32 m (M.load64 m (env + 24)) result) := by
  obtain ⟨fn, info, view, ht⟩ := jumpTarget hok hpos hlive hjump henv hstate htarget
  rw [henv.sp, henv.fp, henv.result, ht.frames, ht.target]
  have hstore : Bytes.Outside jump.result (jump.result + 4) m (M.store32 m jump.result result) :=
    Bytes.outside_store
  refine ⟨⟨?_, fun _ => ?_, fun _ => ht.frontier.bounds ht.act⟩, ?_⟩
  · exact ⟨_, _, fn, info, view, ⟨rfl, ht.fp, rfl, ht.act.managed, ht.claimed⟩, ht.frontier.live_rewind,
      ht.inst⟩
  · have hkeep : ∀ b ∈ a :: x.frames.drop (k + 1), ∀ y, b.Relies M y →
        M.store32 m jump.result result y = m y := fun b hb y hy =>
      hstore y (slot_not_relied ht.chain ht.act ht.claimed ht.slot (by simp) hb hy)
    exact (ht.chain.congr hkeep).setHead ((ht.act.congr (hkeep a List.mem_cons_self)).rewind jump.sp)
      rfl rfl rfl
  · intro y hy
    exact ⟨a, List.mem_append_left _ (List.mem_of_getElem? hlive),
      ht.act.spans_of_changed ht.claimed ht.slot (hstore y) hy⟩

theorem write_ok (howned : ∀ a ∈ x.frames, ∀ y, a.Owns M y → owned y)
    (hkeep : ∀ y, owned y → m' y = m y) : StepOk M i owned x m .program x m' :=
  ⟨hok.congr fun a ha y hy => hkeep y (howned a ha y hy.owns), fun y hy hown => hy (hkeep y hown)⟩

end

/-- Every step keeps the fiber in order and writes only where it may. -/
theorem FiberStep.ok (hi : i < M.bank.fibers) {x' : FiberState} (hok : FiberOk M i m x)
    (howned : ∀ a ∈ x.frames, ∀ y, a.Owns M y → owned y) (h : FiberStep M i owned x m e x' m') :
    StepOk M i owned x m e x' m' := by
  cases h with
  | start hpos hroot hfn hsite hl hout hargs => exact start_ok hi hroot hfn hsite hl hout hargs
  | enter hpos hf hclaim => exact enter_ok hi hok hpos hf hclaim
  | refuse hpos hf hclaim =>
    have hstands := hok.pos
    rw [PosOk, hpos] at hstands
    obtain ⟨a, rest, hframes, hfp, -⟩ := hstands
    exact overflow_ok hok (by simp [hframes]) ⟨a, rest, hframes, hfp⟩
  | call hpos hf hj hl hg hsite hfp hout hargs => exact call_ok hi hok hpos hf hj hl hg hsite hfp hout hargs
  | ret hpos hstate hf hframe hresult hregion => exact ret_ok hi hok hpos hf hstate hframe hresult hregion
  | resume hpos hf hj hl => exact resume_ok hok hi hpos hf hj hl
  | carve hpos hf hj hoffset hcount hbytes hcarve =>
    have halign := M.laid.fits _ hf.mem _ (List.mem_of_getElem? hj)
    exact handle_store_ok hi hok hpos hf hoffset _ hj (fun a hact hclaimed hlive =>
      carve_block hi hact hclaimed hlive halign (dynamicSp_of_moves hj rfl) hcarve) fun _ _ h => h
  | refuseCarve hpos hf hj hcount hbytes hcarve =>
    exact overflow_ok hok (hok.frames_ne hpos).1 (hok.frames_ne hpos).2
  | zeroCarve hpos hf hj hoffset hbytes =>
    have hsame : x.mapHead (fun a => { a with blocks := id a.blocks }) = x :=
      congrArg (fun frames => { x with frames := frames }) (congrFun List.modifyHead_id x.frames)
    have hstep : ∀ value, StepOk M i owned x m .tau (x.mapHead fun a => { a with blocks := id a.blocks })
        (M.store64 m _ value) := fun value =>
      handle_store_ok hi hok hpos hf hoffset value hj (fun a hact _ hlive => ⟨hact, hlive⟩) fun _ _ h => h
    rw [hsame] at hstep
    exact hstep _
  | save hpos hf hj hoffset => exact save_ok hi hok hpos hf hoffset hj
  | restore hpos hf hj hoffset hhead hsaved => exact restore_ok hi hok hpos hf hoffset hj hhead hsaved
  | setjmp hpos hf hj hoffset henv hjump => exact setjmp_ok hi hok hpos hf hoffset howned hj henv hjump
  | afterSetjmp hpos hf hj hoffset => exact afterSetjmp_ok hok hpos hf
  | longjmp hpos hlive hjump henv hvalue hstate htarget =>
    exact longjmp_ok hok hpos hlive hjump henv hstate htarget
  | suspend hpos => exact ⟨hok, fun _ hy => absurd rfl hy⟩
  | write hpos hkeep => exact write_ok hok howned hkeep

/-! ## Runs -/

theorem ActivationOk.spans_bounds (h : ActivationOk M i m a fn info view)
    (hy : a.Spans M y) : M.base i + M.S.transientReserve ≤ y ∧ y < a.fp + a.out := by
  have hlow := h.low
  have hfloor := M.laid.floor_ge
  rcases hy with ⟨hle, hlt⟩ | ⟨hclaimed, info', hinfo, hle, hlt⟩ | ⟨b, hb, hle, hlt⟩
  · exact ⟨by omega, hlt⟩
  · cases Option.some.inj (h.managed.info.symm.trans hinfo)
    have := h.claimed hclaimed
    exact ⟨by omega, by omega⟩
  · have := (h.blocks b hb).2.2
    exact ⟨by omega, by omega⟩

theorem FiberOk.spans_inSlice (h : FiberOk M i m x) (ha : a ∈ x.frames) (hy : a.Spans M y) :
    M.base i + M.S.transientReserve ≤ y ∧ y < M.base i + M.S.size := by
  have hchain := h.chain (List.ne_nil_of_mem ha)
  obtain ⟨fn, info, view, hact⟩ := hchain.forall_ok a ha
  obtain ⟨hlow, hlt⟩ := hact.spans_bounds hy
  have := hact.high
  exact ⟨hlow, by omega⟩

def State.Ok (M : Machine τ) (s : State) : Prop := ∀ j < M.bank.fibers, FiberOk M j s.mem (s.fibers j)

theorem Step.stepOk (hs : s.Ok M) (h : Step M s i e s') :
    StepOk M i (s.Owned M) (s.fibers i) s.mem e (s'.fibers i) s'.mem := by
  cases h with
  | mk hi h =>
    show StepOk M i (s.Owned M) (s.fibers i) s.mem e (Function.update s.fibers i _ i) _
    rw [Function.update_self]
    exact h.ok hi (hs i hi) fun a ha y hy => ⟨i, hi, a, ha, hy⟩

/-- A step changes no owned byte outside its own slice. -/
theorem StepOk.foreign {x' : FiberState} (h : StepOk M i owned x m e x' m')
    (hok : FiberOk M i m x) (hy : owned y) (hout : ¬ M.InSlice i y) : m' y = m y := by
  by_contra hne
  have hspans : ¬ ∃ a ∈ x.frames ++ x'.frames, a.Spans M y := by
    rintro ⟨a, ha, hspan⟩
    rcases List.mem_append.mp ha with ha | ha
    · have := hok.spans_inSlice ha hspan
      exact hout ⟨by omega, this.2⟩
    · have := h.ok.spans_inSlice ha hspan
      exact hout ⟨by omega, this.2⟩
  have hallowed := h.allowed y hne
  cases e with
  | program => exact hallowed hy
  | setjmp inst env => exact hallowed.elim (fun hin => hin.2.2 hy) hspans
  | _ => exact hspans hallowed

theorem Step.fibers_ne (h : Step M s i e s') (hji : j ≠ i) : s'.fibers j = s.fibers j := by
  cases h with
  | mk _ _ => exact Function.update_of_ne hji _ _

theorem inSlice_unique (h : M.InSlice i y) (h' : M.InSlice j y) : i = j := by
  rcases Nat.lt_trichotomy i j with hlt | rfl | hlt
  · have := M.slices_disjoint hlt
    exact absurd h.2 (by have := h'.1; omega)
  · rfl
  · have := M.slices_disjoint hlt
    exact absurd h'.2 (by have := h.1; omega)

/-- A step of one fiber keeps all of them in order. -/
theorem Step.ok (hs : s.Ok M) (h : Step M s i e s') : s'.Ok M := by
  intro j hj
  have hstep := h.stepOk hs
  have hi : i < M.bank.fibers := by cases h; assumption
  rcases Nat.lt_trichotomy j i with hlt | rfl | hlt
  case inr.inl => exact hstep.ok
  all_goals
    -- the other fibers keep every byte they rely on
    rw [h.fibers_ne (by omega)]
    refine (hs j hj).congr fun a ha y hy => ?_
    obtain ⟨fn, info, view, hact⟩ := ((hs j hj).chain (List.ne_nil_of_mem ha)).forall_ok a ha
    refine hstep.foreign (hs i hi) ⟨j, hj, a, ha, hy.owns⟩ fun hin => ?_
    have := inSlice_unique hin (hact.owns_inSlice hy.owns)
    omega

/-- Every reachable state is in order. -/
theorem Reachable.ok (h : Reachable M s) : s.Ok M := by
  induction h with
  | init mem => exact fun j _ => ⟨rfl, fun hne => absurd rfl hne, fun hne => absurd rfl hne⟩
  | step _ hstep ih => exact hstep.ok ih

end BpfCapsule.Stackify

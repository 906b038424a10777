import BpfCapsule.Stackify.StackSafety

/-!
# BpfCapsule — the bounds of a slice

What the invariant of the software stack means for the slice of a fiber: `sp` and `fp` stay inside
it, activations are disjoint and above the transient reserve, the generated arithmetic never wraps,
and a claim that would come below the floor is refused before anything is written. A fiber whose
root has returned is outside all of this: the root's linkage holds a zero frame pointer, and the
return leaves `sp` above the linkage words (`root_return_leaves_slice`).
-/

namespace BpfCapsule.Stackify

variable {τ : Type} {M : Machine τ} {i : Nat}

/-- `sp` and `fp` lie in the slice, and the activations in its upper half, disjoint from each other.
Inside an activation every block lies below the blocks carved before it, all of them below the local
frame. -/
structure SliceSafe (M : Machine τ) (i : Nat) (x : FiberState) : Prop where
  sp : M.InSlice i x.sp
  fp : M.InSlice i x.fp
  bounds : ∀ a ∈ x.frames, ∀ y, a.Spans M y →
    M.base i + M.S.transientReserve ≤ y ∧ y < M.base i + M.S.size
  disjoint : x.frames.Pairwise fun a b => ∀ y, ¬ (a.Spans M y ∧ b.Spans M y)
  carved : ∀ a ∈ x.frames, ∀ info, M.layout.frames[a.fn]? = some info →
    a.blocks.Pairwise (fun b c => b.start + b.bytes ≤ c.start) ∧
      ∀ b ∈ a.blocks, b.start + b.bytes + info.frameSize ≤ a.fp

/-- The subtractions, additions and products of the code at the fiber's position are exact. -/
structure NoWrap (M : Machine τ) (x : FiberState) (f : Nat) (fn : Function τ) (info : FrameInfo) :
    Prop where
  prologue : x.pos = .entry f → ∀ sp, M.prologue info x.fp = some sp → info.frameSize ≤ x.fp
  slots : x.pos = .body f → info.frameSize ≤ x.fp
  ret : x.pos = .body f → x.fp + linkageBytes < 2 ^ 64
  call : x.pos = .body f → ∀ (j : Nat) (site : CallSite τ) (l : ManagedCallLayout),
    fn.body[j]? = some (.call site) →
    M.callLayout site fn.name = .ok l →
      l.size ≤ Machine.callerSp fn info x.sp x.fp
  resume : ∀ (j : Nat) (site : CallSite τ) (l : ManagedCallLayout), x.pos = .afterCall f j →
    fn.body[j]? = some (.call site) →
    M.callLayout site fn.name = .ok l →
      linkageBytes ≤ x.sp ∧ x.sp - linkageBytes + l.size < 2 ^ 64
  carve : x.pos = .body f → ∀ (j : Nat) (type : τ) (align : Align) (width count next : Nat),
    fn.body[j]? = some (.alloca type align (.dynamic width)) →
    M.carve (M.dl.allocSize type) align count x.sp = some next →
      count * M.dl.allocSize type + (M.carveAlign align - 1) + M.layout.reserveFloor < 2 ^ 64 ∧
      count * M.dl.allocSize type ≤ x.sp

/-- The two checks refuse exactly the claims that would come below the floor. -/
structure Refuses (M : Machine τ) (i : Nat) (x : FiberState) (f : Nat) (fn : Function τ)
    (info : FrameInfo) : Prop where
  prologue : x.pos = .entry f → (M.prologue info x.fp = none ↔
    x.fp < M.base i + M.layout.reserveFloor + info.frameSize)
  carve : x.pos = .body f → ∀ (j : Nat) (type : τ) (align : Align) (width count : Nat),
    fn.body[j]? = some (.alloca type align (.dynamic width)) →
      (M.carve (M.dl.allocSize type) align count x.sp = none ↔
        M.S.size / M.dl.allocSize type < count ∨ x.sp < M.base i + M.layout.reserveFloor +
          count * M.dl.allocSize type + (M.carveAlign align - 1))

/-- A step writes bytes of live activations only, and none when it is refused. -/
structure StepSafe (M : Machine τ) (s : State) (i : Nat) (e : Event) (s' : State) : Prop where
  writes : ∀ y, s'.mem y ≠ s.mem y →
    Allowed M (s.Owned M) ((s.fibers i).frames ++ (s'.fibers i).frames) e y
  refused : e = .stackOverflow →
    s'.mem = s.mem ∧ s'.fibers i = { s.fibers i with pos := .overflow }

variable {m : Mem} {x : FiberState}

/-- As long as its root has not returned, a fiber has a top activation, and `fp` is its frame. -/
theorem FiberOk.frames_ne_nil (h : FiberOk M i m x) (hpos : x.pos ≠ .done) :
    ∃ a rest, x.frames = a :: rest ∧ x.fp = a.fp := by
  have hstands := h.pos
  unfold PosOk at hstands
  split at hstands
  case h_1 hdone => exact absurd hdone hpos
  case h_2 => exact hstands
  case h_3 =>
    obtain ⟨a, rest, hframes, hfp, -⟩ := hstands
    exact ⟨a, rest, hframes, hfp⟩
  all_goals
    obtain ⟨a, rest, _, _, _, hrun, -⟩ := hstands
    exact ⟨a, rest, hrun.frames, hrun.fp⟩

/-- Each activation lies below its callers, so no two of a chain share a byte. -/
theorem Chain.disjoint {l : List Activation} (h : Chain M i m l) :
    l.Pairwise fun a b => ∀ y, ¬ (a.Spans M y ∧ b.Spans M y) := by
  induction l with
  | nil => exact .nil
  | cons a rest ih =>
    refine List.pairwise_cons.mpr ⟨fun b hb y ⟨hya, hyb⟩ => ?_, ?_⟩
    · obtain ⟨_, _, _, hok⟩ := h.head
      have := (hok.spans_bounds hya).2
      have := h.spans_above b hb y hyb
      omega
    · cases rest with
      | nil => exact .nil
      | cons b rest => exact ih (h.tail (List.cons_ne_nil _ _))

theorem FiberOk.sliceSafe (h : FiberOk M i m x) (hpos : x.pos ≠ .done) : SliceSafe M i x := by
  obtain ⟨a, rest, hframes, hfp⟩ := h.frames_ne_nil hpos
  have hne : x.frames ≠ [] := by simp [hframes]
  obtain ⟨fn, info, view, hact⟩ := (hframes ▸ h.chain hne : Chain M i m (a :: rest)).head
  have hsp := h.sp hne
  refine ⟨⟨by omega, hsp.2⟩, hfp ▸ hact.inSlice, fun b hb y hy => h.spans_inSlice hb hy,
    (h.chain hne).disjoint, fun b hb info hinfo => ?_⟩
  obtain ⟨_, _, _, hb⟩ := (h.chain hne).forall_ok b hb
  cases Option.some.inj (hb.managed.info.symm.trans hinfo)
  exact ⟨hb.ordered, fun c hc => (hb.blocks c hc).2.2.2⟩

/-- Every wrapping operation of the generated code is exact where the invariant holds. -/
theorem FiberOk.noWrap (hi : i < M.bank.fibers) (h : FiberOk M i m x) {f : Nat} {fn : Function τ}
    {info : FrameInfo} {view : ManagedCallLayout} (hf : M.Managed f fn info view) :
    NoWrap M x f fn info := by
  have hbytes : linkageBytes = 16 := rfl
  refine ⟨fun hpos sp hclaim => ?_, fun hpos => ?_, fun hpos => ?_, fun hpos j site l hj hl => ?_,
    fun j site l hpos hj hl => ?_, fun hpos j type align width count next hj hcarve => ?_⟩
  · obtain ⟨a, rest, -, hfp, -, -, -, hact⟩ := h.atEntry hpos hf
    rw [hfp] at hclaim ⊢
    have := (prologue_some hi hact hclaim).1
    omega
  · obtain ⟨a, rest, hrun, -, hact, -⟩ := h.running hpos hf
    have := hact.claimed hrun.claimed
    rw [hrun.fp]
    omega
  · obtain ⟨a, rest, hrun, -, hact, -⟩ := h.running hpos hf
    have := hact.lt_word hi
    rw [hrun.fp]
    omega
  · obtain ⟨a, rest, hrun, -, hact, hsp⟩ := h.running hpos hf
    have := (calleeFp_bounds hi hact hrun.claimed hsp hj hl).1
    rw [hrun.fp]
    omega
  · obtain ⟨a, rest, c, -, hact, hsp, hfront⟩ := h.afterCall hpos hf hj hl
    have := hact.lt_word hi
    have := hfront.le
    omega
  · obtain ⟨a, rest, hrun, -, hact, hsp⟩ := h.running hpos hf
    have hdynamic := dynamicSp_of_moves hj rfl
    have hfront := hsp (.inl hdynamic)
    have halign := M.laid.fits _ hf.mem _ (List.mem_of_getElem? hj)
    have hbounds := hfront.toFrontier.bounds hact
    have hword := hact.lt_word hi
    have hle := hfront.le
    have hsome : M.carve (M.dl.allocSize type) align count x.sp ≠ none := by
      rw [hcarve]
      exact Option.some_ne_none next
    rw [Ne, carve_eq_none_iff ⟨by omega, hbounds.2⟩ halign] at hsome
    exact ⟨by omega, by omega⟩

theorem FiberOk.refuses (h : FiberOk M i m x) {f : Nat} {fn : Function τ} {info : FrameInfo}
    {view : ManagedCallLayout} (hf : M.Managed f fn info view) : Refuses M i x f fn info := by
  refine ⟨fun hpos => ?_, fun hpos j type align width count hj => ?_⟩
  · obtain ⟨a, rest, -, hfp, -, -, -, hact⟩ := h.atEntry hpos hf
    rw [hfp, prologue_eq hact]
    exact ite_eq_left_iff.trans ⟨fun h => by_contra fun hge => absurd (h hge) (by simp),
      fun hlt hge => absurd hlt hge⟩
  · obtain ⟨a, rest, hrun, -, hact, hsp⟩ := h.running hpos hf
    have hbounds := (hsp (.inl (dynamicSp_of_moves hj rfl))).toFrontier.bounds hact
    exact carve_eq_none_iff ⟨by omega, hbounds.2⟩ (M.laid.fits _ hf.mem _ (List.mem_of_getElem? hj))

theorem Step.stepSafe {s s' : State} {e : Event} (hs : s.Ok M) (h : Step M s i e s') :
    StepSafe M s i e s' := by
  refine ⟨(h.stepOk hs).allowed, fun he => ?_⟩
  cases h with
  | mk hi hstep =>
    show _ = s.mem ∧ Function.update s.fibers i _ i = _
    rw [Function.update_self]
    subst he
    cases hstep with
    | refuse => exact ⟨rfl, rfl⟩
    | refuseCarve => exact ⟨rfl, rfl⟩

/-- In every state of every run, of every fiber: while its root has not returned, `sp` and `fp` lie
in its slice, its activations are disjoint from each other and above the transient reserve, the
generated arithmetic is exact, and the claims that are refused are those that would come below the
floor. The activations of different fibers are disjoint too, a step writes only where it may, and
a refused claim leaves memory, `sp` and `fp` as they were. -/
theorem stack_slice_invariant (M : Machine τ) {s : State} (hs : Reachable M s) {i : Nat}
    (hi : i < M.bank.fibers) :
    ((s.fibers i).pos ≠ .done → SliceSafe M i (s.fibers i)) ∧
      (∀ f fn info view, M.Managed f fn info view →
        NoWrap M (s.fibers i) f fn info ∧ Refuses M i (s.fibers i) f fn info) ∧
      (∀ j < M.bank.fibers, j ≠ i → ∀ a ∈ (s.fibers i).frames, ∀ b ∈ (s.fibers j).frames,
        ∀ y, ¬ (a.Spans M y ∧ b.Spans M y)) ∧
      ∀ e s', Step M s i e s' → StepSafe M s i e s' := by
  have hok := hs.ok
  refine ⟨(hok i hi).sliceSafe, fun f fn info view hf => ⟨(hok i hi).noWrap hi hf, (hok i hi).refuses hf⟩,
    ?_, fun e s' h => h.stepSafe hok⟩
  intro j hj hji a ha b hb y ⟨hya, hyb⟩
  have hin := (hok i hi).spans_inSlice ha hya
  have hin' := (hok j hj).spans_inSlice hb hyb
  exact hji (inSlice_unique ⟨by omega, hin'.2⟩ ⟨by omega, hin.2⟩)

/-! ## A loaded program

`main` prepares a jump, saves the stack, carves a buffer and calls `work` with one fixed and five
variadic arguments: an `int`, a structure in two words, an `__int128`, a 24-byte object by value and
a `long`. A type is its size and the logarithm of its alignment here. -/

namespace Sample

def dl : DataLayout (Nat × Nat) where
  isSized _ := true
  isScalable _ := false
  allocSize t := t.1
  abiAlign t := ⟨t.2⟩

def S : Slice := ⟨12, by decide⟩

def site : CallSite (Nat × Nat) where
  type := ⟨some (8, 3), [(4, 2)], true⟩
  args := [⟨(4, 2), {}⟩, ⟨(4, 2), {}⟩, ⟨(16, 3), {}⟩, ⟨(16, 4), {}⟩,
    ⟨(8, 3), { byVal := some (24, 3), align := some ⟨3⟩ }⟩, ⟨(8, 3), {}⟩]

def main : Function (Nat × Nat) where
  name := "main"
  returnType := none
  args := []
  isVarArg := false
  source := [.setjmp, .alloca (1, 0) ⟨0⟩ (.dynamic 32), .call site, .stackSave]
  body := [.setjmp, .alloca (1, 0) ⟨0⟩ (.dynamic 32), .call site, .stackSave]
  same_calls := rfl

def work : Function (Nat × Nat) where
  name := "work"
  returnType := some (8, 3)
  args := [⟨(4, 2), {}⟩]
  isVarArg := true
  source := []
  body := []
  same_calls := rfl

def start : RootCall (Nat × Nat) := ⟨"start", 0, ⟨⟨none, [], false⟩, []⟩⟩

def program : Program (Nat × Nat) := ⟨[main, work], [start]⟩

def mainInfo : FrameInfo := ⟨[0, 8, 16, 16], 32⟩
def mainView : ManagedCallLayout := ⟨[], [], 0, 16, 16⟩
def workView : ManagedCallLayout := ⟨[24], [8], 16, 32, 32⟩

/-- The caller's layout of `site`. -/
def siteLayout : ManagedCallLayout :=
  ⟨[24, 32, 40, 64, 80, 104], [8, 8, 8, 16, 8, 8], 16, 112, 112⟩

example : site.layout dl S 16 "main" = .ok siteLayout := rfl

def regionId : Pos → Nat
  | .done => 0xffffffff
  | .afterCall _ _ => 1
  | .afterSetjmp _ _ => 2
  | _ => 0

/-- Only `main` has resume states: one call and one `setjmp`. -/
theorem hasState {pos : Pos} (h : program.HasState pos) :
    pos = .done ∨ pos = .afterCall 0 2 ∨ pos = .afterSetjmp 0 0 := by
  cases pos with
  | done => exact .inl rfl
  | afterCall f j =>
    obtain ⟨fn, site, hfn, hj⟩ := h
    match f, j with
    | 0, 2 => exact .inr (.inl rfl)
    | 0, 0 | 0, 1 | 0, 3 | 0, j + 4 => cases hfn; cases hj
    | 1, j => cases hfn; cases hj
    | f + 2, j => cases hfn
  | afterSetjmp f j =>
    obtain ⟨fn, hfn, hj⟩ := h
    match f, j with
    | 0, 0 => exact .inr (.inr rfl)
    | 0, 1 | 0, 2 | 0, 3 | 0, j + 4 => cases hfn; cases hj
    | 1, j => cases hfn; cases hj
    | f + 2, j => cases hfn
  | entry f => exact h.elim
  | body f => exact h.elim
  | overflow => exact h.elim

def machine : Machine (Nat × Nat) where
  dl := dl
  S := S
  program := program
  views := [mainView, workView]
  layout := ⟨16, [mainInfo, ⟨[], 0⟩], 2160, 4080⟩
  accepted := rfl
  tier := .fixed
  order := .little
  bank := ⟨2 ^ 32, 4096, 2, by decide, by decide, by decide, by decide⟩
  regionId := regionId
  regionId_lt pos := by unfold regionId; split <;> decide
  regionId_inj pos pos' h h' heq := by
    rcases hasState h with rfl | rfl | rfl <;> rcases hasState h' with rfl | rfl | rfl <;>
      first | rfl | exact absurd heq (by decide)

theorem managed_main : machine.Managed 0 main mainInfo mainView := ⟨rfl, rfl, rfl⟩

theorem managed_work : machine.Managed 1 work ⟨[], 0⟩ workView := ⟨rfl, rfl, rfl⟩

theorem start_of_main : start.site.Of main := ⟨rfl, Nat.le_refl _, rfl⟩

theorem site_of_work : Sample.site.Of work := ⟨rfl, by decide, rfl⟩

/-- The frame pointer of `main` on the first fiber. -/
def rootFp : Nat := 2 ^ 32 + 4096 + 4080

/-- A state in which only the first fiber has run. -/
def alone (m : Mem) (x : FiberState) : State := ⟨m, Function.update (fun _ => {}) 0 x⟩

theorem step_alone {m' : Mem} {x' : FiberState} {e : Event}
    (h : FiberStep machine 0 ((alone m x).Owned machine) x m e x' m') :
    Step machine (alone m x) 0 e (alone m' x') := by
  have hstep : Step machine (alone m x) 0 e ⟨m', Function.update (alone m x).fibers 0 x'⟩ :=
    ⟨by decide, h⟩
  rwa [alone, Function.update_idem] at hstep

/-- At the entry of `main`, after its root call was written. -/
def started (m : Mem) : State := alone (machine.linkage m rootFp 0 .done)
  { pos := .entry 0, sp := rootFp, fp := rootFp, frames := [{ fn := 0, fp := rootFp, out := 16 }] }

theorem reachable_started (m : Mem) : Reachable machine (started m) := by
  refine (Reachable.init m).step (e := .start 0 rootFp) ⟨by decide, ?_⟩
  exact .start (r := start) (.inl rfl) List.mem_cons_self managed_main.fn
    start_of_main rfl (by decide) fun _ _ => rfl

/-- `main` has claimed its frame. -/
def entered (m : Mem) : State := alone (machine.linkage m rootFp 0 .done)
  { pos := .body 0, sp := rootFp - 32, fp := rootFp
    frames := [{ fn := 0, fp := rootFp, out := 16, claimed := true }] }

theorem reachable_entered (m : Mem) : Reachable machine (entered m) :=
  (reachable_started m).step (step_alone (.enter rfl managed_main
    (show machine.prologue mainInfo rootFp = some (rootFp - 32) by decide)))

def memSaved : Mem := machine.store64 (entered fun _ => 0).mem (rootFp - 16) (rootFp - 32)
def memCarved : Mem := machine.store64 memSaved (rootFp - 24) (rootFp - 80)
def memNested : Mem := machine.linkage memCarved (rootFp - 192) rootFp (.afterCall 0 2)

def mainSaved : Activation :=
  { fn := 0, fp := rootFp, out := 16, claimed := true
    saves := Function.update (fun _ => none) 3 (some (rootFp - 32)) }

def mainCarved : Activation := { mainSaved with blocks := [⟨rootFp - 80, 40⟩] }

/-- `main` has saved the stack, -/
def saved : State := alone memSaved { pos := .body 0, sp := rootFp - 32, fp := rootFp, frames := [mainSaved] }

/-- carved 40 bytes, -/
def carved : State := alone memCarved
  { pos := .body 0, sp := rootFp - 80, fp := rootFp, frames := [mainCarved] }

/-- and called `work`, -/
def called : State := alone memNested
  { pos := .entry 1, sp := rootFp - 80, fp := rootFp - 192
    frames := [{ fn := 1, fp := rootFp - 192, out := 112, returnTo := .afterCall 0 2 }, mainCarved] }

/-- which runs. -/
def nested : State := alone memNested
  { pos := .body 1, sp := rootFp - 192, fp := rootFp - 192
    frames := [{ fn := 1, fp := rootFp - 192, out := 112, returnTo := .afterCall 0 2, claimed := true },
      mainCarved] }

theorem step_saved : Step machine (entered fun _ => 0) 0 (.save 3) saved :=
  step_alone (.save (j := 3) rfl managed_main rfl rfl)

theorem step_carved : Step machine saved 0 (.carve (rootFp - 80)) carved :=
  step_alone (.carve (j := 1) rfl managed_main rfl rfl (show 40 < 2 ^ 64 by decide) (by decide)
    (show machine.carve 1 ⟨0⟩ 40 (rootFp - 32) = some (rootFp - 80) by decide))

theorem step_called : Step machine carved 0 (.call 2 1 112) called :=
  step_alone (.call (j := 2) rfl managed_main rfl rfl
    managed_work.fn site_of_work
    (show rootFp - 192 = Machine.calleeFp main mainInfo siteLayout (rootFp - 80) rootFp by decide)
    (show rootFp - 192 = machine.outFrame 0 main mainInfo siteLayout (rootFp - 80) rootFp by decide)
    fun _ _ => rfl)

theorem step_nested : Step machine called 0 .enter nested :=
  step_alone (.enter rfl managed_work
    (show machine.prologue ⟨[], 0⟩ (rootFp - 192) = some (rootFp - 192) by decide))

theorem reachable_nested : Reachable machine nested :=
  ((((reachable_entered _).step step_saved).step step_carved).step step_called).step step_nested

end Sample

/-- A reachable state: the slice facts hold with two activations, one of them with a block. -/
theorem stack_slice_invariant_main : Reachable Sample.machine Sample.nested ∧
    SliceSafe Sample.machine 0 (Sample.nested.fibers 0) :=
  ⟨Sample.reachable_nested,
    (stack_slice_invariant Sample.machine Sample.reachable_nested (by decide)).1 (by decide)⟩

/-- When the root has returned, the fiber's `fp` is zero and its `sp` is the end of the slice: both
lie outside it. -/
theorem root_return_leaves_slice : ∃ s, Reachable Sample.machine s ∧ (s.fibers 0).pos = .done ∧
    ¬ Sample.machine.InSlice 0 (s.fibers 0).fp ∧ ¬ Sample.machine.InSlice 0 (s.fibers 0).sp := by
  let s := Sample.entered fun _ => 0
  obtain ⟨hsaved, hregion, -⟩ := linkage_ok (M := Sample.machine) (fun _ => 0) .done
    (show Sample.rootFp + linkageBytes ≤ 2 ^ 64 by decide) (show 0 < 2 ^ 64 by decide)
  have hframe : Sample.rootFp = Sample.machine.framePointer 0 Sample.rootFp := by decide
  have hzero : Word.offset 64 Sample.rootFp 0 = Sample.rootFp := by decide
  have height : Word.offset 64 Sample.rootFp 8 = Sample.rootFp + 8 := by decide
  have hret : FiberStep Sample.machine 0 (s.Owned Sample.machine) (s.fibers 0) s.mem .ret
      { pos := .done, sp := Word.add 64 Sample.rootFp linkageBytes
        fp := Sample.machine.load64 s.mem (Word.offset 64 Sample.rootFp 0), frames := [] } s.mem :=
    .ret (f := 0) rfl trivial Sample.managed_main hframe (fun _ _ => rfl)
      (height ▸ hregion.symm)
  have hfp : Sample.machine.load64 s.mem Sample.rootFp = 0 := hsaved
  rw [hzero, hfp] at hret
  refine ⟨_, (Sample.reachable_entered _).step ⟨by decide, hret⟩, rfl, ?_, ?_⟩
  · show ¬ Sample.machine.InSlice 0 0
    exact fun h => absurd h.1 (by decide)
  · show ¬ Sample.machine.InSlice 0 (Word.add 64 Sample.rootFp linkageBytes)
    exact fun h => absurd h.2 (by decide)

end BpfCapsule.Stackify

import BpfCapsule.Stackify.VarArgs

/-!
# BpfCapsule — `setjmp` and `longjmp`

The abstract layer is a stack of calls (`Calls`): a call pushes, a return pops and goes on where the
call was made, `setjmp` remembers the frontier, and `longjmp` lets the calls in between return one
after another and then jumps inside the frame that is left (`Calls.unwind`, `Calls.jump`). It knows
no memory: no linkage word, no saved frontier and no `jmp_buf`.

`FiberStep.follows` is the simulation: whatever a fiber reads back from memory, from `fp` and from
`sp` is what the stack of calls says. `longjmp_as_if_returned` puts it together over whole runs.
-/

namespace BpfCapsule.Stackify

variable {τ : Type}

/-! ## The stack of calls -/

/-- One call: the frame of the callee, its own frontier, where it returns to, the frontiers it saved
and the jumps it prepared, each with the frontier of that time. -/
structure Call where
  fn : Nat
  fp : Nat
  frontier : Nat
  returnTo : Pos := .done
  saves : Nat → Option Nat := fun _ => none
  jumps : List (Nat × Nat) := []

/-- `result` is what the `setjmp` that is about to return will return. -/
structure Calls where
  pos : Pos := .done
  stack : List Call := []
  result : Nat := 0

namespace Calls

def mapTop (c : Calls) (g : Call → Call) : Calls := { c with stack := c.stack.modifyHead g }

def ret (c : Calls) : Option Calls :=
  match c.pos, c.stack with
  | .body _, top :: rest => some { c with pos := top.returnTo, stack := rest }
  | _, _ => none

def resume (c : Calls) : Option Calls :=
  match c.pos with
  | .afterCall f _ => some { c with pos := .body f }
  | _ => none

/-- The top `k` calls return. -/
def unwind : Nat → Calls → Option Calls
  | 0, c => some c
  | k + 1, c => c.ret.bind fun c => c.resume.bind (unwind k)

/-- `longjmp` inside the frame of the `setjmp`. -/
def jump (n value : Nat) (c : Calls) : Option Calls :=
  match c.pos, c.stack with
  | .body f, top :: rest =>
    top.jumps[n]?.map fun (inst, frontier) =>
      { pos := .afterSetjmp f inst, stack := { top with frontier := frontier } :: rest
        result := if value = 0 then 1 else value }
  | _, _ => none

def enter (frames : List FrameInfo) (c : Calls) : Option Calls :=
  match c.pos, c.stack with
  | .entry f, top :: rest =>
    frames[f]?.map fun info =>
      { c with pos := .body f, stack := { top with frontier := top.fp - info.frameSize } :: rest }
  | _, _ => none

def call (inst callee out : Nat) (c : Calls) : Option Calls :=
  match c.pos, c.stack with
  | .body f, top :: rest =>
    let fp := top.frontier - out
    some { c with
      pos := .entry callee
      stack := { fn := callee, fp := fp, frontier := fp, returnTo := .afterCall f inst } :: top :: rest }
  | _, _ => none

def restore (inst : Nat) (c : Calls) : Option Calls :=
  match c.stack with
  | top :: rest =>
    (top.saves inst).map fun frontier => { c with stack := { top with frontier := frontier } :: rest }
  | [] => none

def setjmp (inst : Nat) (c : Calls) : Option Calls :=
  match c.pos with
  | .body f => some ({ c with pos := .afterSetjmp f inst, result := 0 }.mapTop
      fun top => { top with jumps := (inst, top.frontier) :: top.jumps })
  | _ => none

def setjmpReturns (inst value : Nat) (c : Calls) : Option Calls :=
  match c.pos with
  | .afterSetjmp f j => if j = inst ∧ c.result = value then some { c with pos := .body f } else none
  | _ => none

/-- What an event does to the stack; `none` where the stack of calls does not allow it. -/
def step (frames : List FrameInfo) (c : Calls) : Event → Option Calls
  | .tau => some c
  | .program => some c
  | .start callee fp =>
    some { pos := .entry callee, stack := [{ fn := callee, fp := fp, frontier := fp }] }
  | .enter => c.enter frames
  | .stackOverflow => some { c with pos := .overflow }
  | .call inst callee out => c.call inst callee out
  | .ret => c.ret
  | .resume => c.resume
  | .carve sp => some (c.mapTop fun top => { top with frontier := sp })
  | .save inst => some (c.mapTop fun top =>
      { top with saves := Function.update top.saves inst (some top.frontier) })
  | .restore inst => c.restore inst
  | .setjmp inst _ => c.setjmp inst
  | .setjmpReturns inst value => c.setjmpReturns inst value
  | .longjmp depth n value => (c.unwind depth).bind (jump n value)

def run (frames : List FrameInfo) (events : List Event) : Option Calls :=
  events.foldlM (step frames) {}

end Calls

/-! ## The simulation relation -/

structure Activation.Is (a : Activation) (t : Call) : Prop where
  fn : t.fn = a.fn
  fp : t.fp = a.fp
  returnTo : t.returnTo = a.returnTo
  saves : t.saves = a.saves
  jumps : t.jumps = a.jumps.map fun j => (j.inst, j.sp)

/-- The chain of activations and the stack of calls: each outgoing area starts at the frontier of
its caller. -/
inductive Matches : List Activation → List Call → Prop where
  | nil : Matches [] []
  | root {a : Activation} {t : Call} (h : a.Is t) : Matches [a] [t]
  | call {a b : Activation} {t u : Call} {rest : List Activation} {calls : List Call} (h : a.Is t)
      (hfront : u.frontier = a.fp + a.out) (hrest : Matches (b :: rest) (u :: calls)) :
      Matches (a :: b :: rest) (t :: u :: calls)

/-- How the frontier of the running call shows in `sp` and `fp` at a position. -/
def ShowsFrontier (M : Machine τ) (x : FiberState) (frontier : Nat) : Prop :=
  match x.pos with
  | .body f => ∀ fn info view, M.Managed f fn info view →
      Machine.callerSp fn info x.sp x.fp = frontier
  | .afterSetjmp _ _ => x.sp = frontier
  | .afterCall f j => ∀ fn info view site l, M.Managed f fn info view →
      fn.body[j]? = some (.call site) →
      M.callLayout site fn.name = .ok l →
      x.sp + l.size = frontier + linkageBytes
  | _ => True

structure Follows (M : Machine τ) (m : Mem) (x : FiberState) (c : Calls) : Prop where
  pos : c.pos = x.pos
  stack : Matches x.frames c.stack
  frontier : ∀ t, c.stack.head? = some t → ShowsFrontier M x t.frontier
  result : ∀ f j a start, x.pos = .afterSetjmp f j → x.frames.head? = some a →
    a.Slot M j .setjmp start → M.load32 m start = c.result

section

variable {M : Machine τ} {i : Nat} {m m' : Mem} {a b : Activation} {t u : Call}
  {rest frames : List Activation} {calls : List Call} {x : FiberState} {c : Calls} {fn : Function τ}
  {info : FrameInfo} {view : ManagedCallLayout} {owned : Nat → Prop}

theorem Matches.head (h : Matches (a :: rest) calls) : ∃ t ts, calls = t :: ts ∧ a.Is t := by
  cases h with
  | root h => exact ⟨_, _, rfl, h⟩
  | call h _ _ => exact ⟨_, _, rfl, h⟩

/-- The running call can be updated in place. -/
theorem Matches.replaceHead {a' : Activation} {t' : Call} (h : Matches (a :: rest) (t :: calls))
    (his : a'.Is t') (hfp : a'.fp = a.fp) (hout : a'.out = a.out) :
    Matches (a' :: rest) (t' :: calls) := by
  cases h with
  | root _ => exact .root his
  | call _ hfront hrest => exact .call his (by rw [hfp, hout]; exact hfront) hrest

variable {f j offset env : Nat} {jump : Jump}

theorem unwind_ok {k : Nat} (hchain : Chain M i m frames) (hstack : Matches frames c.stack)
    (hpos : c.pos = .body f) (htop : ∀ a, frames.head? = some a → a.fn = f)
    (ha : frames[k]? = some a) :
    ∃ c', c.unwind k = some c' ∧ c'.pos = .body a.fn ∧ Matches (frames.drop k) c'.stack := by
  induction k generalizing frames c f with
  | zero =>
    have hf : a.fn = f := htop a (List.head?_eq_getElem?.trans ha)
    exact ⟨c, rfl, hf ▸ hpos, hstack⟩
  | succ k ih =>
    cases hchain with
    | root => exact absurd ha (by simp)
    | @call top b rest _ _ _ _ _ _ j _ _ _ hrest _ _ _ _ _ _ hreturn _ =>
      obtain ⟨cpos, stack, result⟩ := c
      cases hstack with
      | @call _ _ t u _ calls his hfront hmatch =>
        subst hpos
        -- the top call returns to its call site, and the caller goes on
        have hto : t.returnTo = .afterCall b.fn j := his.returnTo.trans hreturn
        obtain ⟨c', hunwind, hpos', hstack'⟩ := ih (c := ⟨.body b.fn, u :: calls, result⟩) hrest hmatch
          rfl (fun a ha => by cases ha; rfl) ha
        refine ⟨c', ?_, hpos', hstack'⟩
        rw [← hunwind, Calls.unwind, Calls.ret]
        dsimp only
        rw [hto]
        rfl

/-- Where `sp` is maintained it is the frontier the next call starts from. -/
theorem callerSp_eq_sp (hi : i < M.bank.fibers) (hact : ActivationOk M i m a fn info view)
    (hclaimed : a.claimed = true) {sp : Nat} (hfront : Live M i a fn info sp) :
    Machine.callerSp fn info sp a.fp = sp := by
  unfold Machine.callerSp
  split
  · rfl
  · rename_i hstatic
    have hstatic : fn.dynamicSp = false := by simpa using hstatic
    have hbase := (frameBase_live hi hact hclaimed hstatic).static hstatic
    have hsp := hfront.static hstatic
    omega

structure RunningCall (M : Machine τ) (i : Nat) (m : Mem) (x : FiberState) (c : Calls) (f : Nat)
    (a : Activation) (rest : List Activation) (t : Call) (calls : List Call) (fn : Function τ)
    (info : FrameInfo) (view : ManagedCallLayout) : Prop where
  run : Running M x f a rest fn info view
  chain : Chain M i m (a :: rest)
  act : ActivationOk M i m a fn info view
  pos : c.pos = .body f
  stack : c.stack = t :: calls
  same : a.Is t
  all : Matches (a :: rest) (t :: calls)
  sp : fn.dynamicSp = true ∨ fn.hasSetjmp = true → Live M i a fn info x.sp
  callerSp : Machine.callerSp fn info x.sp a.fp = t.frontier
  frontier : fn.dynamicSp = true ∨ fn.hasSetjmp = true → x.sp = t.frontier

theorem Follows.running (hi : i < M.bank.fibers) (hok : FiberOk M i m x) (h : Follows M m x c)
    (hpos : x.pos = .body f) (hf : M.Managed f fn info view) :
    ∃ a rest t calls, RunningCall M i m x c f a rest t calls fn info view := by
  obtain ⟨a, rest, hrun, hchain, hact, hsp⟩ := hok.running hpos hf
  have hstack := h.stack
  rw [hrun.frames] at hstack
  obtain ⟨t, calls, htop, his⟩ := hstack.head
  have hshows := h.frontier t (by rw [htop]; rfl)
  rw [ShowsFrontier, hpos] at hshows
  have hcaller := hshows fn info view hf
  rw [hrun.fp] at hcaller
  exact ⟨a, rest, t, calls, hrun, hchain, hact, h.pos.trans hpos, htop, his, htop ▸ hstack, hsp, hcaller,
    fun hmoves => (callerSp_eq_sp hi hact hrun.claimed (hsp hmoves)).symm.trans hcaller⟩

theorem showsFrontier_body {frontier : Nat} (hpos : x.pos = .body f)
    (hf : M.Managed f fn info view) (hsp : Machine.callerSp fn info x.sp x.fp = frontier) :
    ShowsFrontier M x frontier := by
  rw [ShowsFrontier, hpos]
  intro fn' info' view' hf'
  obtain ⟨rfl, rfl, rfl⟩ := hf.unique hf'
  exact hsp

/-! ## One lemma for each step -/

theorem start_follows {fp out : Nat} : Follows M m'
    { pos := .entry f, sp := fp, fp := fp, frames := [{ fn := f, fp := fp, out := out }] }
    { pos := .entry f, stack := [{ fn := f, fp := fp, frontier := fp }] } :=
  ⟨rfl, .root ⟨rfl, rfl, rfl, rfl, rfl⟩, fun _ _ => trivial, fun _ _ _ _ hpos => absurd hpos (by simp)⟩

theorem enter_follows (hi : i < M.bank.fibers) {sp : Nat} (hok : FiberOk M i m x)
    (h : Follows M m x c) (hpos : x.pos = .entry f) (hf : M.Managed f fn info view)
    (hclaim : M.prologue info x.fp = some sp) :
    ∃ c', c.enter M.layout.frames = some c' ∧ Follows M m
      ({ x with pos := .body f, sp := sp }.mapHead fun a => { a with claimed := true }) c' := by
  obtain ⟨a, rest, hframes, hfp, -, -, -, hact⟩ := hok.atEntry hpos hf
  have hstack := h.stack
  rw [hframes] at hstack
  obtain ⟨t, calls, htop, his⟩ := hstack.head
  rw [htop] at hstack
  -- the claimed frame base is the new frontier
  rw [hfp] at hclaim
  obtain ⟨hbase, hfront⟩ := prologue_some hi hact hclaim
  have hsub : Word.sub 64 a.fp info.frameSize = sp := by
    rw [prologue_eq hact, if_neg (by omega)] at hclaim
    exact Option.some.inj hclaim
  have hsp : t.fp - info.frameSize = sp := by
    have hword := hact.lt_word hi
    rw [his.fp, ← hsub]
    exact (Word.sub_eq (by omega) (by omega)).symm
  have hcaller : Machine.callerSp fn info sp x.fp = sp := by
    rw [Machine.callerSp, hfp, hsub, ite_self]
  refine ⟨{ c with pos := .body f, stack := { t with frontier := sp } :: calls }, ?_, rfl, ?_, ?_, ?_⟩
  · rw [Calls.enter, h.pos.trans hpos, htop]
    dsimp only
    rw [hf.info, ← hsp]
    rfl
  · rw [FiberState.mapHead, hframes]
    exact hstack.replaceHead { his with } rfl rfl
  · intro u hu
    cases hu
    exact showsFrontier_body rfl hf hcaller
  · exact fun _ _ _ _ hbody => absurd hbody (by simp [FiberState.mapHead])

theorem overflow_follows (h : Follows M m x c) :
    Follows M m { x with pos := .overflow } { c with pos := .overflow } :=
  ⟨rfl, h.stack, fun _ _ => trivial, fun _ _ _ _ hpos => absurd hpos (by simp)⟩

/-- The three ways `sp` comes back after a call all give the frontier of the caller. -/
theorem resume_follows (hi : i < M.bank.fibers) {site : CallSite τ} {l : ManagedCallLayout}
    (hok : FiberOk M i m x) (h : Follows M m x c) (hpos : x.pos = .afterCall f j)
    (hf : M.Managed f fn info view) (hj : fn.body[j]? = some (.call site))
    (hl : M.callLayout site fn.name = .ok l) :
    ∃ c', c.resume = some c' ∧ Follows M m
      { x with pos := .body f, sp := Machine.spAfterCall fn info l x.sp x.fp } c' := by
  obtain ⟨a, rest, callee, hrun, hact, hsp, hfront⟩ := hok.afterCall hpos hf hj hl
  refine ⟨{ c with pos := .body f }, by rw [Calls.resume, h.pos.trans hpos], rfl, h.stack,
    fun t ht => ?_, fun _ _ _ _ hbody => absurd hbody (by simp)⟩
  have hshows := h.frontier t ht
  rw [ShowsFrontier, hpos] at hshows
  have hsum := hshows fn info view site l hf hj hl
  refine showsFrontier_body rfl hf ?_
  show Machine.callerSp fn info (Machine.spAfterCall fn info l x.sp x.fp) x.fp = t.frontier
  unfold Machine.callerSp
  split
  · rename_i hdynamic
    have hword := hact.lt_word hi
    have hle := hfront.le
    have hends := argsEnd_bounds hl
    have hsub : Word.sub 64 x.sp linkageBytes = x.sp - linkageBytes :=
      Word.sub_eq (by omega) (by omega)
    rw [Machine.spAfterCall, if_pos hdynamic, hsub, Word.add_eq (by omega)]
    omega
  · rename_i hstatic
    rw [hrun.fp]
    have hstatic : fn.dynamicSp = false := by simpa using hstatic
    have hbase := (frameBase_live hi hact hrun.claimed hstatic).static hstatic
    have := hfront.static hstatic
    omega

/-- After the stores of `setjmp` its result slot holds zero: the `jmp_buf` is no byte of the slot. -/
theorem saveJump_result
    (henv : ∀ y, jump.result ≤ y → y < jump.result + 4 → ¬ (env ≤ y ∧ y < env + 32)) :
    M.load32 (M.saveJump m env f jump) jump.result = 0 := by
  have hzero : M.load32 (M.store32 m jump.result 0) jump.result = 0 :=
    Bytes.load_store.trans (Nat.zero_mod _)
  rw [← hzero]
  exact Bytes.load_congr fun k hk => saveJump_eq (henv _ (by omega) (by omega))

section Body

variable (hi : i < M.bank.fibers) (hok : FiberOk M i m x) (h : Follows M m x c)
  (hpos : x.pos = .body f) (hf : M.Managed f fn info view)

include hi hok h hpos hf

theorem call_follows {g fp : Nat} {site : CallSite τ} {l : ManagedCallLayout}
    (hj : fn.body[j]? = some (.call site))
    (hl : M.callLayout site fn.name = .ok l)
    (hfp : fp = Machine.calleeFp fn info l x.sp x.fp) :
    ∃ c', c.call j g l.size = some c' ∧ Follows M m'
      { pos := .entry g, sp := x.sp, fp := fp
        frames := { fn := g, fp := fp, out := l.size, returnTo := .afterCall f j } :: x.frames } c' := by
  obtain ⟨a, rest, t, calls, hrc⟩ := h.running hi hok hpos hf
  rw [hrc.run.fp] at hfp
  obtain ⟨hend, -⟩ := calleeFp_bounds hi hrc.act hrc.run.claimed hrc.sp hj hl
  rw [← hfp, hrc.callerSp] at hend
  have hcallee : t.frontier - l.size = fp := by omega
  refine ⟨_, by rw [Calls.call, hrc.pos, hrc.stack], rfl, ?_, fun _ _ => trivial, ?_⟩
  · rw [hrc.run.frames, hcallee]
    exact .call ⟨rfl, rfl, rfl, rfl, rfl⟩ hend.symm hrc.all
  · exact fun _ _ _ _ hentry => absurd hentry (by simp)

theorem ret_follows {frame : Nat} {returnTo : Pos} (hstate : M.program.HasState returnTo)
    (hframe : frame = M.framePointer i x.fp)
    (hresult : Bytes.Outside (frame + linkageBytes) (frame + view.argsEnd) m m')
    (hregion : M.regionId returnTo = M.load32 m' (Word.offset 64 frame 8)) :
    ∃ c', c.ret = some c' ∧ Follows M m'
      { pos := returnTo, sp := Word.add 64 x.fp linkageBytes
        fp := M.load64 m' (Word.offset 64 frame 0), frames := x.frames.tail } c' := by
  obtain ⟨a, rest, t, calls, hrc⟩ := h.running hi hok hpos hf
  rw [hrc.run.fp] at hframe
  obtain ⟨rfl, hchain, htarget, -, hsum⟩ :=
    ret_reads hi hrc.chain hrc.act hstate hframe hresult hregion
  refine ⟨_, by rw [Calls.ret, hrc.pos, hrc.stack], ?_⟩
  rw [htarget, hrc.run.fp, hsum, hrc.run.frames, List.tail_cons]
  have hall := hrc.all
  cases hchain with
  | root _ hreturn _ =>
    cases hall
    exact ⟨hrc.same.returnTo, .nil, fun _ ht => absurd ht (by simp),
      fun _ _ _ _ hdone => absurd (hreturn.symm.trans hdone) (by simp)⟩
  | @call _ b rest bn _ _ _ _ _ j site l _ hrest _ hb hj hl hout _ hreturn _ =>
    cases hall with
    | call _ hfront hmatch =>
      refine ⟨hrc.same.returnTo, hmatch, fun u hu => ?_, fun _ _ _ _ hafter =>
        absurd (hreturn.symm.trans hafter) (by simp)⟩
      cases hu
      rw [ShowsFrontier, hreturn]
      -- the callee's frame pointer is the caller's frontier less the area of the call
      intro bn' info' view' site' l' hb' hj' hl'
      obtain ⟨rfl, rfl, rfl⟩ := hb.unique hb'
      cases Option.some.inj (hj.symm.trans hj')
      cases Except.ok.inj (hl.symm.trans hl')
      rw [hfront, hout]
      exact Nat.add_right_comm _ _ _

theorem carve_follows {width next : Nat} {type : τ} {align : Align} {g : List Carved → List Carved}
    (hj : fn.body[j]? = some (.alloca type align (.dynamic width))) :
    Follows M m' ({ x with sp := next }.mapHead fun a => { a with blocks := g a.blocks })
      (c.mapTop fun top => { top with frontier := next }) := by
  obtain ⟨a, rest, t, calls, hrc⟩ := h.running hi hok hpos hf
  refine ⟨h.pos, ?_, ?_, fun _ _ _ _ hafter => absurd (hpos.symm.trans hafter) (by simp)⟩
  · rw [Calls.mapTop, hrc.stack, mapHead_frames (x := { x with sp := next }) hrc.run.frames]
    exact hrc.all.replaceHead { hrc.same with } rfl rfl
  · intro u hu
    rw [Calls.mapTop, hrc.stack] at hu
    cases hu
    refine showsFrontier_body hpos hf ?_
    rw [Machine.callerSp, if_pos (dynamicSp_of_moves hj rfl)]
    rfl

theorem save_follows (hj : fn.body[j]? = some .stackSave) :
    Follows M m' (x.mapHead fun a => { a with saves := Function.update a.saves j (some x.sp) })
      (c.mapTop fun top => { top with saves := Function.update top.saves j (some top.frontier) }) := by
  obtain ⟨a, rest, t, calls, hrc⟩ := h.running hi hok hpos hf
  have hsp := hrc.frontier (.inl (dynamicSp_of_moves hj rfl))
  refine ⟨h.pos, ?_, ?_, fun _ _ _ _ hafter => absurd (hpos.symm.trans hafter) (by simp)⟩
  · rw [mapHead_frames hrc.run.frames, Calls.mapTop, hrc.stack]
    refine hrc.all.replaceHead { hrc.same with saves := ?_ } rfl rfl
    show Function.update t.saves j (some t.frontier) = Function.update a.saves j (some x.sp)
    rw [hrc.same.saves, hsp]
  · intro u hu
    rw [Calls.mapTop, hrc.stack] at hu
    cases hu
    exact h.frontier t (by rw [hrc.stack]; rfl)

theorem restore_follows {saved : Nat} (hj : fn.body[j]? = some .stackSave)
    (hoffset : info.offsets[j]? = some offset) (hhead : x.frames.head? = some b) (hsaved : b.saves j = some saved) :
    ∃ c', c.restore j = some c' ∧
      Follows M m ({ x with sp := M.load64 m (M.slot i info x.fp offset) }.mapHead
        (Activation.rewind (M.load64 m (M.slot i info x.fp offset)))) c' := by
  obtain ⟨a, rest, t, calls, hrc⟩ := h.running hi hok hpos hf
  rw [hrc.run.frames] at hhead
  cases hhead
  rw [hrc.run.fp, hrc.act.restore_reads hi hj hoffset hsaved]
  refine ⟨{ c with stack := { t with frontier := saved } :: calls }, ?_, h.pos, ?_, fun u hu => ?_,
    fun _ _ _ _ hafter => absurd (hpos.symm.trans hafter) (by simp)⟩
  · rw [Calls.restore, hrc.stack]
    dsimp only
    rw [hrc.same.saves, hsaved]
    rfl
  · rw [mapHead_frames (x := { x with sp := saved, fp := b.fp }) hrc.run.frames]
    exact hrc.all.replaceHead { hrc.same with } rfl rfl
  · cases hu
    refine showsFrontier_body hpos hf ?_
    rw [Machine.callerSp, if_pos (dynamicSp_of_moves hj rfl)]
    rfl

theorem setjmp_follows (howned : ∀ a ∈ x.frames, ∀ y, a.Owns M y → owned y)
    (hj : fn.body[j]? = some .setjmp)
    (hoffset : info.offsets[j]? = some offset) (henv : ∀ y, env ≤ y → y < env + 32 → ¬ owned y)
    (hjump : jump = ⟨j, x.sp, x.fp, M.slot i info x.fp offset⟩) :
    ∃ c', c.setjmp j = some c' ∧ Follows M (M.saveJump m env f jump)
      ({ x with pos := .afterSetjmp f j }.mapHead fun a => { a with jumps := jump :: a.jumps }) c' := by
  obtain ⟨a, rest, t, calls, hrc⟩ := h.running hi hok hpos hf
  have hsp := hrc.frontier (.inr (hasSetjmp_of_setjmp hj))
  have hslot := slot_eq hi hrc.act hrc.run.claimed hj rfl hoffset
  rw [hrc.run.fp] at hjump
  refine ⟨{ pos := .afterSetjmp f j
            stack := { t with jumps := (j, t.frontier) :: t.jumps } :: calls, result := 0 }, ?_, rfl, ?_,
    fun u hu => ?_, fun f' j' b start hafter hhead hb => ?_⟩
  · rw [Calls.setjmp, hrc.pos]
    rw [hrc.stack]
    rfl
  · rw [mapHead_frames (x := { x with pos := .afterSetjmp f j }) hrc.run.frames]
    refine hrc.all.replaceHead { hrc.same with jumps := ?_ } rfl rfl
    rw [hrc.same.jumps, hjump, List.map_cons, hsp]
  · cases hu
    exact hsp
  · cases hafter
    rw [mapHead_frames (x := { x with pos := .afterSetjmp f j }) hrc.run.frames] at hhead
    cases hhead
    have hstart : start = jump.result := by
      rw [hjump]
      exact Activation.Slot.unique hb hslot
    rw [hstart]
    -- the result slot is hidden, so no byte of it is in the program's `jmp_buf`
    apply saveJump_result
    intro y hle hlt ⟨hlo, hhi⟩
    apply henv y hlo hhi
    apply howned a (by rw [hrc.run.frames]; exact List.mem_cons_self)
    exact .inr ⟨hrc.run.claimed, j, .setjmp, start, hb, by omega, by show y < start + 4; omega⟩

end Body

theorem afterSetjmp_follows (hi : i < M.bank.fibers) (hok : FiberOk M i m x) (h : Follows M m x c)
    (hpos : x.pos = .afterSetjmp f j) (hf : M.Managed f fn info view)
    (hj : fn.body[j]? = some .setjmp) (hoffset : info.offsets[j]? = some offset) :
    M.load32 m (M.slot i info x.fp offset) = c.result ∧
      c.setjmpReturns j c.result = some { c with pos := .body f } ∧
      Follows M m { x with pos := .body f } { c with pos := .body f } := by
  obtain ⟨a, rest, hrun, hact, hfront⟩ := hok.afterSetjmp hpos hf
  have hslot := slot_eq hi hact hrun.claimed hj rfl hoffset
  refine ⟨?_, ?_, rfl, h.stack, fun t ht => ?_, fun _ _ _ _ hbody => absurd hbody (by simp)⟩
  · rw [hrun.fp]
    exact h.result f j a _ hpos (by rw [hrun.frames]; rfl) hslot
  · rw [Calls.setjmpReturns, h.pos.trans hpos]
    exact if_pos ⟨rfl, rfl⟩
  · have hshows := h.frontier t ht
    rw [ShowsFrontier, hpos] at hshows
    refine showsFrontier_body rfl hf ?_
    rw [← hshows, hrun.fp]
    exact callerSp_eq_sp hi hact hrun.claimed hfront

theorem longjmp_follows {k n value : Nat} {target : Pos} (hok : FiberOk M i m x)
    (h : Follows M m x c) (hpos : x.pos = .body f) (hlive : x.frames[k]? = some a)
    (hjump : a.jumps[n]? = some jump) (henv : M.Holds m env a.fn jump) (hvalue : value < 2 ^ 32)
    (hstate : M.program.HasState target) (htarget : M.regionId target = M.load32 m env) :
    ∃ c', (c.unwind k).bind (Calls.jump n value) = some c' ∧
      Follows M (M.store32 m (M.load64 m (env + 24)) (if value = 0 then 1 else value))
        { pos := target, sp := M.load64 m (env + 8), fp := M.load64 m (env + 16)
          frames := (x.frames.drop k).modifyHead (Activation.rewind (M.load64 m (env + 8))) } c' := by
  obtain ⟨hne, top, rest, hframes, -⟩ := hok.frames_ne hpos
  have hchain := hok.chain hne
  have hindex : ∀ b, x.frames.head? = some b → b.fn = f := by
    have hstands := hok.pos
    rw [PosOk, hpos] at hstands
    obtain ⟨b, rest', _, _, _, hrun, -⟩ := hstands
    rw [hrun.frames]
    intro b' hb'
    cases hb'
    exact hrun.index
  obtain ⟨fn, info, view, ht⟩ := jumpTarget hok hpos hlive hjump henv hstate htarget
  -- the calls above the target return, and leave its activation on top
  obtain ⟨c₁, hunwind, hpos₁, hstack₁⟩ := unwind_ok hchain h.stack (h.pos.trans hpos) hindex hlive
  rw [ht.frames] at hstack₁ ⊢
  obtain ⟨t, calls, htop, his⟩ := hstack₁.head
  rw [htop] at hstack₁
  have hprepared : t.jumps[n]? = some (jump.inst, jump.sp) := by
    rw [his.jumps, List.getElem?_map, hjump]
    rfl
  refine ⟨{ pos := .afterSetjmp a.fn jump.inst, stack := { t with frontier := jump.sp } :: calls
            result := if value = 0 then 1 else value }, ?_, ht.target.symm, ?_, fun u hu => ?_,
    fun f' j b start hafter hhead hb => ?_⟩
  · rw [hunwind, Option.bind_some, Calls.jump, hpos₁, htop]
    dsimp only
    rw [hprepared]
    rfl
  · exact hstack₁.replaceHead { his with } rfl rfl
  · cases hu
    rw [ShowsFrontier, ht.target]
    exact henv.sp
  · cases hhead
    cases ht.target.symm.trans hafter
    rw [hb.unique ht.slot, henv.result]
    have hlt : (if value = 0 then 1 else value) < 2 ^ 32 := by split <;> omega
    exact Bytes.load_store.trans (Nat.mod_eq_of_lt hlt)

/-- Every step of a fiber is a step of the abstract stack, which it goes on following. -/
theorem FiberStep.follows (hi : i < M.bank.fibers) {e : Event} {x' : FiberState}
    (hok : FiberOk M i m x) (howned : ∀ a ∈ x.frames, ∀ y, a.Owns M y → owned y)
    (hfollows : Follows M m x c) (h : FiberStep M i owned x m e x' m') :
    ∃ c', c.step M.layout.frames e = some c' ∧ Follows M m' x' c' := by
  -- inside a body nothing of the relation depends on memory
  have hbody : ∀ {f : Nat} {m' : Mem}, x.pos = .body f → Follows M m' x c := fun hpos =>
    { hfollows with result := fun _ _ _ _ hafter => absurd (hpos.symm.trans hafter) (by simp) }
  cases h with
  | start => exact ⟨_, rfl, start_follows⟩
  | enter hpos hf hclaim => exact enter_follows hi hok hfollows hpos hf hclaim
  | refuse => exact ⟨_, rfl, overflow_follows hfollows⟩
  | refuseCarve => exact ⟨_, rfl, overflow_follows hfollows⟩
  | call hpos hf hj hl hg hsite hfp hout hargs => exact call_follows hi hok hfollows hpos hf hj hl hfp
  | ret hpos hstate hf hframe hresult hregion =>
    exact ret_follows hi hok hfollows hpos hf hstate hframe hresult hregion
  | resume hpos hf hj hl => exact resume_follows hi hok hfollows hpos hf hj hl
  | carve hpos hf hj => exact ⟨_, rfl, carve_follows hi hok hfollows hpos hf hj⟩
  | zeroCarve hpos => exact ⟨c, rfl, hbody hpos⟩
  | save hpos hf hj => exact ⟨_, rfl, save_follows hi hok hfollows hpos hf hj⟩
  | restore hpos hf hj hoffset hhead hsaved =>
    exact restore_follows hi hok hfollows hpos hf hj hoffset hhead hsaved
  | setjmp hpos hf hj hoffset henv hjump =>
    exact setjmp_follows hi hok hfollows hpos hf howned hj hoffset henv hjump
  | afterSetjmp hpos hf hj hoffset =>
    obtain ⟨hresult, hreturns, hfollows'⟩ := afterSetjmp_follows hi hok hfollows hpos hf hj hoffset
    rw [hresult]
    exact ⟨_, hreturns, hfollows'⟩
  | longjmp hpos hlive hjump henv hvalue hstate htarget =>
    exact longjmp_follows hok hfollows hpos hlive hjump henv hvalue hstate htarget
  | suspend => exact ⟨c, rfl, hfollows⟩
  | write hpos => exact ⟨c, rfl, hbody hpos⟩

theorem Follows.foreign {s s' : State} {e : Event} (hs : s.Ok M) (hj : j < M.bank.fibers)
    (h : Follows M s.mem (s.fibers j) c) (hstep : Step M s i e s') (hji : j ≠ i) :
    Follows M s'.mem (s'.fibers j) c := by
  rw [hstep.fibers_ne hji]
  refine { h with result := fun f k a start hpos hhead hslot => ?_ }
  rw [← h.result f k a start hpos hhead hslot]
  have hmem : a ∈ (s.fibers j).frames := List.mem_of_mem_head? hhead
  have hstands := (hs j hj).pos
  rw [PosOk, hpos] at hstands
  obtain ⟨b, rest, fn, info, view, hrun, -⟩ := hstands
  have hclaimed : a.claimed = true := by
    rw [hrun.frames] at hhead
    cases hhead
    exact hrun.claimed
  obtain ⟨_, _, _, hact⟩ := ((hs j hj).chain (List.ne_nil_of_mem hmem)).forall_ok a hmem
  apply Bytes.load_congr
  intro y hy
  have hown : a.Owns M (start + y) :=
    .inr ⟨hclaimed, k, .setjmp, start, hslot, by omega, by show start + y < start + 4; omega⟩
  have hi : i < M.bank.fibers := by cases hstep with | mk hi _ => exact hi
  exact (hstep.stepOk hs).foreign (hs i hi) ⟨j, hj, a, hmem, hown⟩
    fun hin => hji (inSlice_unique (hact.owns_inSlice hown) hin)

end

/-! ## Runs -/

/-- A run with the events of its steps and the fibers they are of. -/
inductive Run (M : Machine τ) : List (Nat × Event) → State → Prop where
  | init (mem : Mem) : Run M [] ⟨mem, fun _ => {}⟩
  | step {trace : List (Nat × Event)} {s s' : State} {i : Nat} {e : Event} (hs : Run M trace s)
      (h : Step M s i e s') : Run M (trace ++ [(i, e)]) s'

def eventsOf (i : Nat) (trace : List (Nat × Event)) : List Event :=
  trace.filterMap fun p => if p.1 = i then some p.2 else none

def OthersRun (M : Machine τ) (i : Nat) : State → State → Prop :=
  Relation.ReflTransGen fun s s' => ∃ j e, j ≠ i ∧ Step M s j e s'

/-- A `longjmp` from `s` to `s'` has made the `setjmp` numbered `n` of the activation `a` return
`value`: `fp` is the frame of `a` and `sp` its frontier at the `setjmp`, the blocks carved since are
gone, no byte but the hidden result slot has changed, and however long other fibers run, the next
step is the return of the `setjmp`, into the body of `a`. -/
structure JumpsBack (M : Machine τ) (i : Nat) (s s' : State) (n value : Nat) (a : Activation)
    (rest : List Activation) (jump : Jump) : Prop where
  prepared : a.jumps[n]? = some jump
  slot : a.Slot M jump.inst .setjmp jump.result
  fiber : s'.fibers i = { pos := .afterSetjmp a.fn jump.inst, sp := jump.sp, fp := a.fp
                          frames := a.rewind jump.sp :: rest }
  mem : ∀ y, ¬ (jump.result ≤ y ∧ y < jump.result + 4) → s'.mem y = s.mem y
  returns : ∀ t, OthersRun M i s' t → ∃ t',
    Step M t i (.setjmpReturns jump.inst (if value = 0 then 1 else value)) t' ∧ t'.mem = t.mem ∧
      t'.fibers i = { s'.fibers i with pos := .body a.fn }

section

variable {M : Machine τ} {i : Nat} {s s' : State} {c : Calls} {trace : List (Nat × Event)}

theorem Run.reachable (h : Run M trace s) : Reachable M s := by
  induction h with
  | init mem => exact .init mem
  | step _ h ih => exact ih.step h

theorem Reachable.run (h : Reachable M s) : ∃ trace, Run M trace s := by
  induction h with
  | init mem => exact ⟨[], .init mem⟩
  | step _ h ih =>
    obtain ⟨trace, hrun⟩ := ih
    exact ⟨_, hrun.step h⟩

/-- The bytes the program has no name for lie in the slices. -/
theorem Reachable.owned_inSlice (h : Reachable M s) {y : Nat}
    (hy : s.Owned M y) : ∃ i, M.InSlice i y := by
  obtain ⟨i, hi, a, ha, hown⟩ := hy
  obtain ⟨_, _, _, hact⟩ := ((h.ok i hi).chain (List.ne_nil_of_mem ha)).forall_ok a ha
  exact ⟨i, hact.owns_inSlice hown⟩

theorem Step.follows {e : Event} (hs : s.Ok M) (h : Follows M s.mem (s.fibers i) c)
    (hstep : Step M s i e s') :
    ∃ c', c.step M.layout.frames e = some c' ∧ Follows M s'.mem (s'.fibers i) c' := by
  cases hstep with
  | mk hi hstep =>
    show ∃ c', _ ∧ Follows M _ (Function.update s.fibers i _ i) c'
    rw [Function.update_self]
    exact hstep.follows hi (hs i hi) (fun a ha y hy => ⟨i, hi, a, ha, hy⟩) h

/-- The run lemma: the stack of calls allows the events of every fiber, and the fiber follows it. -/
theorem Run.follows (h : Run M trace s) : ∀ i < M.bank.fibers, ∃ c,
    Calls.run M.layout.frames (eventsOf i trace) = some c ∧ Follows M s.mem (s.fibers i) c := by
  induction h with
  | init mem =>
    exact fun i _ => ⟨{}, rfl, rfl, .nil, fun _ ht => absurd ht (by simp),
      fun _ _ _ _ hpos => absurd hpos (by simp)⟩
  | @step trace s s' i e hs hstep ih =>
    intro j hj
    obtain ⟨c, hrun, hfollows⟩ := ih j hj
    have hok := hs.reachable.ok
    by_cases hji : j = i
    · subst hji
      obtain ⟨c', hc', hfollows'⟩ := hstep.follows hok hfollows
      refine ⟨c', ?_, hfollows'⟩
      have hevents : eventsOf j (trace ++ [(j, e)]) = eventsOf j trace ++ [e] := by
        simp [eventsOf]
      rw [hevents, Calls.run, List.foldlM_append]
      exact Option.bind_eq_some_iff.mpr ⟨c, hrun, by simp [hc']⟩
    · refine ⟨c, ?_, hfollows.foreign hok hj hstep hji⟩
      have hevents : eventsOf j (trace ++ [(i, e)]) = eventsOf j trace := by
        simp [eventsOf, Ne.symm hji]
      rw [hevents]
      exact hrun

theorem OthersRun.follows {t : State} (hs : Reachable M s) (hi : i < M.bank.fibers)
    (h : Follows M s.mem (s.fibers i) c) (hothers : OthersRun M i s t) :
    Reachable M t ∧ t.fibers i = s.fibers i ∧ Follows M t.mem (t.fibers i) c := by
  induction hothers with
  | refl => exact ⟨hs, rfl, h⟩
  | tail _ hstep ih =>
    obtain ⟨hreach, hsame, hfollows⟩ := ih
    obtain ⟨j, e, hji, hstep⟩ := hstep
    exact ⟨hreach.step hstep, (hstep.fibers_ne hji.symm).trans hsame,
      hfollows.foreign hreach.ok hi hstep hji.symm⟩

theorem Calls.jump_result {n value : Nat} {c' : Calls} (h : c.jump n value = some c') :
    c'.result = if value = 0 then 1 else value := by
  unfold Calls.jump at h
  split at h
  · obtain ⟨_, -, rfl⟩ := Option.map_eq_some_iff.mp h
    rfl
  · exact absurd h (by simp)

theorem Step.longjmp_inv {depth n value : Nat} (hs : Reachable M s)
    (h : Step M s i (.longjmp depth n value) s') : i < M.bank.fibers ∧
      ∃ a jump target fn info view, a.jumps[n]? = some jump ∧
        JumpTarget M i s.mem (s.fibers i) depth a jump target fn info view ∧
        s'.fibers i = { pos := .afterSetjmp a.fn jump.inst, sp := jump.sp, fp := a.fp
                        frames := a.rewind jump.sp :: (s.fibers i).frames.drop (depth + 1) } ∧
        ∀ y, ¬ (jump.result ≤ y ∧ y < jump.result + 4) → s'.mem y = s.mem y := by
  cases h with
  | mk hi h =>
    cases h with
    | longjmp hpos hlive hjump henv hvalue hstate htarget =>
      rename_i f env a jump target
      obtain ⟨fn, info, view, ht⟩ := jumpTarget (hs.ok i hi) hpos hlive hjump henv hstate htarget
      refine ⟨hi, a, jump, target, fn, info, view, hjump, ht, ?_, fun y hy => ?_⟩
      · show Function.update s.fibers i _ i = _
        rw [Function.update_self, henv.sp, henv.fp, ht.fp, ht.frames, ht.target]
        rfl
      · rw [henv.result]
        exact Bytes.outside_store y hy

theorem Step.jumpsBack {depth n value : Nat} (hs : Reachable M s)
    (h : Follows M s.mem (s.fibers i) c) (hstep : Step M s i (.longjmp depth n value) s') :
    ∃ a rest jump, (s.fibers i).frames.drop depth = a :: rest ∧
      JumpsBack M i s s' n value a rest jump := by
  obtain ⟨hi, a, jump, target, fn, info, view, hjump, ht, hfiber, hmem⟩ := hstep.longjmp_inv hs
  refine ⟨a, _, jump, ht.frames, hjump, ht.slot, hfiber, hmem, fun t hothers => ?_⟩
  obtain ⟨c', hc', hfollows⟩ := hstep.follows hs.ok h
  have hresult : c'.result = if value = 0 then 1 else value := by
    obtain ⟨c₁, -, hjump'⟩ := Option.bind_eq_some_iff.mp hc'
    exact Calls.jump_result hjump'
  -- the pending result outlives the steps of the other fibers
  obtain ⟨hreach, hsame, hfollows'⟩ := hothers.follows (hs.step hstep) hi hfollows
  have hafter : (t.fibers i).pos = .afterSetjmp a.fn jump.inst := by rw [hsame, hfiber]
  obtain ⟨-, offset, hoffset, -⟩ := ht.slot.placed ht.act.managed
  obtain ⟨hload, -, -⟩ := afterSetjmp_follows hi (hreach.ok i hi) hfollows' hafter ht.act.managed
    ht.inst hoffset
  have hreturn : FiberStep M i (t.Owned M) (t.fibers i) t.mem _ _ t.mem :=
    .afterSetjmp hafter ht.act.managed ht.inst hoffset
  rw [hload, hresult] at hreturn
  refine ⟨_, ⟨hi, hreturn⟩, rfl, ?_⟩
  show Function.update t.fibers i _ i = _
  rw [Function.update_self, hsame]

end

/-- In every run, the stack of calls (in which a `longjmp` is the return of the calls in between and a
jump inside the frame of the `setjmp`) allows the events of every fiber, and the fiber follows it:
the same position, the same frames with the same return points, `fp` at the top frame and the next
call from its frontier. A `longjmp` makes its `setjmp` return the value, or 1 for 0, in the frame as
it is, with `sp` back at the frontier of the `setjmp`. -/
theorem longjmp_as_if_returned (M : Machine τ) {trace : List (Nat × Event)} {s : State}
    (hrun : Run M trace s) {i : Nat} (hi : i < M.bank.fibers) :
    ∃ c, Calls.run M.layout.frames (eventsOf i trace) = some c ∧ Follows M s.mem (s.fibers i) c ∧
      (∀ t, c.stack.head? = some t → (s.fibers i).fp = t.fp) ∧
      ∀ depth n value s', Step M s i (.longjmp depth n value) s' →
        ∃ a rest jump, (s.fibers i).frames.drop depth = a :: rest ∧
          JumpsBack M i s s' n value a rest jump := by
  obtain ⟨c, hcalls, hfollows⟩ := hrun.follows i hi
  refine ⟨c, hcalls, hfollows, fun t ht => ?_, fun depth n value s' hstep =>
    hstep.jumpsBack hrun.reachable hfollows⟩
  have hok := hrun.reachable.ok i hi
  have hstack := hfollows.stack
  by_cases hpos : (s.fibers i).pos = .done
  · have hnone := hok.pos
    rw [PosOk, hpos] at hnone
    rw [hnone] at hstack
    cases hc : c.stack with
    | nil => exact absurd ht (by rw [hc]; simp)
    | cons _ _ => exact absurd (hc ▸ hstack) (by intro h; cases h)
  · obtain ⟨a, rest, hframes, hfp⟩ := hok.frames_ne_nil hpos
    rw [hframes] at hstack
    obtain ⟨t', calls, htop, his⟩ := hstack.head
    rw [htop] at ht
    cases ht
    rw [hfp, his.fp]

namespace Sample

def env : Nat := 2 ^ 32

def jump : Jump := ⟨0, rootFp - 32, rootFp, rootFp - 32⟩

/-- Memory after `main` was started, prepared the jump and called `work`. -/
def memPrepared : Mem := machine.saveJump (machine.linkage (fun _ => 0) rootFp 0 .done) env 0 jump

def memCalled : Mem := machine.linkage memPrepared (rootFp - 144) rootFp (.afterCall 0 2)

theorem holds : machine.Holds memCalled env 0 jump := by
  constructor
  · decide
  · decide
  · decide
  · decide

/-- `main`, with its jump prepared, has called `work`. -/
def inWork : FiberState where
  pos := .body 1
  sp := rootFp - 144
  fp := rootFp - 144
  frames := [{ fn := 1, fp := rootFp - 144, out := 112, returnTo := .afterCall 0 2, claimed := true },
    { fn := 0, fp := rootFp, out := 16, claimed := true, jumps := [jump] }]

theorem reachable_inWork : ∃ s, Reachable machine s ∧ s.mem = memCalled ∧ s.fibers 0 = inWork := by
  have henv : ∀ y, env ≤ y → y < env + 32 → ¬ (entered fun _ => 0).Owned machine y := by
    intro y hle hlt hown
    obtain ⟨i, hin, -⟩ := (reachable_entered fun _ => 0).owned_inSlice hown
    have hbase : machine.base i = 2 ^ 32 + 4096 + i * 4096 := rfl
    have henv : env = 2 ^ 32 := rfl
    omega
  have h₁ := (reachable_entered fun _ => 0).step (i := 0) ⟨by decide,
    .setjmp (j := 0) rfl managed_main rfl rfl henv
      (show jump = ⟨0, rootFp - 32, rootFp, machine.slot 0 mainInfo rootFp 0⟩ by decide)⟩
  have h₂ := h₁.step (i := 0) ⟨by decide, .afterSetjmp rfl managed_main rfl rfl⟩
  have h₃ := h₂.step (i := 0) ⟨by decide, .call (j := 2)
    rfl managed_main rfl rfl managed_work.fn site_of_work
    (show rootFp - 144 = Machine.calleeFp main mainInfo siteLayout (rootFp - 32) rootFp by decide)
    (show rootFp - 144 = machine.outFrame 0 main mainInfo siteLayout (rootFp - 32) rootFp by decide)
    fun _ _ => rfl⟩
  have h₄ := h₃.step (i := 0) ⟨by decide, .enter rfl managed_work
    (show machine.prologue ⟨[], 0⟩ (rootFp - 144) = some (rootFp - 144) by decide)⟩
  exact ⟨_, h₄, rfl, rfl⟩

theorem longjmp_inWork (owned : Nat → Prop) : ∃ x m,
    FiberStep machine 0 owned inWork memCalled (.longjmp 1 0 0) x m :=
  ⟨_, _, .longjmp rfl rfl rfl holds (by decide) (show program.HasState (.afterSetjmp 0 0) from
    ⟨main, rfl, rfl⟩) (show machine.regionId (.afterSetjmp 0 0) = machine.load32 memCalled env by decide)⟩

end Sample

/-- `work` jumps back into `main` with 0, and the `setjmp` of `main` returns 1. -/
theorem longjmp_as_if_returned_main : ∃ s s' a rest jump, Reachable Sample.machine s ∧
    Step Sample.machine s 0 (.longjmp 1 0 0) s' ∧
    JumpsBack Sample.machine 0 s s' 0 0 a rest jump := by
  obtain ⟨s, hs, hmem, hfiber⟩ := Sample.reachable_inWork
  obtain ⟨x, m, hstep⟩ := Sample.longjmp_inWork (s.Owned Sample.machine)
  rw [← hfiber, ← hmem] at hstep
  have hstep : Step Sample.machine s 0 (.longjmp 1 0 0) ⟨m, Function.update s.fibers 0 x⟩ :=
    ⟨by decide, hstep⟩
  obtain ⟨trace, hrun⟩ := hs.run
  obtain ⟨c, -, -, -, hjumps⟩ := longjmp_as_if_returned Sample.machine hrun (i := 0) (by decide)
  obtain ⟨a, rest, jump, -, hback⟩ := hjumps 1 0 0 _ hstep
  exact ⟨s, _, a, rest, jump, hs, hstep, hback⟩

end BpfCapsule.Stackify

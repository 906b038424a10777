import BpfCapsule.Stackify.FrameLayout
import BpfCapsule.Lib.Bytes
import Mathlib.Logic.Function.Basic

/-!
# BpfCapsule — the software stack

The code stackify generates around a managed function moves two words of the fiber's control record,
`sp` and `fp`, and keeps everything else in the frames themselves: the caller's `fp` and return
region in the linkage words, frontier snapshots and `setjmp` results in frame slots. Here that code
runs as a machine on `sp`, `fp` and byte memory. A managed function is any sequence of its own calls,
carves, stack saves and restores, `setjmp`s, `longjmp`s and returns; fibers interleave step by step,
so a suspension is a point where other fibers run.

The generated arithmetic is that of 64-bit words. The list of activations in a fiber's state is a
history: steps extend it, and only the conditions on restores and jumps (a restore names a save that
was executed, a jump a frame that is live) read it.
-/

namespace BpfCapsule.Stackify

open Placement

variable {τ : Type}

/-! ## What is fixed when an object is loaded -/

/-- Where the bank of slices lies: in the first 4 GiB of a 4 GiB-aligned memory window, on a
multiple of the slice size. The reservation goes on above those 4 GiB with the function tokens. -/
structure Bank (S : Slice) where
  window : Nat
  offset : Nat
  fibers : Nat
  window_dvd : 2 ^ 32 ∣ window
  window_le : window + 2 ^ 33 ≤ 2 ^ 64
  offset_dvd : S.size ∣ offset
  fits : offset + fibers * S.size ≤ 2 ^ 32

def Bank.base {S : Slice} (B : Bank S) (fiber : Nat) : Nat := B.window + B.offset + fiber * S.size

/-- Where a fiber stands. `afterCall f i` and `afterSetjmp f i` are the resume states of instruction
`i` of `f`; inside a body any operation of the function can come next. -/
inductive Pos where
  | entry (f : Nat)
  | afterCall (f i : Nat)
  | afterSetjmp (f i : Nat)
  | body (f : Nat)
  | done
  | overflow
deriving DecidableEq, Repr

/-- The resume states a linkage word or a `jmp_buf` can name. -/
def Program.HasState (p : Program τ) : Pos → Prop
  | .done => True
  | .afterCall f j => ∃ fn site, p.managed[f]? = some fn ∧ fn.body[j]? = some (Inst.call site)
  | .afterSetjmp f j => ∃ fn, p.managed[f]? = some fn ∧ fn.body[j]? = some Inst.setjmp
  | _ => False

/-- An accepted program and the object it was loaded as. Region IDs are 32-bit words, one for each
state of the program. -/
structure Machine (τ : Type) where
  dl : DataLayout τ
  S : Slice
  program : Program τ
  views : List ManagedCallLayout
  layout : FrameLayout
  accepted : program.layOut dl S = .ok (views, layout)
  tier : Tier
  order : Bytes.Order
  bank : Bank S
  regionId : Pos → Nat
  regionId_lt : ∀ pos, regionId pos < 2 ^ 32
  regionId_inj : ∀ pos pos', program.HasState pos → program.HasState pos' →
    regionId pos = regionId pos' → pos = pos'

abbrev Mem := Nat → UInt8

def Inst.movesSp : Inst τ → Bool
  | .alloca _ _ (.dynamic _) => true
  | .stackSave => true
  | _ => false

def Inst.isSetjmp : Inst τ → Bool
  | .setjmp => true
  | _ => false

/-- Whether the live frontier of the function is in `sp` and not derived from `fp`. -/
def Function.dynamicSp (f : Function τ) : Bool := f.body.any Inst.movesSp

/-- `!JumpResultOffsets.empty()`. -/
def Function.hasSetjmp (f : Function τ) : Bool := f.body.any Inst.isSetjmp

namespace Machine

variable (M : Machine τ)

/-- The layout of a call in the function named `owner`. -/
abbrev callLayout (site : CallSite τ) (owner : String) : Except String ManagedCallLayout :=
  site.layout M.dl M.S M.layout.frameAlignment owner

/-- A managed function, its frame and its view of a call. -/
structure Managed (f : Nat) (fn : Function τ) (info : FrameInfo) (view : ManagedCallLayout) : Prop where
  fn : M.program.managed[f]? = some fn
  info : M.layout.frames[f]? = some info
  view : M.views[f]? = some view

def base (fiber : Nat) : Nat := M.bank.base fiber

def load32 (m : Mem) (a : Nat) : Nat := Bytes.load M.order m a 4
def load64 (m : Mem) (a : Nat) : Nat := Bytes.load M.order m a 8
def store32 (m : Mem) (a v : Nat) : Mem := Bytes.store M.order m a 4 v
def store64 (m : Mem) (a v : Nat) : Mem := Bytes.store M.order m a 8 v

/-! ## The generated address arithmetic -/

def sliceOffset (address : Nat) : Nat := address &&& (M.S.size - 1)

/-- `StackPtr`: the fiber's slice of the bank at an offset, or at the offset of an address. -/
def stackPtr (fiber address : Nat) : Nat :=
  Word.add 64 (M.bank.window + M.bank.offset)
    (Word.add 64 (Word.mul 64 fiber M.S.size) (M.sliceOffset address))

def framePointer (fiber address : Nat) : Nat :=
  match M.tier with
  | .arena => address
  | .fixed => M.stackPtr fiber address

/-- A slot of the frame at `fp`. -/
def slot (fiber : Nat) (info : FrameInfo) (fp offset : Nat) : Nat :=
  Word.offset 64 (M.framePointer fiber fp) ((offset : Int) - info.frameSize)

/-- The two linkage words: `SavedFpOffset` and `ReturnRegionIdOffset`. -/
def linkage (m : Mem) (out savedFp : Nat) (returnTo : Pos) : Mem :=
  M.store32 (M.store64 m (Word.offset 64 out 0) savedFp) (Word.offset 64 out 8) (M.regionId returnTo)

/-- The prologue: the frame base, or `none` for `STACK_OVERFLOW`. -/
def prologue (info : FrameInfo) (fp : Nat) : Option Nat :=
  if M.sliceOffset fp < info.frameSize + M.layout.reserveFloor then none
  else some (Word.sub 64 fp info.frameSize)

/-- The live `sp` of a caller. -/
def callerSp (fn : Function τ) (info : FrameInfo) (sp fp : Nat) : Nat :=
  if fn.dynamicSp then sp else Word.sub 64 fp info.frameSize

def calleeFp (fn : Function τ) (info : FrameInfo) (l : ManagedCallLayout) (sp fp : Nat) : Nat :=
  Word.sub 64 (callerSp fn info sp fp) l.size

def outFrame (fiber : Nat) (fn : Function τ) (info : FrameInfo) (l : ManagedCallLayout)
    (sp fp : Nat) : Nat :=
  if fn.dynamicSp then M.framePointer fiber (calleeFp fn info l sp fp)
  else Word.offset 64 (M.framePointer fiber fp) (-((info.frameSize + l.size : Nat) : Int))

/-- `sp` after the resume state of a call. -/
def spAfterCall (fn : Function τ) (info : FrameInfo) (l : ManagedCallLayout) (sp fp : Nat) : Nat :=
  if fn.dynamicSp then Word.add 64 (Word.sub 64 sp linkageBytes) l.size
  else if fn.hasSetjmp then Word.sub 64 fp info.frameSize
  else sp

def carveAlign (align : Align) : Nat := max M.layout.frameAlignment align.value

/-- `LowerDynamicAlloca`, elements of at least one byte: the new frontier, or `none` for
`STACK_OVERFLOW`. -/
def carve (elementBytes : Nat) (align : Align) (count sp : Nat) : Option Nat :=
  let need := Word.mul 64 count elementBytes
  let reserve := Word.add 64 need (M.carveAlign align - 1)
  let minimum := Word.add 64 reserve M.layout.reserveFloor
  if M.S.size / elementBytes < count ∨ M.sliceOffset sp < minimum then none
  else some (Word.sub 64 sp need &&& Word.not 64 (M.carveAlign align - 1))

/-- `LowerDynamicAlloca`, elements without bytes: the frontier does not move. -/
def zeroCarve (align : Align) (sp : Nat) : Nat := sp &&& Word.not 64 (M.carveAlign align - 1)

end Machine

/-! ## States -/

/-- What `setjmp` number `inst` saves besides its resume region. -/
structure Jump where
  inst : Nat
  sp : Nat
  fp : Nat
  result : Nat
deriving DecidableEq, Repr

/-- What a dynamic alloca has reserved, at the address its handle holds. -/
structure Carved where
  start : Nat
  bytes : Nat
deriving DecidableEq, Repr

/-- One activation of a managed function: its frame pointer, the size of the outgoing area above
it, where the call was made from, whether the prologue has claimed the local frame, the frontiers
saved in its `stacksave` slots, the jumps prepared in it and its carved blocks, the last one first. -/
structure Activation where
  fn : Nat
  fp : Nat
  out : Nat
  returnTo : Pos := .done
  claimed : Bool := false
  saves : Nat → Option Nat := fun _ => none
  jumps : List Jump := []
  blocks : List Carved := []

/-- With the frontier back at `sp`, the blocks below it are gone. -/
def Activation.rewind (sp : Nat) (a : Activation) : Activation :=
  { a with blocks := a.blocks.filter fun b => sp ≤ b.start }

structure FiberState where
  pos : Pos := .done
  sp : Nat := 0
  fp : Nat := 0
  frames : List Activation := []

structure State where
  mem : Mem
  fibers : Nat → FiberState

/-- What a step shows. A call shows its instruction, its callee and the size of its outgoing area, a
`setjmp` its `jmp_buf`, a `longjmp` the depth of the activation it goes back to, which of the jumps
prepared there it takes, and its argument; `program` is a store of the program itself. -/
inductive Event where
  | tau
  | program
  | start (callee fp : Nat)
  | enter
  | stackOverflow
  | call (inst callee out : Nat)
  | ret
  | resume
  | carve (sp : Nat)
  | save (inst : Nat)
  | restore (inst : Nat)
  | setjmp (inst env : Nat)
  | setjmpReturns (inst value : Nat)
  | longjmp (depth jump value : Nat)
deriving DecidableEq, Repr

/-- Slots the program has no name for: `setjmp` results, frontier snapshots and handles. -/
def Inst.hidden : Inst τ → Bool
  | .setjmp => true
  | .stackSave => true
  | .alloca _ _ (.dynamic _) => true
  | _ => false

section

variable (M : Machine τ)

/-- Instruction `i` of the activation's function has a hidden slot at `start`. -/
def Activation.Slot (a : Activation) (i : Nat) (inst : Inst τ) (start : Nat) : Prop :=
  ∃ fn info offset, M.program.managed[a.fn]? = some fn ∧ M.layout.frames[a.fn]? = some info ∧
    fn.body[i]? = some inst ∧ inst.hidden = true ∧ info.offsets[i]? = some offset ∧
    start + info.frameSize = a.fp + offset

/-- The bytes of an activation that only generated code writes: the linkage words and, once the
frame is claimed, the hidden slots. -/
def Activation.Owns (a : Activation) (x : Nat) : Prop :=
  (a.fp ≤ x ∧ x < a.fp + linkageBytes) ∨
    a.claimed = true ∧ ∃ i inst start, a.Slot M i inst start ∧
      start ≤ x ∧ x < start + (inst.item M.dl M.S).bytes

def State.Owned (s : State) (x : Nat) : Prop :=
  ∃ i < M.bank.fibers, ∃ a ∈ (s.fibers i).frames, a.Owns M x

/-- All bytes of an activation: the outgoing area it was called with, the local frame once it is
claimed, and the carved blocks. -/
def Activation.Spans (a : Activation) (x : Nat) : Prop :=
  (a.fp ≤ x ∧ x < a.fp + a.out) ∨
    (a.claimed = true ∧ ∃ info, M.layout.frames[a.fn]? = some info ∧
      a.fp ≤ x + info.frameSize ∧ x < a.fp) ∨
    ∃ b ∈ a.blocks, b.start ≤ x ∧ x < b.start + b.bytes

/-- The `jmp_buf` at `env` holds what `setjmp` saved: resume region, `sp`, `fp` and the address of
the result slot. -/
structure Machine.Holds (m : Mem) (env f : Nat) (j : Jump) : Prop where
  region : M.load32 m env = M.regionId (.afterSetjmp f j.inst)
  sp : M.load64 m (env + 8) = j.sp
  fp : M.load64 m (env + 16) = j.fp
  result : M.load64 m (env + 24) = j.result

/-- The stores of `setjmp`: a zero result, then the four words of the `jmp_buf`. -/
def Machine.saveJump (m : Mem) (env f : Nat) (j : Jump) : Mem :=
  let m := M.store32 m j.result 0
  let m := M.store32 m env (M.regionId (.afterSetjmp f j.inst))
  let m := M.store64 m (env + 8) j.sp
  let m := M.store64 m (env + 16) j.fp
  M.store64 m (env + 24) j.result

end

def FiberState.mapHead (x : FiberState) (g : Activation → Activation) : FiberState :=
  { x with frames := x.frames.modifyHead g }

/-! ## Steps -/

/-- One step of one fiber. `owned` are the bytes the program has no name for. -/
inductive FiberStep (M : Machine τ) (i : Nat) (owned : Nat → Prop) :
    FiberState → Mem → Event → FiberState → Mem → Prop where
  /-- `RewriteEntryCall`: a root call fabricates the caller-owned area at `RootFp_`. -/
  | start {x : FiberState} {m m' : Mem} {r : RootCall τ} {fn : Function τ} {l : ManagedCallLayout}
      {out : Nat} (hpos : x.pos = .done ∨ x.pos = .overflow) (hroot : r ∈ M.program.roots)
      (hfn : M.program.managed[r.callee]? = some fn) (hsite : r.site.Of fn)
      (hl : M.callLayout r.site r.owner = .ok l)
      (hout : out = M.stackPtr i M.layout.rootFp)
      (hargs : Bytes.Outside (out + linkageBytes) (out + l.argsEnd) (M.linkage m out 0 .done) m') :
      FiberStep M i owned x m (.start r.callee out)
        { pos := .entry r.callee, sp := out, fp := out
          frames := [{ fn := r.callee, fp := out, out := l.size }] } m'
  | enter {x : FiberState} {m : Mem} {f sp : Nat} {fn : Function τ} {info : FrameInfo}
      {view : ManagedCallLayout} (hpos : x.pos = .entry f) (hf : M.Managed f fn info view)
      (hclaim : M.prologue info x.fp = some sp) :
      FiberStep M i owned x m .enter
        ({ x with pos := .body f, sp := sp }.mapHead fun a => { a with claimed := true }) m
  | refuse {x : FiberState} {m : Mem} {f : Nat} {fn : Function τ} {info : FrameInfo}
      {view : ManagedCallLayout} (hpos : x.pos = .entry f) (hf : M.Managed f fn info view)
      (hclaim : M.prologue info x.fp = none) :
      FiberStep M i owned x m .stackOverflow { x with pos := .overflow } m
  /-- `SuspendAtCall`, up to the return to the dispatcher. -/
  | call {x : FiberState} {m m' : Mem} {f g j fp out : Nat} {fn gn : Function τ} {info : FrameInfo}
      {view : ManagedCallLayout} {site : CallSite τ} {l : ManagedCallLayout} (hpos : x.pos = .body f)
      (hf : M.Managed f fn info view) (hj : fn.body[j]? = some (.call site))
      (hl : M.callLayout site fn.name = .ok l)
      (hg : M.program.managed[g]? = some gn) (hsite : site.Of gn)
      (hfp : fp = Machine.calleeFp fn info l x.sp x.fp)
      (hout : out = M.outFrame i fn info l x.sp x.fp)
      (hargs : Bytes.Outside (out + linkageBytes) (out + l.argsEnd)
        (M.linkage m out x.fp (.afterCall f j)) m') :
      FiberStep M i owned x m (.call j g l.size)
        { pos := .entry g, sp := x.sp, fp := fp
          frames := { fn := g, fp := fp, out := l.size, returnTo := .afterCall f j } :: x.frames } m'
  /-- `LowerReturn`. -/
  | ret {x : FiberState} {m m' : Mem} {f frame : Nat} {fn : Function τ} {info : FrameInfo}
      {view : ManagedCallLayout} {returnTo : Pos} (hpos : x.pos = .body f)
      (hstate : M.program.HasState returnTo) (hf : M.Managed f fn info view)
      (hframe : frame = M.framePointer i x.fp)
      (hresult : Bytes.Outside (frame + linkageBytes) (frame + view.argsEnd) m m')
      (hregion : M.regionId returnTo = M.load32 m' (Word.offset 64 frame 8)) :
      FiberStep M i owned x m .ret
        { pos := returnTo, sp := Word.add 64 x.fp linkageBytes
          fp := M.load64 m' (Word.offset 64 frame 0), frames := x.frames.tail } m'
  /-- `SuspendAtCall`, the resume state. -/
  | resume {x : FiberState} {m : Mem} {f j : Nat} {fn : Function τ} {info : FrameInfo}
      {view : ManagedCallLayout} {site : CallSite τ} {l : ManagedCallLayout}
      (hpos : x.pos = .afterCall f j) (hf : M.Managed f fn info view)
      (hj : fn.body[j]? = some (.call site))
      (hl : M.callLayout site fn.name = .ok l) :
      FiberStep M i owned x m .resume
        { x with pos := .body f, sp := Machine.spAfterCall fn info l x.sp x.fp } m
  | carve {x : FiberState} {m : Mem} {f j offset count width next : Nat} {fn : Function τ}
      {info : FrameInfo} {view : ManagedCallLayout} {type : τ} {align : Align} (hpos : x.pos = .body f)
      (hf : M.Managed f fn info view) (hj : fn.body[j]? = some (.alloca type align (.dynamic width)))
      (hoffset : info.offsets[j]? = some offset) (hcount : count < 2 ^ 64)
      (hbytes : M.dl.allocSize type ≠ 0)
      (hcarve : M.carve (M.dl.allocSize type) align count x.sp = some next) :
      FiberStep M i owned x m (.carve next)
        ({ x with sp := next }.mapHead fun a => { a with
          blocks := ⟨M.framePointer i next, count * M.dl.allocSize type⟩ :: a.blocks })
        (M.store64 m (M.slot i info x.fp offset) (M.framePointer i next))
  | refuseCarve {x : FiberState} {m : Mem} {f j count width : Nat} {fn : Function τ}
      {info : FrameInfo} {view : ManagedCallLayout} {type : τ} {align : Align} (hpos : x.pos = .body f)
      (hf : M.Managed f fn info view) (hj : fn.body[j]? = some (.alloca type align (.dynamic width)))
      (hcount : count < 2 ^ 64) (hbytes : M.dl.allocSize type ≠ 0)
      (hcarve : M.carve (M.dl.allocSize type) align count x.sp = none) :
      FiberStep M i owned x m .stackOverflow { x with pos := .overflow } m
  | zeroCarve {x : FiberState} {m : Mem} {f j offset width : Nat} {fn : Function τ}
      {info : FrameInfo} {view : ManagedCallLayout} {type : τ} {align : Align} (hpos : x.pos = .body f)
      (hf : M.Managed f fn info view) (hj : fn.body[j]? = some (.alloca type align (.dynamic width)))
      (hoffset : info.offsets[j]? = some offset) (hbytes : M.dl.allocSize type = 0) :
      FiberStep M i owned x m .tau x
        (M.store64 m (M.slot i info x.fp offset) (M.framePointer i (M.zeroCarve align x.sp)))
  /-- `LowerStackSaves`. -/
  | save {x : FiberState} {m : Mem} {f j offset : Nat} {fn : Function τ} {info : FrameInfo}
      {view : ManagedCallLayout} (hpos : x.pos = .body f) (hf : M.Managed f fn info view)
      (hj : fn.body[j]? = some .stackSave) (hoffset : info.offsets[j]? = some offset) :
      FiberStep M i owned x m (.save j)
        (x.mapHead fun a => { a with saves := Function.update a.saves j (some x.sp) })
        (M.store64 m (M.slot i info x.fp offset) x.sp)
  | restore {x : FiberState} {m : Mem} {f j offset : Nat} {fn : Function τ} {info : FrameInfo}
      {view : ManagedCallLayout} {a : Activation} {saved : Nat} (hpos : x.pos = .body f)
      (hf : M.Managed f fn info view) (hj : fn.body[j]? = some .stackSave)
      (hoffset : info.offsets[j]? = some offset) (hhead : x.frames.head? = some a)
      (hsaved : a.saves j = some saved) :
      FiberStep M i owned x m (.restore j)
        ({ x with sp := M.load64 m (M.slot i info x.fp offset) }.mapHead
          (Activation.rewind (M.load64 m (M.slot i info x.fp offset)))) m
  /-- `LowerSetjmp`; the `jmp_buf` is an object of the program. -/
  | setjmp {x : FiberState} {m : Mem} {f j offset env : Nat} {fn : Function τ} {info : FrameInfo}
      {view : ManagedCallLayout} {jump : Jump} (hpos : x.pos = .body f)
      (hf : M.Managed f fn info view) (hj : fn.body[j]? = some .setjmp)
      (hoffset : info.offsets[j]? = some offset)
      (henv : ∀ y, env ≤ y → y < env + 32 → ¬ owned y)
      (hjump : jump = ⟨j, x.sp, x.fp, M.slot i info x.fp offset⟩) :
      FiberStep M i owned x m (.setjmp j env)
        ({ x with pos := .afterSetjmp f j }.mapHead fun a => { a with jumps := jump :: a.jumps })
        (M.saveJump m env f jump)
  | afterSetjmp {x : FiberState} {m : Mem} {f j offset : Nat} {fn : Function τ} {info : FrameInfo}
      {view : ManagedCallLayout} (hpos : x.pos = .afterSetjmp f j) (hf : M.Managed f fn info view)
      (hj : fn.body[j]? = some .setjmp) (hoffset : info.offsets[j]? = some offset) :
      FiberStep M i owned x m (.setjmpReturns j (M.load32 m (M.slot i info x.fp offset)))
        { x with pos := .body f } m
  /-- `LowerLongjmp` to a `setjmp` of the live activation at depth `k`. -/
  | longjmp {x : FiberState} {m : Mem} {f k n env value : Nat} {a : Activation} {jump : Jump}
      {target : Pos} (hpos : x.pos = .body f) (hlive : x.frames[k]? = some a)
      (hjump : a.jumps[n]? = some jump) (henv : M.Holds m env a.fn jump) (hvalue : value < 2 ^ 32)
      (hstate : M.program.HasState target) (htarget : M.regionId target = M.load32 m env) :
      FiberStep M i owned x m (.longjmp k n value)
        { pos := target, sp := M.load64 m (env + 8), fp := M.load64 m (env + 16)
          frames := (x.frames.drop k).modifyHead (Activation.rewind (M.load64 m (env + 8))) }
        (M.store32 m (M.load64 m (env + 24)) (if value = 0 then 1 else value))
  | suspend {x : FiberState} {m : Mem} {f : Nat} (hpos : x.pos = .body f) :
      FiberStep M i owned x m .tau x m
  | write {x : FiberState} {m m' : Mem} {f : Nat} (hpos : x.pos = .body f)
      (hkeep : ∀ y, owned y → m' y = m y) : FiberStep M i owned x m .program x m'

inductive Step (M : Machine τ) : State → Nat → Event → State → Prop where
  | mk {s : State} {i : Nat} {e : Event} {x : FiberState} {m : Mem} (hi : i < M.bank.fibers)
      (h : FiberStep M i (s.Owned M) (s.fibers i) s.mem e x m) :
      Step M s i e ⟨m, Function.update s.fibers i x⟩

/-- A run from a state in which no fiber has started. -/
inductive Reachable (M : Machine τ) : State → Prop where
  | init (mem : Mem) : Reachable M ⟨mem, fun _ => {}⟩
  | step {s s' : State} {i : Nat} {e : Event} (hs : Reachable M s) (h : Step M s i e s') :
      Reachable M s'

end BpfCapsule.Stackify

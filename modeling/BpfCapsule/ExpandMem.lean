import BpfCapsule.Lib.Bytes
import BpfCapsule.Lib.Word

/-!
# BpfCapsule — expansion of the memory intrinsics

`bpf-expand-mem` replaces `memcpy`, `memmove` and `memset` by loops of loads and stores: a loop over
words of eight bytes and a loop over the bytes that are left. A `memmove` compares its pointers at run
time and copies from the high end when the destination lies above the source.

A loop is the blocks `cond` and `body` with the index in a phi; its arithmetic is that of 64-bit words.
`Loop.run` executes it for as many iterations as it is given. The main result is that as many iterations
as the length has bytes are enough, that the memory then is what the operation asks for, and that every
access lies in the two ranges and has the alignment it claims.
-/

namespace BpfCapsule.ExpandMem

open Bytes

/-! ## Loops -/

/-- A load or a store, with the alignment that it claims. -/
structure Access where
  write : Bool
  address : Nat
  size : Nat
  align : Nat
  isVolatile : Bool
  deriving DecidableEq

structure State where
  mem : Nat → UInt8
  accesses : List Access

/-- A loop over the offsets from `start` to `stop`; `body` is what it does at an offset. -/
structure Loop where
  step : Nat
  start : Nat
  stop : Nat
  descending : Bool
  body : Nat → State → State

/-- The branch of the block `cond`. -/
def Loop.enters (l : Loop) (i : Nat) : Bool := if l.descending then l.start < i else i < l.stop

/-- The offset of the block `body`. -/
def Loop.offset (l : Loop) (i : Nat) : Nat := if l.descending then Word.sub 64 i l.step else i

/-- The index that `body` sends back to `cond`. -/
def Loop.next (l : Loop) (i : Nat) : Nat :=
  if l.descending then l.offset i else Word.add 64 i l.step

def Loop.first (l : Loop) : Nat := if l.descending then l.stop else l.start

/-- The state after the loop from index `i`, and how often `body` ran, if `fuel` times are enough. -/
def Loop.run (l : Loop) : Nat → Nat → State → Option (State × Nat)
  | fuel, i, s =>
    if l.enters i then
      match fuel with
      | 0 => none
      | fuel + 1 => (l.run fuel (l.next i) (l.body (l.offset i) s)).map fun r => (r.1, r.2 + 1)
    else some (s, 0)

def runLoops (fuel : Nat) : List Loop → State → Option (State × Nat)
  | [], s => some (s, 0)
  | l :: loops, s => do
    let (s, count) ← l.run fuel l.first s
    let (s, count') ← runLoops fuel loops s
    pure (s, count + count')

/-! ## Emission -/

structure Transfer where
  dst : Nat
  src : Nat
  len : Nat
  isVolatile : Bool
  dstAlign : Nat
  srcAlign : Nat

section Emission

variable (o : Order) (x : Transfer)

def loadElement (step off : Nat) (s : State) : Nat × State :=
  (load o s.mem (Word.add 64 x.src off) step,
    { s with accesses := s.accesses ++
        [⟨false, Word.add 64 x.src off, step, min x.srcAlign step, x.isVolatile⟩] })

def storeElement (value step off : Nat) (s : State) : State where
  mem := store o s.mem (Word.add 64 x.dst off) step value
  accesses := s.accesses ++
    [⟨true, Word.add 64 x.dst off, step, min x.dstAlign step, x.isVolatile⟩]

def copyElement (step off : Nat) (s : State) : State :=
  let (value, s) := loadElement o x step off s
  storeElement o x value step off s

def emitCopyRange (start stop step : Nat) (descending : Bool) : Loop :=
  ⟨step, start, stop, descending, copyElement o x step⟩

/-- The end of the words: `len / 8 * 8`. -/
def wordsEnd (len : Nat) : Nat := Word.mul 64 (len / 8) 8

def emitCopy (backward : Bool) : List Loop :=
  if backward then
    -- Highest addresses first: the byte tail, then the words.
    [emitCopyRange o x (wordsEnd x.len) x.len 1 true, emitCopyRange o x 0 (wordsEnd x.len) 8 true]
  else [emitCopyRange o x 0 (wordsEnd x.len) 8 false, emitCopyRange o x (wordsEnd x.len) x.len 1 false]

def emitSetRange (value start stop step : Nat) : Loop :=
  ⟨step, start, stop, false, storeElement o x value step⟩

/-- `EmitSet`: the byte is repeated in every byte of the word. -/
def emitSet (value : Nat) : List Loop :=
  let byte := value % 2 ^ 8
  let word := Word.mul 64 byte 0x0101010101010101
  [emitSetRange o x word 0 (wordsEnd x.len) 8, emitSetRange o x byte (wordsEnd x.len) x.len 1]

end Emission

/-! ## Sites -/

inductive Kind where
  | memcpy
  | memmove
  | memset
  deriving DecidableEq

/-- What the pass reads of a pointer operand. -/
structure Pointer where
  addressSpace : Nat
  sectioned : Bool

/-- An intrinsic, or a call of the library's function of that name. -/
structure Site where
  kind : Kind
  intrinsic : Bool
  isVolatile : Bool
  /-- The claimed alignments; a call claims one. -/
  dstAlign : Nat
  srcAlign : Nat
  dst : Pointer
  src : Pointer
  constantLength : Option Nat
  arguments : Nat
  driver : Bool

/-- The operands at run time; the length has any width. -/
structure Operands where
  dst : Nat
  src : Nat
  value : Nat
  length : Nat

namespace Site

variable (site : Site)

/-- The pointer operands: two, or one for `memset`. -/
def pointers : List Pointer :=
  match site.kind with
  | .memset => [site.dst]
  | _ => [site.dst, site.src]

def candidate : Bool := site.intrinsic || (3 ≤ site.arguments && site.pointers.any (·.sectioned))

def inlineExpansionLimit : Nat := 256

/-- `outlineDriver`: the site becomes a call of the library's function. -/
def outlined : Bool :=
  site.intrinsic && !site.isVolatile &&
    (match site.constantLength with | some len => inlineExpansionLimit < len | none => true) &&
    site.pointers.all (fun p => p.addressSpace == 0 && !p.sectioned) && site.driver

def transfer (x : Operands) : Transfer where
  dst := x.dst
  src := x.src
  len := x.length % 2 ^ 64
  isVolatile := site.intrinsic && site.isVolatile
  dstAlign := if site.intrinsic then site.dstAlign else 1
  srcAlign := if site.intrinsic then site.srcAlign else 1

def loops (o : Order) (x : Operands) : List Loop :=
  match site.kind with
  | .memcpy => emitCopy o (site.transfer x) false
  | .memmove => emitCopy o (site.transfer x) (decide (x.src < x.dst))
  | .memset => emitSet o (site.transfer x) x.value

end Site

inductive Expansion where
  | kept
  /-- A call of the library's function with the same operands. -/
  | call (kind : Kind) (x : Operands)
  | loops (loops : List Loop)

def Site.expand (site : Site) (o : Order) (x : Operands) : Expansion :=
  if site.candidate then
    if site.outlined then .call site.kind { x with length := x.length % 2 ^ 64 }
    else .loops (site.loops o x)
  else .kept

/-! ## Running a loop -/

namespace Loop

variable {l : Loop} {fuel i n : Nat} {s : State}

theorem run_exit (h : l.enters i = false) : l.run fuel i s = some (s, 0) := by
  unfold run
  rw [h]
  rfl

theorem run_enter (h : l.enters i = true) {r : State × Nat}
    (hrest : l.run fuel (l.next i) (l.body (l.offset i) s) = some r) :
    l.run (fuel + 1) i s = some (r.1, r.2 + 1) := by
  unfold run
  rw [h]
  show (l.run fuel (l.next i) (l.body (l.offset i) s)).map _ = _
  rw [hrest]
  rfl

/-- An ascending loop takes what its body keeps from its first index to its last. -/
theorem run_ascending (hdescending : l.descending = false) (hstep : 0 < l.step) (hstop : l.stop < 2 ^ 64)
    (Inv : Nat → State → Prop)
    (hbody : ∀ i s, l.step ∣ l.stop - i → i + l.step ≤ l.stop → Inv i s → Inv (i + l.step) (l.body i s))
    (hi : i + n * l.step = l.stop) (hinv : Inv i s) (hfuel : n ≤ fuel) :
    ∃ s', l.run fuel i s = some (s', n) ∧ Inv l.stop s' := by
  induction n generalizing i s fuel with
  | zero =>
    have heq : i = l.stop := by omega
    have hexit : l.enters i = false := by simp [enters, hdescending, heq]
    exact ⟨s, run_exit hexit, heq ▸ hinv⟩
  | succ n ih =>
    have hmul : (n + 1) * l.step = n * l.step + l.step := Nat.succ_mul n l.step
    have henter : l.enters i = true := by
      simp only [enters, hdescending, Bool.false_eq_true, ↓reduceIte, decide_eq_true_eq]
      omega
    have hnext : l.next i = i + l.step := by
      simp only [next, hdescending, Bool.false_eq_true, ↓reduceIte]
      exact Word.add_eq (by omega)
    have hoffset : l.offset i = i := by simp [offset, hdescending]
    have hdvd : l.step ∣ l.stop - i := ⟨n + 1, by rw [Nat.mul_comm]; omega⟩
    obtain ⟨fuel, rfl⟩ : ∃ f, fuel = f + 1 := ⟨fuel - 1, by omega⟩
    obtain ⟨s', hrun, hinv'⟩ := ih (by omega) (hbody i s hdvd (by omega) hinv)
      (show n ≤ fuel by omega)
    refine ⟨s', run_enter henter (r := (s', n)) ?_, hinv'⟩
    rw [hnext, hoffset]
    exact hrun

theorem run_descending (hdescending : l.descending = true) (hstep : 0 < l.step)
    (Inv : Nat → State → Prop)
    (hbody : ∀ i s, l.step ∣ i - l.start → l.start ≤ i → Inv (i + l.step) s → Inv i (l.body i s))
    (hi : i = l.start + n * l.step) (hlt : i < 2 ^ 64) (hinv : Inv i s) (hfuel : n ≤ fuel) :
    ∃ s', l.run fuel i s = some (s', n) ∧ Inv l.start s' := by
  induction n generalizing i s fuel with
  | zero =>
    have heq : i = l.start := by omega
    have hexit : l.enters i = false := by simp [enters, hdescending, heq]
    exact ⟨s, run_exit hexit, heq ▸ hinv⟩
  | succ n ih =>
    have hmul : (n + 1) * l.step = n * l.step + l.step := Nat.succ_mul n l.step
    have henter : l.enters i = true := by
      simp only [enters, hdescending, ↓reduceIte, decide_eq_true_eq]
      omega
    have hoffset : l.offset i = i - l.step := by
      simp only [offset, hdescending, ↓reduceIte]
      exact Word.sub_eq (by omega) hlt
    have hnext : l.next i = i - l.step := by simp only [next, hdescending, ↓reduceIte, hoffset]
    have hdvd : l.step ∣ i - l.step - l.start := ⟨n, by rw [Nat.mul_comm]; omega⟩
    have hback : Inv (i - l.step + l.step) s := by rwa [Nat.sub_add_cancel (by omega)]
    obtain ⟨fuel, rfl⟩ : ∃ f, fuel = f + 1 := ⟨fuel - 1, by omega⟩
    obtain ⟨s', hrun, hinv'⟩ := ih (by omega) (by omega)
      (hbody (i - l.step) s hdvd (by omega) hback) (show n ≤ fuel by omega)
    refine ⟨s', run_enter henter (r := (s', n)) ?_, hinv'⟩
    rw [hnext, hoffset]
    exact hrun

end Loop

/-! ## What the operations ask for -/

/-- Memory in which the bytes from offset `lo` to offset `hi` of `dst` are those of `want`. -/
def written (mem : Nat → UInt8) (dst : Nat) (want : Nat → UInt8) (lo hi : Nat) : Nat → UInt8 :=
  fun a => if dst + lo ≤ a ∧ a < dst + hi then want (a - dst) else mem a

def Kind.want (kind : Kind) (x : Operands) (mem : Nat → UInt8) : Nat → UInt8 :=
  match kind with
  | .memset => fun _ => UInt8.ofNat x.value
  | _ => fun j => mem (x.src + j)

def Kind.reference (kind : Kind) (x : Operands) (mem : Nat → UInt8) : Nat → UInt8 :=
  written mem x.dst (kind.want x mem) 0 x.length

/-- A range of an object, which does not wrap around the address space, with a claim that holds. -/
structure Range (start len align : Nat) : Prop where
  stop : start + len ≤ 2 ^ 64
  power : ∃ k, align = 2 ^ k
  aligned : align ∣ start

/-- What the program promises of a site: its ranges are objects, and those of a `memcpy` are equal or
apart. -/
structure Site.Valid (site : Site) (x : Operands) : Prop where
  length : x.length < 2 ^ 64
  dst : Range x.dst x.length site.dstAlign
  src : site.kind ≠ .memset → Range x.src x.length site.srcAlign
  memcpy : site.kind = .memcpy → x.dst = x.src ∨ x.dst + x.length ≤ x.src ∨ x.src + x.length ≤ x.dst

/-- An access of the loops: within its range, on its alignment, volatile like the site. -/
structure Access.Good (x : Transfer) (reads : Bool) (a : Access) : Prop where
  write : a.write = true → x.dst ≤ a.address ∧ a.address + a.size ≤ x.dst + x.len
  read : a.write = false → reads = true ∧ x.src ≤ a.address ∧ a.address + a.size ≤ x.src + x.len
  aligned : a.align ∣ a.address
  isVolatile : a.isVolatile = x.isVolatile

/-- The state of the loops: the bytes from `lo` to `hi` are those of `want`, and what was accessed since
`s₀` is good. -/
structure Done (x : Transfer) (reads : Bool) (want : Nat → UInt8) (s₀ : State) (lo hi : Nat)
    (s : State) : Prop where
  mem : s.mem = written s₀.mem x.dst want lo hi
  accesses : ∃ new, s.accesses = s₀.accesses ++ new ∧ ∀ a ∈ new, a.Good x reads

/-! ## The bodies -/

variable {o : Order} {x : Transfer} {reads : Bool} {want : Nat → UInt8} {s₀ s : State}
  {step off lo hi lo' hi' : Nat}

theorem Done.start (s : State) (i : Nat) : Done x reads want s i i s := by
  refine ⟨?_, [], (List.append_nil _).symm, fun _ h => absurd h List.not_mem_nil⟩
  funext a
  exact (if_neg (by omega)).symm

theorem Done.extend {s' : State} {a : Access} (h : Done x reads want s₀ lo hi s)
    (hmem : s'.mem = written s₀.mem x.dst want lo' hi') (haccess : s'.accesses = s.accesses ++ [a])
    (ha : a.Good x reads) : Done x reads want s₀ lo' hi' s' := by
  obtain ⟨new, hnew, hgood⟩ := h.accesses
  refine ⟨hmem, new ++ [a], by rw [haccess, hnew, List.append_assoc], fun b hb => ?_⟩
  rcases List.mem_append.mp hb with hb | hb
  · exact hgood b hb
  · rw [List.mem_singleton.mp hb]
    exact ha

/-- An element of a range: its address does not wrap, and the smaller power of two divides it. -/
theorem Range.element {start len align : Nat} (h : Range start len align) (hstep : ∃ k, step = 2 ^ k)
    (hoff : step ∣ off) (hend : off + step ≤ len) :
    Word.add 64 start off = start + off ∧ min align step ∣ start + off := by
  obtain ⟨j, rfl⟩ := h.power
  obtain ⟨k, rfl⟩ := hstep
  have hstop := h.stop
  refine ⟨Word.add_eq (by omega), Nat.dvd_add ?_ ?_⟩
  · have hmin : min (2 ^ j) (2 ^ k) ∣ 2 ^ j := by
      rcases Nat.le_total j k with hle | hle
      · rw [Nat.min_eq_left (Nat.pow_le_pow_right (by decide) hle)]
      · rw [Nat.min_eq_right (Nat.pow_le_pow_right (by decide) hle)]
        exact Nat.pow_dvd_pow 2 hle
    exact hmin.trans h.aligned
  · have hmin : min (2 ^ j) (2 ^ k) ∣ 2 ^ k := by
      rcases Nat.le_total j k with hle | hle
      · rw [Nat.min_eq_left (Nat.pow_le_pow_right (by decide) hle)]
        exact Nat.pow_dvd_pow 2 hle
      · rw [Nat.min_eq_right (Nat.pow_le_pow_right (by decide) hle)]
    exact hmin.trans hoff

theorem storeElement_done {value : Nat} (hdst : Range x.dst x.len x.dstAlign) (hstep : ∃ k, step = 2 ^ k)
    (hoff : step ∣ off) (hend : off + step ≤ x.len)
    (hvalue : ∀ k < step, UInt8.ofNat (digit value (place o step k)) = want (off + k))
    (hparts : ∀ j, lo' ≤ j ∧ j < hi' ↔ (lo ≤ j ∧ j < hi) ∨ (off ≤ j ∧ j < off + step))
    (hdone : Done x reads want s₀ lo hi s) :
    Done x reads want s₀ lo' hi' (storeElement o x value step off s) := by
  obtain ⟨hadd, halign⟩ := hdst.element hstep hoff hend
  apply hdone.extend _ rfl
  · rw [hadd]
    refine ⟨fun _ => ⟨Nat.le_add_right _ _, ?_⟩, fun hr => (nomatch hr), halign, rfl⟩
    show x.dst + off + step ≤ x.dst + x.len
    omega
  · funext a
    show store o s.mem (Word.add 64 x.dst off) step value a = _
    rw [hadd, store_apply, hdone.mem]
    have hpart := hparts (a - x.dst)
    unfold written
    split
    next ha =>
      rw [if_pos (by omega), hvalue _ (by omega)]
      congr 1
      omega
    next ha =>
      by_cases hold : x.dst + lo ≤ a ∧ a < x.dst + hi
      · rw [if_pos hold, if_pos (by omega)]
      · rw [if_neg hold, if_neg (by omega)]

/-- One element of a copy does so, if its source bytes are still the original ones. -/
theorem copyElement_done (hdst : Range x.dst x.len x.dstAlign) (hsrc : Range x.src x.len x.srcAlign)
    (hstep : ∃ k, step = 2 ^ k) (hoff : step ∣ off) (hend : off + step ≤ x.len)
    (hsource : ∀ j, off ≤ j → j < off + step → ¬ (x.dst + lo ≤ x.src + j ∧ x.src + j < x.dst + hi))
    (hparts : ∀ j, lo' ≤ j ∧ j < hi' ↔ (lo ≤ j ∧ j < hi) ∨ (off ≤ j ∧ j < off + step))
    (hdone : Done x true (fun j => s₀.mem (x.src + j)) s₀ lo hi s) :
    Done x true (fun j => s₀.mem (x.src + j)) s₀ lo' hi' (copyElement o x step off s) := by
  obtain ⟨hadd, halign⟩ := hsrc.element hstep hoff hend
  have hloaded : Done x true (fun j => s₀.mem (x.src + j)) s₀ lo hi (loadElement o x step off s).2 := by
    apply hdone.extend (show (loadElement o x step off s).2.mem = _ from hdone.mem) rfl
    rw [hadd]
    refine ⟨fun hw => (nomatch hw), fun _ => ⟨rfl, Nat.le_add_right _ _, ?_⟩, halign, rfl⟩
    show x.src + off + step ≤ x.src + x.len
    omega
  apply storeElement_done hdst hstep hoff hend _ hparts hloaded
  intro k hk
  have hnot := hsource (off + k) (by omega) (by omega)
  rw [digit_load hk, UInt8.ofNat_toNat, hdone.mem, hadd, Nat.add_assoc]
  exact if_neg hnot

/-- Every byte of the word that `EmitSet` stores is the byte. -/
theorem digit_repeated {byte k : Nat} (hbyte : byte < 256) (hk : k < 8) :
    digit (Word.mul 64 byte 0x0101010101010101) k = byte := by
  have hmul : Word.mul 64 byte 0x0101010101010101 = Nat.ofDigits 256 (List.replicate 8 byte) := by
    rw [Word.mul_eq (by omega)]
    simp only [List.replicate, Nat.ofDigits_cons, Nat.ofDigits_nil]
    omega
  rw [hmul, digit_ofDigits]
  · rw [List.getD_eq_getElem?_getD, List.getElem?_replicate, if_pos hk]
    rfl
  · intro d hd
    rw [List.eq_of_mem_replicate hd]
    exact hbyte

/-! ## Words and bytes -/

theorem runLoops_pair {first second : Loop} {fuel count count' : Nat} {s' s'' : State}
    (hfirst : first.run fuel first.first s = some (s', count))
    (hsecond : second.run fuel second.first s' = some (s'', count')) :
    runLoops fuel [first, second] s = some (s'', count + (count' + 0)) := by
  simp [runLoops, hfirst, hsecond]

section Pairs

variable {words bytes : Nat → State → State} {fuel : Nat}

theorem ascending_done (hlen : x.len < 2 ^ 64) (hfuel : x.len ≤ fuel)
    (hwords : ∀ off s, 8 ∣ off → off + 8 ≤ x.len → Done x reads want s₀ 0 off s →
      Done x reads want s₀ 0 (off + 8) (words off s))
    (hbytes : ∀ off s, off + 1 ≤ x.len → Done x reads want s₀ 0 off s →
      Done x reads want s₀ 0 (off + 1) (bytes off s)) :
    ∃ s' count, runLoops fuel [⟨8, 0, wordsEnd x.len, false, words⟩,
        ⟨1, wordsEnd x.len, x.len, false, bytes⟩] s₀ = some (s', count) ∧ count ≤ x.len ∧
      Done x reads want s₀ 0 x.len s' := by
  have hend : wordsEnd x.len = x.len / 8 * 8 := Word.mul_eq (by omega)
  obtain ⟨s', hrun, hdone⟩ := Loop.run_ascending (l := ⟨8, 0, wordsEnd x.len, false, words⟩)
    rfl (Nat.succ_pos 7) (show wordsEnd x.len < 2 ^ 64 by omega) (Done x reads want s₀ 0)
    (fun i s hdvd hi => hwords i s (by dsimp only at hdvd hi; omega) (by dsimp only at hi; omega))
    (by dsimp only; omega) (.start s₀ 0) (show x.len / 8 ≤ fuel by omega)
  obtain ⟨s'', hrun', hdone'⟩ := Loop.run_ascending (l := ⟨1, wordsEnd x.len, x.len, false, bytes⟩)
    rfl Nat.one_pos hlen (Done x reads want s₀ 0) (fun i s _ hi => hbytes i s hi)
    (by dsimp only; omega) hdone (show x.len % 8 ≤ fuel by omega)
  exact ⟨s'', _, runLoops_pair hrun hrun', by omega, hdone'⟩

theorem descending_done (hlen : x.len < 2 ^ 64) (hfuel : x.len ≤ fuel)
    (hwords : ∀ off s, 8 ∣ off → off + 8 ≤ x.len → Done x reads want s₀ (off + 8) x.len s →
      Done x reads want s₀ off x.len (words off s))
    (hbytes : ∀ off s, off + 1 ≤ x.len → Done x reads want s₀ (off + 1) x.len s →
      Done x reads want s₀ off x.len (bytes off s)) :
    ∃ s' count, runLoops fuel [⟨1, wordsEnd x.len, x.len, true, bytes⟩,
        ⟨8, 0, wordsEnd x.len, true, words⟩] s₀ = some (s', count) ∧ count ≤ x.len ∧
      Done x reads want s₀ 0 x.len s' := by
  have hend : wordsEnd x.len = x.len / 8 * 8 := Word.mul_eq (by omega)
  obtain ⟨s', hrun, -, hdone⟩ := Loop.run_descending (l := ⟨1, wordsEnd x.len, x.len, true, bytes⟩)
    rfl Nat.one_pos (fun i s => i ≤ x.len ∧ Done x reads want s₀ i x.len s)
    (fun i s _ _ hinv => ⟨Nat.le_of_succ_le hinv.1, hbytes i s hinv.1 hinv.2⟩) (by dsimp only; omega)
    hlen ⟨Nat.le_refl _, .start s₀ x.len⟩ (show x.len % 8 ≤ fuel by omega)
  obtain ⟨s'', hrun', -, hdone'⟩ := Loop.run_descending (l := ⟨8, 0, wordsEnd x.len, true, words⟩)
    (i := wordsEnd x.len) rfl (Nat.succ_pos 7)
    (fun i s => i ≤ x.len ∧ Done x reads want s₀ i x.len s)
    (fun i s hdvd _ hinv => ⟨Nat.le_trans (Nat.le_add_right i 8) hinv.1,
      hwords i s hdvd hinv.1 hinv.2⟩)
    (by dsimp only; omega) (by omega) ⟨by omega, hdone⟩ (show x.len / 8 ≤ fuel by omega)
  exact ⟨s'', _, runLoops_pair hrun hrun', by omega, hdone'⟩

end Pairs

theorem emitCopy_done (backward : Bool) (hlen : x.len < 2 ^ 64) (hdst : Range x.dst x.len x.dstAlign)
    (hsrc : Range x.src x.len x.srcAlign)
    (hforward : backward = false → x.dst ≤ x.src ∨ x.src + x.len ≤ x.dst)
    (hbackward : backward = true → x.src ≤ x.dst) {fuel : Nat} (hfuel : x.len ≤ fuel) :
    ∃ s' count, runLoops fuel (emitCopy o x backward) s = some (s', count) ∧ count ≤ x.len ∧
      Done x true (fun j => s.mem (x.src + j)) s 0 x.len s' := by
  cases backward with
  | true =>
    -- The elements above have gone to addresses above the one that is read now.
    have hle := hbackward rfl
    apply descending_done hlen hfuel
    · intro off s' hoff hend hdone
      exact copyElement_done hdst hsrc ⟨3, rfl⟩ hoff hend (fun j => by omega) (fun j => by omega) hdone
    · intro off s' hend hdone
      exact copyElement_done hdst hsrc ⟨0, rfl⟩ (Nat.one_dvd off) hend (fun j => by omega)
        (fun j => by omega) hdone
  | false =>
    -- The elements below have gone to addresses below the one that is read now.
    have hapart := hforward rfl
    apply ascending_done hlen hfuel
    · intro off s' hoff hend hdone
      exact copyElement_done hdst hsrc ⟨3, rfl⟩ hoff hend (fun j => by omega) (fun j => by omega) hdone
    · intro off s' hend hdone
      exact copyElement_done hdst hsrc ⟨0, rfl⟩ (Nat.one_dvd off) hend (fun j => by omega)
        (fun j => by omega) hdone

theorem emitSet_done {value : Nat} (hlen : x.len < 2 ^ 64) (hdst : Range x.dst x.len x.dstAlign)
    {fuel : Nat} (hfuel : x.len ≤ fuel) :
    ∃ s' count, runLoops fuel (emitSet o x value) s = some (s', count) ∧ count ≤ x.len ∧
      Done x false (fun _ => UInt8.ofNat value) s 0 x.len s' := by
  have hbyte : value % 2 ^ 8 < 256 := Nat.mod_lt _ (by decide)
  have hvalue : UInt8.ofNat (value % 2 ^ 8) = UInt8.ofNat value := UInt8.ofNat_mod_size
  apply ascending_done hlen hfuel
  · intro off s' hoff hend hdone
    apply storeElement_done hdst (show ∃ k, 8 = 2 ^ k from ⟨3, rfl⟩) hoff hend _ (fun j => by omega) hdone
    intro k hk
    rw [digit_repeated hbyte (place_lt o hk), hvalue]
  · intro off s' hend hdone
    apply storeElement_done hdst (show ∃ k, 1 = 2 ^ k from ⟨0, rfl⟩) (Nat.one_dvd off) hend _
      (fun j => by omega) hdone
    intro k hk
    have hplace : place o 1 k = 0 := Nat.lt_one_iff.mp (place_lt o hk)
    rw [hplace, ← hvalue]
    unfold digit
    rw [Nat.pow_zero, Nat.div_one, Nat.mod_eq_of_lt hbyte]

/-! ## Every site -/

theorem loops_of_expand {loops : List Loop} {site : Site} {x : Operands}
    (h : site.expand o x = .loops loops) : loops = site.loops o x := by
  unfold Site.expand at h
  split at h
  · split at h
    · exact nomatch h
    · exact (Expansion.loops.inj h).symm
  · exact nomatch h

theorem Range.claimed {start len align : Nat} {intrinsic : Bool} (h : Range start len align) :
    Range start len (if intrinsic then align else 1) := by
  cases intrinsic with
  | true => exact h
  | false => exact ⟨h.stop, ⟨0, rfl⟩, Nat.one_dvd start⟩

/-- The loops of a site perform its operation: for every length, alignment and overlap they end, the
memory is the one asked for, all accesses lie in the two ranges, and there are at most as many iterations
as bytes. -/
theorem loops_perform (o : Order) (site : Site) (x : Operands) (hvalid : site.Valid x)
    {loops : List Loop} (hloops : site.expand o x = .loops loops) (s : State) (fuel : Nat)
    (hfuel : x.length ≤ fuel) :
    ∃ s' count, runLoops fuel loops s = some (s', count) ∧ count ≤ x.length ∧
      s'.mem = site.kind.reference x s.mem ∧
      ∃ new, s'.accesses = s.accesses ++ new ∧
        ∀ a ∈ new, a.Good (site.transfer x) (decide (site.kind ≠ .memset)) := by
  have hlength : (site.transfer x).len = x.length := Nat.mod_eq_of_lt hvalid.length
  have hdst : Range (site.transfer x).dst (site.transfer x).len (site.transfer x).dstAlign :=
    hlength ▸ hvalid.dst.claimed
  have hsrc : site.kind ≠ .memset →
      Range (site.transfer x).src (site.transfer x).len (site.transfer x).srcAlign := fun hkind =>
    hlength ▸ (hvalid.src hkind).claimed
  rw [loops_of_expand hloops]
  rw [← hlength] at hfuel
  have hlen : (site.transfer x).len < 2 ^ 64 := Nat.mod_lt _ (by decide)
  have hdone : ∃ s' count, runLoops fuel (site.loops o x) s = some (s', count) ∧
      count ≤ (site.transfer x).len ∧ Done (site.transfer x) (decide (site.kind ≠ .memset))
        (site.kind.want x s.mem) s 0 (site.transfer x).len s' := by
    unfold Site.loops
    cases hkind : site.kind with
    | memcpy =>
      have hapart := hvalid.memcpy hkind
      exact emitCopy_done false hlen hdst (hsrc (by simp [hkind]))
        (fun _ => show x.dst ≤ x.src ∨ x.src + _ ≤ x.dst by omega) (fun h => nomatch h) hfuel
    | memmove =>
      exact emitCopy_done _ hlen hdst (hsrc (by simp [hkind]))
        (fun h => .inl (Nat.le_of_not_lt (of_decide_eq_false h)))
        (fun h => Nat.le_of_lt (of_decide_eq_true h)) hfuel
    | memset => exact emitSet_done hlen hdst hfuel
  obtain ⟨s', count, hrun, hcount, hmem, haccesses⟩ := hdone
  rw [hlength] at hcount hmem
  exact ⟨s', count, hrun, hcount, hmem, haccesses⟩

/-- A volatile `memmove` of eleven bytes onto itself, two bytes up. -/
private def overlapping : Site where
  kind := .memmove
  intrinsic := true
  isVolatile := true
  dstAlign := 2
  srcAlign := 8
  dst := ⟨0, false⟩
  src := ⟨0, false⟩
  constantLength := some 11
  arguments := 4
  driver := true

theorem loops_perform_overlapping :
    ∃ s' count, runLoops 11 (overlapping.loops .little ⟨18, 16, 0, 11⟩) ⟨fun a => UInt8.ofNat a, []⟩ =
        some (s', count) ∧ count ≤ 11 ∧ s'.mem 28 = 26 := by
  have hvalid : overlapping.Valid ⟨18, 16, 0, 11⟩ := by
    constructor
    · decide
    · exact ⟨by decide, ⟨1, rfl⟩, by decide⟩
    · exact fun _ => ⟨by decide, ⟨3, rfl⟩, by decide⟩
    · exact fun h => nomatch h
  obtain ⟨s', count, hrun, hcount, hmem, -⟩ := loops_perform .little overlapping ⟨18, 16, 0, 11⟩ hvalid
    rfl ⟨fun a => UInt8.ofNat a, []⟩ 11 (Nat.le_refl 11)
  exact ⟨s', count, hrun, hcount, by rw [hmem]; rfl⟩

end BpfCapsule.ExpandMem

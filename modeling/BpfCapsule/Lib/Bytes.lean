import Mathlib.Data.Nat.Digits.Lemmas
import Mathlib.Data.Nat.Bitwise
import Mathlib.Tactic.Ring

/-!
# Words in byte memory

A word of `w` bytes lies in memory with its least significant byte first (`little`) or last (`big`).
Words are natural numbers and are compared digit by digit in base 256. The last section is about
accesses in pieces: reading the parts and joining them with shifts and ors reads the word
(`joinParts_eq`), storing the parts stores it (`storeParts_eq`).
-/

namespace Bytes

inductive Order where
  | little
  | big
deriving DecidableEq, Repr

/-! ## Digits -/

/-- The digit of `256 ^ k`. -/
def digit (x k : Nat) : Nat := x / 256 ^ k % 256

theorem digit_lt (x k : Nat) : digit x k < 256 := Nat.mod_lt _ (by decide)

@[simp] theorem digit_zero (k : Nat) : digit 0 k = 0 := by simp [digit]

theorem digit_eq_shiftRight (x k : Nat) : digit x k = (x >>> (8 * k)) % 2 ^ 8 := by
  rw [digit, Nat.shiftRight_eq_div_pow, Nat.pow_mul, show 2 ^ 8 = 256 from rfl]

variable {x k i lo hi q : Nat} {m' : Nat → UInt8}

theorem testBit_digit {j : Nat} (hj : j < 8) : (digit x k).testBit j = x.testBit (8 * k + j) := by
  rw [digit_eq_shiftRight, Nat.testBit_mod_two_pow, Nat.testBit_shiftRight]
  simp [hj]

/-- Digits are compared bit by bit. -/
theorem digit_eq_of_testBit {y l : Nat}
    (h : ∀ j < 8, x.testBit (8 * k + j) = y.testBit (8 * l + j)) : digit x k = digit y l := by
  apply Nat.eq_of_testBit_eq
  intro j
  rcases Nat.lt_or_ge j 8 with hj | hj
  · rw [testBit_digit hj, testBit_digit hj, h j hj]
  · have hlt : ∀ z : Nat, z < 256 → z.testBit j = false := fun z hz =>
      Nat.testBit_lt_two_pow (hz.trans_le (Nat.pow_le_pow_right (n := 2) (by decide) hj))
    rw [hlt _ (digit_lt x k), hlt _ (digit_lt y l)]

theorem digit_or (x y k : Nat) : digit (x ||| y) k = digit x k ||| digit y k := by
  rw [digit_eq_shiftRight, digit_eq_shiftRight, digit_eq_shiftRight, Nat.shiftRight_or_distrib,
    Nat.or_mod_two_pow]

theorem digit_shiftLeft (x s k : Nat) :
    digit (x <<< (8 * s)) k = if s ≤ k then digit x (k - s) else 0 := by
  unfold digit
  rw [Nat.shiftLeft_eq, Nat.pow_mul, show 2 ^ 8 = 256 from rfl]
  split
  · rw [show 256 ^ k = 256 ^ s * 256 ^ (k - s) by rw [← Nat.pow_add]; congr 1; omega,
      ← Nat.div_div_eq_div_mul, Nat.mul_div_cancel _ (Nat.pow_pos (by decide))]
  · rw [show 256 ^ s = 256 ^ (s - k) * 256 ^ k by rw [← Nat.pow_add]; congr 1; omega,
      ← Nat.mul_assoc, Nat.mul_div_cancel _ (Nat.pow_pos (by decide)),
      show s - k = (s - k - 1) + 1 by omega, Nat.pow_succ, ← Nat.mul_assoc, Nat.mul_mod_left]

theorem digit_shiftRight (x s k : Nat) : digit (x >>> (8 * s)) k = digit x (s + k) := by
  unfold digit
  rw [Nat.shiftRight_eq_div_pow, Nat.pow_mul, show 2 ^ 8 = 256 from rfl, Nat.div_div_eq_div_mul,
    Nat.pow_add]

variable {w : Nat}

theorem digit_mod (hk : k < w) : digit (x % 256 ^ w) k = digit x k := by
  unfold digit
  rw [show 256 ^ w = 256 ^ k * 256 ^ (w - k) by rw [← Nat.pow_add]; congr 1; omega,
    Nat.mod_mul_right_div_self, show w - k = (w - k - 1) + 1 by omega, Nat.pow_succ,
    Nat.mod_mul_left_mod]

theorem digit_of_lt (hx : x < 256 ^ w) (hk : w ≤ k) : digit x k = 0 := by
  unfold digit
  rw [Nat.div_eq_of_lt (hx.trans_le (Nat.pow_le_pow_right (by decide) hk))]

theorem eq_of_digit_eq {y : Nat} (hx : x < 256 ^ w) (hy : y < 256 ^ w)
    (h : ∀ k < w, digit x k = digit y k) : x = y := by
  induction w generalizing x y with
  | zero => omega
  | succ w ih =>
    have hlow : x % 256 = y % 256 := by
      have h0 := h 0 (by omega)
      simpa [digit] using h0
    have hhigh : x / 256 = y / 256 := by
      refine ih (Nat.div_lt_of_lt_mul (by omega)) (Nat.div_lt_of_lt_mul (by omega)) fun k hk => ?_
      have hk1 := h (k + 1) (by omega)
      unfold digit at hk1 ⊢
      rwa [Nat.pow_succ, Nat.mul_comm, ← Nat.div_div_eq_div_mul, ← Nat.div_div_eq_div_mul] at hk1
    omega

theorem digit_ofDigits {ds : List Nat} (hds : ∀ d ∈ ds, d < 256) (k : Nat) :
    digit (Nat.ofDigits 256 ds) k = ds.getD k 0 := by
  induction ds generalizing k with
  | nil => simp [Nat.ofDigits]
  | cons d ds ih =>
    have hd := hds d List.mem_cons_self
    unfold digit
    rw [Nat.ofDigits_cons]
    cases k with
    | zero => simp; omega
    | succ k =>
      rw [Nat.pow_succ, Nat.mul_comm (256 ^ k), ← Nat.div_div_eq_div_mul,
        show (d + 256 * Nat.ofDigits 256 ds) / 256 = Nat.ofDigits 256 ds by omega]
      exact ih (fun e he => hds e (List.mem_cons_of_mem _ he)) k

/-! ## Words and their bytes -/

/-- The digit that byte `i` of a `w`-byte word holds. -/
def place (o : Order) (w i : Nat) : Nat :=
  match o with
  | .little => i
  | .big => w - 1 - i

theorem place_lt (o : Order) (hi : i < w) : place o w i < w := by
  cases o <;> simp only [place] <;> omega

theorem exists_place (o : Order) (hk : k < w) : ∃ i < w, place o w i = k := by
  cases o with
  | little => exact ⟨k, hk, rfl⟩
  | big => exact ⟨w - 1 - k, by omega, by simp only [place]; omega⟩

/-- The word whose bytes in memory are `bs`. -/
def word (o : Order) (bs : List UInt8) : Nat :=
  Nat.ofDigits 256 ((match o with | .little => bs | .big => bs.reverse).map UInt8.toNat)

/-- The bytes of the word `v`, in memory order. -/
def bytes (o : Order) (w v : Nat) : List UInt8 :=
  (List.range w).map fun i => UInt8.ofNat (digit v (place o w i))

@[simp] theorem length_bytes (o : Order) (w v : Nat) : (bytes o w v).length = w := by
  simp [bytes]

theorem word_lt (o : Order) (bs : List UInt8) : word o bs < 256 ^ bs.length := by
  have hlt := Nat.ofDigits_lt_base_pow_length (b := 256)
    (l := (match o with | .little => bs | .big => bs.reverse).map UInt8.toNat) (by decide) ?_
  · refine hlt.trans_le (Nat.le_of_eq ?_)
    cases o <;> simp
  · intro d hd
    obtain ⟨b, _, rfl⟩ := List.mem_map.mp hd
    exact b.toNat_lt

theorem digit_word (o : Order) {bs : List UInt8} (hw : bs.length = w)
    (hi : i < bs.length) : digit (word o bs) (place o w i) = bs[i].toNat := by
  subst hw
  unfold word
  rw [digit_ofDigits]
  · cases o with
    | little => simp [place, List.getD_eq_getElem?_getD, hi]
    | big =>
      have hsub : bs.length - 1 - (bs.length - 1 - i) = i := by omega
      simp only [place, List.getD_eq_getElem?_getD, List.getElem?_map]
      rw [List.getElem?_reverse (by omega), hsub, List.getElem?_eq_getElem hi]
      rfl
  · intro d hd
    obtain ⟨b, _, rfl⟩ := List.mem_map.mp hd
    exact b.toNat_lt

/-! ## Byte memory -/

/-- The bytes from `a` on. -/
def read (m : Nat → UInt8) (a w : Nat) : List UInt8 := (List.range w).map fun i => m (a + i)

/-- Memory with the bytes `bs` put at `a`. -/
def write (m : Nat → UInt8) (a : Nat) (bs : List UInt8) (x : Nat) : UInt8 :=
  if a ≤ x then bs.getD (x - a) (m x) else m x

def load (o : Order) (m : Nat → UInt8) (a w : Nat) : Nat := word o (read m a w)

def store (o : Order) (m : Nat → UInt8) (a w v : Nat) : Nat → UInt8 := write m a (bytes o w v)

variable {o : Order} {m : Nat → UInt8} {a p v : Nat}

@[simp] theorem length_read : (read m a w).length = w := by simp [read]

theorem load_lt : load o m a w < 256 ^ w := by
  have := word_lt o (read m a w)
  rwa [length_read] at this

theorem digit_load (hi : i < w) : digit (load o m a w) (place o w i) = (m (a + i)).toNat := by
  unfold load
  rw [digit_word o length_read (by simpa using hi)]
  simp [read]

/-- What is stored at the bytes of the word, and what stays. -/
theorem store_apply (x : Nat) : store o m a w v x =
    if a ≤ x ∧ x < a + w then UInt8.ofNat (digit v (place o w (x - a))) else m x := by
  unfold store write
  rw [List.getD_eq_getElem?_getD]
  by_cases hle : a ≤ x
  · by_cases hlt : x < a + w
    · rw [if_pos hle, if_pos ⟨hle, hlt⟩, bytes, List.getElem?_map,
        List.getElem?_range (by omega)]
      rfl
    · rw [if_pos hle, if_neg (fun h => hlt h.2), List.getElem?_eq_none (by simp; omega)]
      rfl
  · rw [if_neg hle, if_neg (fun h => hle h.1)]

theorem load_congr {a' : Nat} (h : ∀ i < w, m (a + i) = m' (a' + i)) :
    load o m a w = load o m' a' w := by
  unfold load read
  rw [List.map_congr_left fun i hi => h i (List.mem_range.mp hi)]

theorem load_store : load o (store o m a w v) a w = v % 256 ^ w := by
  apply eq_of_digit_eq load_lt (Nat.mod_lt _ (Nat.pow_pos (by decide)))
  intro k hk
  obtain ⟨i, hi, rfl⟩ := exists_place o hk
  rw [digit_load hi, digit_mod hk, store_apply, if_pos ⟨by omega, by omega⟩,
    show a + i - a = i by omega, UInt8.toNat_ofNat_of_lt' (digit_lt _ _)]

/-- Two memories with the same bytes outside `[lo, hi)`. -/
def Outside (lo hi : Nat) (m m' : Nat → UInt8) : Prop := ∀ x, ¬ (lo ≤ x ∧ x < hi) → m' x = m x

theorem outside_store : Outside a (a + w) m (store o m a w v) := by
  intro x hx
  rw [store_apply, if_neg hx]

theorem Outside.mono {lo' hi' : Nat} (h : Outside lo hi m m') (hlo : lo' ≤ lo) (hhi : hi ≤ hi') :
    Outside lo' hi' m m' :=
  fun x hx => h x fun ⟨hle, hlt⟩ => hx ⟨Nat.le_trans hlo hle, Nat.lt_of_lt_of_le hlt hhi⟩

theorem Outside.trans {m'' : Nat → UInt8} (h : Outside lo hi m m') (h' : Outside lo hi m' m'') :
    Outside lo hi m m'' :=
  fun x hx => (h' x hx).trans (h x hx)

/-- A word of the unchanged part is unchanged. -/
theorem Outside.load_eq (h : Outside lo hi m m') (hdisj : a + w ≤ lo ∨ hi ≤ a) :
    load o m' a w = load o m a w :=
  load_congr fun i _ => h (a + i) (by omega)

/-! ## Accesses in parts -/

/-- The offsets of the parts of `p` bytes of a `w`-byte word. -/
def parts (w p : Nat) : List Nat := (List.range (w / p)).map (· * p)

/-- The digit at which the part at `q` begins. -/
def shift (o : Order) (w p q : Nat) : Nat :=
  match o with
  | .little => q
  | .big => w - p - q

def joinParts (o : Order) (w p : Nat) (part : Nat → Nat) : Nat :=
  (parts w p).foldl (fun raw q => raw ||| part q <<< (8 * shift o w p q)) 0

/-- The part at `q` of the word `v`. -/
def cutPart (o : Order) (w p v q : Nat) : Nat := (v >>> (8 * shift o w p q)) % 256 ^ p

theorem mem_parts (hdvd : p ∣ w) (hq : q ∈ parts w p) : p ∣ q ∧ q + p ≤ w := by
  obtain ⟨n, rfl⟩ := hdvd
  obtain ⟨i, hi, rfl⟩ := List.mem_map.mp hq
  rw [List.mem_range] at hi
  refine ⟨Nat.dvd_mul_left p i, ?_⟩
  have hlt : i < n := by
    rcases Nat.eq_zero_or_pos p with rfl | hp
    · simp at hi
    · rwa [Nat.mul_div_cancel_left n hp] at hi
  calc i * p + p = (i + 1) * p := by rw [Nat.succ_mul]
    _ ≤ n * p := Nat.mul_le_mul_right p hlt
    _ = p * n := Nat.mul_comm n p

/-- Byte `j` of the part at `q` is byte `q + j` of the word. -/
theorem place_part {j : Nat} (hq : q + p ≤ w) (hj : j < p) :
    place o w (q + j) = shift o w p q + place o p j := by
  cases o with
  | little => rfl
  | big => simp only [place, shift]; omega

theorem shift_dvd (hdvd : p ∣ w) (hq : q ∈ parts w p) : p ∣ shift o w p q := by
  obtain ⟨hpq, _⟩ := mem_parts hdvd hq
  cases o with
  | little => exact hpq
  | big => exact Nat.dvd_sub (Nat.dvd_sub hdvd (Nat.dvd_refl p)) hpq

theorem shift_inj {q' : Nat} (hq : q + p ≤ w) (hq' : q' + p ≤ w)
    (h : shift o w p q = shift o w p q') : q = q' := by
  cases o with
  | little => exact h
  | big => simp only [shift] at h; omega

theorem part_mem (hp : 0 < p) (hdvd : p ∣ w) (hi : i < w) : i / p * p ∈ parts w p := by
  obtain ⟨n, rfl⟩ := hdvd
  refine List.mem_map.mpr ⟨i / p, List.mem_range.mpr ?_, rfl⟩
  rw [Nat.mul_div_cancel_left n hp]
  exact Nat.div_lt_of_lt_mul hi

/-- A digit of a chain of ors when at most the member `q` contributes to it. -/
theorem digit_foldl_or {f : Nat → Nat} {l : List Nat}
    (h : ∀ q' ∈ l, q' ≠ q → digit (f q') k = 0) (x : Nat) :
    digit (l.foldl (fun raw q => raw ||| f q) x) k =
      digit x k ||| if q ∈ l then digit (f q) k else 0 := by
  induction l generalizing x with
  | nil => simp
  | cons q' l ih =>
    rw [List.foldl_cons, ih fun r hr => h r (List.mem_cons_of_mem _ hr), digit_or]
    by_cases heq : q' = q
    · by_cases hmem : q ∈ l <;> simp [heq, hmem]
    · simp [h q' List.mem_cons_self heq, Ne.symm heq]

theorem foldl_or_lt {f : Nat → Nat} {l : List Nat} {n : Nat} (hx : x < 2 ^ n)
    (h : ∀ q ∈ l, f q < 2 ^ n) : l.foldl (fun raw q => raw ||| f q) x < 2 ^ n :=
  List.foldlRecOn (motive := (· < 2 ^ n)) l _ hx fun _ hraw q hq => Nat.or_lt_two_pow hraw (h q hq)

/-- A word loaded in parts is the word. -/
theorem joinParts_eq (hp : 0 < p) (hdvd : p ∣ w) {part : Nat → Nat}
    (hpart : ∀ q ∈ parts w p, part q = load o m (a + q) p) :
    joinParts o w p part = load o m a w := by
  have hsmall : ∀ q ∈ parts w p, part q < 256 ^ p := fun q hq => hpart q hq ▸ load_lt
  refine eq_of_digit_eq ?_ load_lt fun k hk => ?_
  · -- every part stays inside the word after its shift
    rw [show 256 ^ w = 2 ^ (8 * w) by rw [Nat.pow_mul]]
    refine foldl_or_lt (Nat.two_pow_pos _) fun q hq => ?_
    obtain ⟨_, hqw⟩ := mem_parts hdvd hq
    have hshift : shift o w p q + p ≤ w := by cases o <;> simp only [shift] <;> omega
    calc part q <<< (8 * shift o w p q) = part q * 2 ^ (8 * shift o w p q) := Nat.shiftLeft_eq _ _
      _ < 2 ^ (8 * p) * 2 ^ (8 * shift o w p q) := by
        refine Nat.mul_lt_mul_of_pos_right ?_ (Nat.two_pow_pos _)
        rw [Nat.pow_mul]
        exact hsmall q hq
      _ = 2 ^ (8 * p + 8 * shift o w p q) := (Nat.pow_add 2 _ _).symm
      _ ≤ 2 ^ (8 * w) := Nat.pow_le_pow_right (by decide) (by omega)
  · obtain ⟨i, hi, rfl⟩ := exists_place o hk
    have hsplit : i / p * p + i % p = i := by rw [Nat.mul_comm]; exact Nat.div_add_mod i p
    have hj : i % p < p := Nat.mod_lt i hp
    have hmem := part_mem hp hdvd hi
    obtain ⟨_, hqw⟩ := mem_parts hdvd hmem
    have hplace : place o w i = shift o w p (i / p * p) + place o p (i % p) := by
      rw [← place_part hqw hj, hsplit]
    have hjp : place o p (i % p) < p := place_lt o hj
    -- the digit lies in the part of byte `i` and in no other
    have hother : ∀ q ∈ parts w p, q ≠ i / p * p →
        digit (part q <<< (8 * shift o w p q)) (place o w i) = 0 := by
      intro q hq hne
      obtain ⟨_, hqw'⟩ := mem_parts hdvd hq
      obtain ⟨s, hs⟩ := shift_dvd (o := o) hdvd hq
      obtain ⟨t, ht⟩ := shift_dvd (o := o) hdvd hmem
      have hst : s ≠ t := fun heq => hne (shift_inj hqw' hqw (by rw [hs, ht, heq]))
      rw [digit_shiftLeft, hplace]
      split
      · rename_i hle
        refine digit_of_lt (hsmall q hq) ?_
        rw [hs, ht] at hle ⊢
        have hlt : s < t := by
          rcases Nat.lt_or_ge t s with hts | hts
          · have := Nat.mul_le_mul_left p (show t + 1 ≤ s from hts)
            rw [Nat.mul_add, Nat.mul_one] at this
            omega
          · omega
        have := Nat.mul_le_mul_left p (show s + 1 ≤ t from hlt)
        rw [Nat.mul_add, Nat.mul_one] at this
        omega
      · rfl
    unfold joinParts
    rw [digit_foldl_or hother, if_pos hmem, digit_zero, Nat.zero_or, digit_shiftLeft, hplace,
      if_pos (by omega), Nat.add_sub_cancel_left, hpart _ hmem, digit_load hj, ← hplace,
      digit_load hi, Nat.add_assoc, hsplit]

/-- A word stored in parts is the word stored. -/
theorem storeParts_eq (hp : 0 < p) (hdvd : p ∣ w) :
    (parts w p).foldl (fun m q => store o m (a + q) p (cutPart o w p v q)) m = store o m a w v := by
  have hbyte : ∀ q ∈ parts w p, ∀ x, a + q ≤ x → x < a + q + p →
      UInt8.ofNat (digit (cutPart o w p v q) (place o p (x - (a + q))))
        = UInt8.ofNat (digit v (place o w (x - a))) := by
    intro q hq x hle hlt
    obtain ⟨_, hqw⟩ := mem_parts hdvd hq
    have hj : x - (a + q) < p := by omega
    rw [cutPart, digit_mod (place_lt o hj), digit_shiftRight, ← place_part hqw hj]
    congr 3
    omega
  -- a byte is written by every part of the chain that covers it, always with the same value
  have hchain : ∀ (l : List Nat), (∀ q ∈ l, q ∈ parts w p) → ∀ (m : Nat → UInt8) (x : Nat),
      l.foldl (fun m q => store o m (a + q) p (cutPart o w p v q)) m x
        = if ∃ q ∈ l, a + q ≤ x ∧ x < a + q + p
          then UInt8.ofNat (digit v (place o w (x - a))) else m x := by
    intro l
    induction l with
    | nil => intro _ m x; simp
    | cons q l ih =>
      intro hl m x
      rw [List.foldl_cons, ih fun r hr => hl r (List.mem_cons_of_mem _ hr), store_apply]
      by_cases hrest : ∃ r ∈ l, a + r ≤ x ∧ x < a + r + p
      · obtain ⟨r, hr, hx⟩ := hrest
        rw [if_pos ⟨r, hr, hx⟩, if_pos ⟨r, List.mem_cons_of_mem _ hr, hx⟩]
      · rw [if_neg hrest]
        by_cases hx : a + q ≤ x ∧ x < a + q + p
        · rw [if_pos hx, if_pos ⟨q, List.mem_cons_self, hx⟩]
          exact hbyte q (hl q List.mem_cons_self) x hx.1 hx.2
        · rw [if_neg hx, if_neg]
          rintro ⟨r, hr, hxr⟩
          rcases List.mem_cons.mp hr with rfl | hr
          · exact hx hxr
          · exact hrest ⟨r, hr, hxr⟩
  funext x
  rw [hchain _ (fun q hq => hq), store_apply]
  congr 1
  refine propext ⟨?_, ?_⟩
  · rintro ⟨q, hq, hle, hlt⟩
    have := (mem_parts hdvd hq).2
    omega
  · intro ⟨hle, hlt⟩
    have hi : x - a < w := by omega
    have hsplit : (x - a) / p * p + (x - a) % p = x - a := by
      rw [Nat.mul_comm]
      exact Nat.div_add_mod (x - a) p
    have := Nat.mod_lt (x - a) hp
    exact ⟨(x - a) / p * p, part_mem hp hdvd hi, by omega, by omega⟩

end Bytes

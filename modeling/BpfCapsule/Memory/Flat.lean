import BpfCapsule.Memory.Accessors

/-!
# Routed memory is flat memory

The abstract side is one array of bytes indexed by logical address (`flatExecute`). `Config.flat`
reads the regions off as such an array. Each accessor does to the flat memory what the plain
instruction does (`load_flat`, `put_flat`), because an aligned access stays inside one region and the
mask then only removes bits that are zero; **`executeAll_refines`** is the induction over a sequence.
-/

namespace BpfCapsule.FixedMemory

open Bytes

/-! ## Flat memory -/

def flatExecute (o : Order) (m : Nat → UInt8) (x : Access) : (Nat → UInt8) × List Nat :=
  let w := x.width.bytes
  let a := x.addr % 2 ^ 32
  let old := load o m a w
  match x.action with
  | .load _ => (m, [old])
  | .store _ value => (store o m a w value, [])
  | .atomic kind operand => (store o m a w (kind.apply w old (operand % 256 ^ w)), [old])
  | .compareExchange expected replacement =>
    (if old = expected % 256 ^ w then store o m a w replacement else m,
      [old, if old = expected % 256 ^ w then 1 else 0])

def flatExecuteAll (o : Order) (m : Nat → UInt8) : List Access → (Nat → UInt8) × List Nat
  | [] => (m, [])
  | x :: xs =>
    let first := flatExecute o m x
    let rest := flatExecuteAll o first.1 xs
    (rest.1, first.2 ++ rest.2)

namespace Config

variable (c : Config)

def base (r : Nat) : Base := if r < c.directRegions then .region r else .value (r - c.directRegions)

def flat (st : Storage) (a : Nat) : UInt8 := if a < c.size then st (c.base (a / span)) (a % span) else 0

end Config

def Access.align (x : Access) : Nat :=
  match x.action with
  | .load align => 2 ^ align
  | .store align _ => 2 ^ align
  | .atomic _ _ => x.width.bytes
  | .compareExchange _ _ => x.width.bytes

/-- The access lies in the configured memory and its claim is true. -/
structure Access.Fits (c : Config) (x : Access) : Prop where
  inside : x.addr % 2 ^ 32 + x.width.bytes ≤ c.size
  aligned : x.align ∣ x.addr

def Access.Outside (c : Config) (x : Access) : Prop :=
  ∀ i < x.width.bytes, c.size ≤ (x.addr + i) % 2 ^ 32

/-! ## Regions -/

def Natural (w : Nat) : Prop := ∃ j ≤ 3, w = 2 ^ j

theorem Width.natural (w : Width) : Natural w.bytes := by
  cases w with
  | i8 => exact ⟨0, by decide, rfl⟩
  | i16 => exact ⟨1, by decide, rfl⟩
  | i32 => exact ⟨2, by decide, rfl⟩
  | i64 => exact ⟨3, by decide, rfl⟩

theorem Natural.pos {w : Nat} (hw : Natural w) : 0 < w := by
  obtain ⟨j, _, rfl⟩ := hw
  exact Nat.two_pow_pos j

theorem Natural.dvd_span {w : Nat} (hw : Natural w) : w ∣ span := by
  obtain ⟨j, hj, rfl⟩ := hw
  exact Nat.pow_dvd_pow 2 (hj.trans (by decide))

/-- A part is an aligned access of its own. -/
theorem natural_part {align : Nat} (width : Width) (h : 2 ^ align < width.bytes) :
    Natural (2 ^ align) ∧ 2 ^ align ∣ width.bytes := by
  obtain ⟨j, hj, hw⟩ := width.natural
  rw [hw] at h ⊢
  have hlt : align < j := (Nat.pow_lt_pow_iff_right (by decide)).mp h
  exact ⟨⟨align, by omega, rfl⟩, Nat.pow_dvd_pow 2 hlt.le⟩

section Regions

variable {c : Config} {addr w : Nat}

theorem index_eq : Config.index addr = addr % 2 ^ 32 / span := Nat.shiftRight_eq_div_pow _ _

theorem index_lt (addr : Nat) : Config.index addr < maxHeapRegions := by
  rw [index_eq, maxHeapRegions, span, memoryRegionShift, Nat.shiftRight_eq_div_pow]
  omega

/-- The accessor reaches the region of its address when that is configured, and none else. -/
theorem route_eq : c.route addr = if Config.index addr < c.directRegions + c.arrayEntries
    then some (c.base (Config.index addr)) else none := by
  have hlt := index_lt addr
  have hdomain : maxHeapRegions < 2 ^ 32 := by decide
  have hpos := c.nonempty
  unfold Config.route Config.base
  by_cases hdirect : Config.index addr < c.directRegions
  · rw [if_pos (by omega : Config.index addr < c.directRegions + c.arrayEntries), if_pos hdirect]
    split
    · rename_i hzero
      rw [hzero]
    · rfl
  · rw [if_neg (by omega), if_neg hdirect, if_neg hdirect, if_pos (by omega), Config.arrayRoute,
      if_pos ⟨by omega, hlt⟩, Word.sub_eq (by omega) (by omega), Config.arrayLookup]
    by_cases hconfigured : Config.index addr < c.directRegions + c.arrayEntries
    · rw [if_pos hconfigured, if_pos (by omega)]
    · rw [if_neg hconfigured, if_neg (by omega)]

theorem low_eq (hw : Natural w) (hdvd : w ∣ addr) : low w addr = addr % 2 ^ 32 % span := by
  obtain ⟨j, hj, rfl⟩ := hw
  unfold low span
  rw [Word.and_two_pow_sub_two_pow (hj.trans (by decide)),
    Nat.mod_mod_of_dvd _ (show 2 ^ memoryRegionShift ∣ 2 ^ 32 by decide)]
  refine Nat.div_mul_cancel ((Nat.dvd_mod_iff ?_).mpr hdvd)
  exact Nat.pow_dvd_pow 2 (hj.trans (by decide))

/-- Whatever the address, the access stays inside the region. -/
theorem low_add_le (addr : Nat) (hw : Natural w) : low w addr + w ≤ span := by
  obtain ⟨j, hj, rfl⟩ := hw
  unfold low span
  rw [Word.and_two_pow_sub_two_pow (hj.trans (by decide))]
  have hdvd : 2 ^ j ∣ 2 ^ memoryRegionShift := Nat.pow_dvd_pow 2 (hj.trans (by decide))
  have hlt := Nat.mod_lt addr (Nat.two_pow_pos memoryRegionShift)
  obtain ⟨n, hn⟩ := hdvd
  have hquot : addr % 2 ^ memoryRegionShift / 2 ^ j < n := Nat.div_lt_of_lt_mul (hn ▸ hlt)
  calc addr % 2 ^ memoryRegionShift / 2 ^ j * 2 ^ j + 2 ^ j
      = (addr % 2 ^ memoryRegionShift / 2 ^ j + 1) * 2 ^ j := by rw [Nat.succ_mul]
    _ ≤ n * 2 ^ j := Nat.mul_le_mul_right _ hquot
    _ = 2 ^ memoryRegionShift := by rw [hn, Nat.mul_comm]

end Regions

/-! ## One physical access -/

section

variable {o : Order} {c : Config} {st : Storage} {addr w : Nat}

theorem same_region {a i : Nat} (hw : Natural w) (hdvd : w ∣ a) (hi : i < w) :
    (a + i) / span = a / span ∧ (a + i) % span = a % span + i := by
  have hfit : a % span + w ≤ span := by
    have hlt : a % span < span := Nat.mod_lt a (by decide)
    obtain ⟨m, hm⟩ := hw.dvd_span
    obtain ⟨n, hn⟩ := (Nat.dvd_mod_iff hw.dvd_span).mpr hdvd
    have hnm : n < m := Nat.lt_of_mul_lt_mul_left (a := w) (by omega)
    have := Nat.mul_le_mul_left w (show n + 1 ≤ m from hnm)
    rw [Nat.mul_add, Nat.mul_one] at this
    omega
  simp only [span, memoryRegionShift] at *
  omega

theorem Config.base_inj {r r' : Nat} (h : c.base r = c.base r') : r = r' := by
  unfold base at h
  split at h <;> split at h
  · exact Base.region.inj h
  · cases h
  · cases h
  · have := Base.value.inj h
    omega

theorem Config.flat_apply {x : Nat} (hx : x < c.size) :
    c.flat st x = st (c.base (x / span)) (x % span) := if_pos hx

/-- What an aligned access in the configured memory is routed to. -/
theorem route_inside (hpos : 0 < w) (hinside : addr % 2 ^ 32 + w ≤ c.size) :
    c.route addr = some (c.base (addr % 2 ^ 32 / span)) := by
  rw [route_eq, index_eq, if_pos]
  unfold Config.size at hinside
  exact Nat.div_lt_of_lt_mul (by rw [Nat.mul_comm]; omega)

theorem route_outside (houtside : c.size ≤ addr % 2 ^ 32) : c.route addr = none := by
  rw [route_eq, index_eq, if_neg]
  exact Nat.not_lt.mpr ((Nat.le_div_iff_mul_le (by decide)).mpr houtside)

theorem dvd_logical (hw : Natural w) (hdvd : w ∣ addr) : w ∣ addr % 2 ^ 32 := by
  refine (Nat.dvd_mod_iff ?_).mpr hdvd
  exact hw.dvd_span.trans (show span ∣ 2 ^ 32 by decide)

theorem load_flat (o : Order) (st : Storage) (hw : Natural w) (hdvd : w ∣ addr)
    (hinside : addr % 2 ^ 32 + w ≤ c.size) :
    load o (st (c.base (addr % 2 ^ 32 / span))) (low w addr) w
      = load o (c.flat st) (addr % 2 ^ 32) w := by
  refine load_congr fun i hi => ?_
  obtain ⟨hdiv, hmod⟩ := same_region hw (dvd_logical hw hdvd) hi
  rw [Config.flat_apply (by omega), hdiv, hmod, low_eq hw hdvd]

theorem put_flat (hw : Natural w) (hdvd : w ∣ addr) (hinside : addr % 2 ^ 32 + w ≤ c.size)
    (value : Nat) : c.flat (put o st (c.base (addr % 2 ^ 32 / span)) w addr value)
      = store o (c.flat st) (addr % 2 ^ 32) w value := by
  have hsame := fun i hi => same_region (i := i) hw (dvd_logical hw hdvd) hi
  generalize ha : addr % 2 ^ 32 = a at *
  funext x
  rw [store_apply]
  by_cases hx : x < c.size
  · rw [Config.flat_apply hx, Config.flat_apply hx, put, Function.update_apply, low_eq hw hdvd, ha]
    by_cases hregion : x / span = a / span
    · -- the same region: the offsets compare as the addresses do
      rw [if_pos (by rw [hregion]), store_apply]
      have hrange : (a % span ≤ x % span ∧ x % span < a % span + w) ↔ (a ≤ x ∧ x < a + w) := by
        have h₁ := Nat.div_add_mod a span
        have h₂ := Nat.div_add_mod x span
        rw [hregion] at h₂
        omega
      have hoffset : x % span - a % span = x - a := by
        have h₁ := Nat.div_add_mod a span
        have h₂ := Nat.div_add_mod x span
        rw [hregion] at h₂
        omega
      simp only [hrange, hoffset, hregion]
    · rw [if_neg fun h => hregion (Config.base_inj h), if_neg]
      intro ⟨hle, hlt⟩
      have := (hsame (x - a) (by omega)).1
      rw [show a + (x - a) = x by omega] at this
      exact hregion this
  · rw [Config.flat, if_neg hx, if_neg (by omega), Config.flat, if_neg hx]

theorem store_mod {m : Nat → UInt8} {a v : Nat} : store o m a w (v % 256 ^ w) = store o m a w v := by
  funext x
  rw [store_apply, store_apply]
  split
  · rw [digit_mod (place_lt o (by omega))]
  · rfl

theorem heapLoad_flat (hw : Natural w) (hdvd : w ∣ addr) (hinside : addr % 2 ^ 32 + w ≤ c.size) :
    heapLoad o c st w addr = load o (c.flat st) (addr % 2 ^ 32) w := by
  unfold heapLoad
  rw [route_inside hw.pos hinside]
  exact load_flat o st hw hdvd hinside

theorem heapStore_flat (hw : Natural w) (hdvd : w ∣ addr) (hinside : addr % 2 ^ 32 + w ≤ c.size)
    (value : Nat) : c.flat (heapStore o c st w addr value)
      = store o (c.flat st) (addr % 2 ^ 32) w value := by
  unfold heapStore
  rw [route_inside hw.pos hinside]
  rw [put_flat hw hdvd hinside, store_mod]

/-! ## Accesses in parts -/

theorem Config.size_le : c.size ≤ 2 ^ 32 := by
  calc (c.directRegions + c.arrayEntries) * span ≤ maxHeapRegions * span :=
        Nat.mul_le_mul_right _ c.addressable
    _ = 2 ^ 32 := by decide

theorem partAddr_logical {q p : Nat} (hinside : addr % 2 ^ 32 + w ≤ c.size) (hp : 0 < p)
    (hq : q + p ≤ w) : partAddr addr q % 2 ^ 32 = addr % 2 ^ 32 + q := by
  have hsize := c.size_le
  unfold partAddr
  omega

theorem dvd_partAddr {q p : Nat} (hp : Natural p) (hdvd : p ∣ addr) (hq : p ∣ q) :
    p ∣ partAddr addr q := by
  refine (Nat.dvd_mod_iff ?_).mpr (Nat.dvd_add hdvd hq)
  exact hp.dvd_span.trans (show span ∣ 2 ^ 64 by decide)

section

variable {p : Nat} (hp : Natural p) (hpw : p ∣ w) (hdvd : p ∣ addr)
  (hinside : addr % 2 ^ 32 + w ≤ c.size)

include hp hpw hdvd hinside

theorem joinParts_flat : (joinParts o w p fun q => heapLoad o c st p (partAddr addr q))
    = load o (c.flat st) (addr % 2 ^ 32) w := by
  refine joinParts_eq hp.pos hpw fun q hq => ?_
  obtain ⟨hpq, hqw⟩ := mem_parts hpw hq
  have hlogical := partAddr_logical hinside hp.pos hqw
  rw [heapLoad_flat hp (dvd_partAddr hp hdvd hpq) (by omega), hlogical]

theorem storeParts_flat (value : Nat) :
    c.flat ((parts w p).foldl (fun st q => heapStore o c st p (partAddr addr q)
        (cutPart o w p value q)) st)
      = store o (c.flat st) (addr % 2 ^ 32) w value := by
  -- part by part, the flat memory follows the storage
  have hchain := List.foldl_rel (r := fun st m => c.flat st = m)
    (g := fun m q => store o m (addr % 2 ^ 32 + q) p (cutPart o w p value q)) (Eq.refl (c.flat st))
    (by
      rintro q hq st _ rfl
      obtain ⟨hpq, hqw⟩ := mem_parts hpw hq
      have hlogical := partAddr_logical hinside hp.pos hqw
      rw [heapStore_flat hp (dvd_partAddr hp hdvd hpq) (by omega), hlogical])
  rw [hchain, storeParts_eq hp.pos hpw]

end

/-! ## Sequences of accesses -/

theorem dvd_of_le_align {align : Nat} (hw : Natural w) (hle : w ≤ 2 ^ align) (hdvd : 2 ^ align ∣ addr) :
    w ∣ addr := by
  obtain ⟨j, _, rfl⟩ := hw
  exact (Nat.pow_dvd_pow 2 ((Nat.pow_le_pow_iff_right (by decide)).mp hle)).trans hdvd

theorem execute_refines (o : Order) (st : Storage) {x : Access} (hx : x.Fits c) :
    c.flat (execute o c st x).1 = (flatExecute o (c.flat st) x).1 ∧
      (execute o c st x).2 = (flatExecute o (c.flat st) x).2 := by
  obtain ⟨addr, width, action⟩ := x
  obtain ⟨hinside, haligned⟩ := hx
  have hw := width.natural
  cases action with
  | load align =>
    refine ⟨rfl, ?_⟩
    show [_] = [load o (c.flat st) (addr % 2 ^ 32) width.bytes]
    congr 1
    split
    · rename_i hwhole
      exact heapLoad_flat hw (dvd_of_le_align hw hwhole haligned) hinside
    · rename_i hparts
      obtain ⟨hp, hpw⟩ := natural_part width (Nat.lt_of_not_le hparts)
      exact joinParts_flat hp hpw haligned hinside
  | store align value =>
    refine ⟨?_, rfl⟩
    show c.flat (ite _ _ _) = store o (c.flat st) (addr % 2 ^ 32) width.bytes value
    split
    · rename_i hwhole
      exact heapStore_flat hw (dvd_of_le_align hw hwhole haligned) hinside value
    · rename_i hparts
      obtain ⟨hp, hpw⟩ := natural_part width (Nat.lt_of_not_le hparts)
      exact storeParts_flat hp hpw haligned hinside value
  | atomic kind operand =>
    have hload := load_flat o st hw haligned hinside
    simp only [execute, flatExecute, heapAtomic, route_inside hw.pos hinside, hload, and_true]
    exact put_flat hw haligned hinside _
  | compareExchange expected replacement =>
    have hload := load_flat o st hw haligned hinside
    simp only [execute, flatExecute, heapCompareExchange, route_inside hw.pos hinside, hload,
      and_true]
    split
    · rw [put_flat hw haligned hinside, store_mod]
    · rfl

/-- Accesses that fit act on the regions as they would on one flat memory. -/
theorem executeAll_refines (o : Order) (st : Storage) {xs : List Access} (hxs : ∀ x ∈ xs, x.Fits c) :
    c.flat (executeAll o c st xs).1 = (flatExecuteAll o (c.flat st) xs).1 ∧
      (executeAll o c st xs).2 = (flatExecuteAll o (c.flat st) xs).2 := by
  induction xs generalizing st with
  | nil => exact ⟨rfl, rfl⟩
  | cons x xs ih =>
    obtain ⟨hmem, hseen⟩ := execute_refines o st (hxs x List.mem_cons_self)
    obtain ⟨hmem', hseen'⟩ := ih (execute o c st x).1 fun y hy =>
      hxs y (List.mem_cons_of_mem _ hy)
    rw [hmem] at hmem' hseen'
    refine ⟨hmem', ?_⟩
    show (execute o c st x).2 ++ _ = (flatExecute o (c.flat st) x).2 ++ _
    rw [hseen, hseen']

theorem heapStore_outside (houtside : c.size ≤ addr % 2 ^ 32) (value : Nat) :
    heapStore o c st w addr value = st := by
  unfold heapStore
  rw [route_outside houtside]

/-- An access to unconfigured addresses changes nothing, whatever it claims. -/
theorem execute_outside {x : Access} (hx : x.Outside c) : (execute o c st x).1 = st := by
  obtain ⟨addr, width, action⟩ := x
  have hpos := width.natural.pos
  have hstart : c.size ≤ addr % 2 ^ 32 := hx 0 hpos
  cases action with
  | load align => rfl
  | store align value =>
    show ite _ _ _ = st
    split
    · exact heapStore_outside hstart value
    · rename_i hparts
      obtain ⟨hp, hpw⟩ := natural_part width (Nat.lt_of_not_le hparts)
      refine List.foldlRecOn (motive := fun st' => st' = st) _ _ rfl fun st' hst' q hq => ?_
      have hqw := (mem_parts hpw hq).2
      have hq' : c.size ≤ partAddr addr q % 2 ^ 32 := by
        unfold partAddr
        rw [Nat.mod_mod_of_dvd _ (show 2 ^ 32 ∣ 2 ^ 64 by decide)]
        exact hx q (Nat.lt_of_lt_of_le (Nat.lt_add_of_pos_right hp.pos) hqw)
      rw [heapStore_outside hq', hst']
  | atomic kind operand =>
    simp only [execute, heapAtomic, route_outside hstart]
  | compareExchange expected replacement =>
    simp only [execute, heapCompareExchange, route_outside hstart]

end

/-- Fixed memory behaves as flat memory on every sequence of accesses that fit, and an access that
touches no configured address changes no region. -/
theorem fixed_memory_refines_flat (o : Order) (c : Config) (st : Storage) :
    (∀ xs : List Access, (∀ x ∈ xs, x.Fits c) →
      (executeAll o c st xs).2 = (flatExecuteAll o (c.flat st) xs).2 ∧
        c.flat (executeAll o c st xs).1 = (flatExecuteAll o (c.flat st) xs).1) ∧
      ∀ x : Access, x.Outside c → (execute o c st x).1 = st :=
  ⟨fun _ hxs => (executeAll_refines o st hxs).symm, fun _ hx => execute_outside hx⟩

/-- An unaligned word across the end of the only direct region, stored and loaded again, and a store
behind the ARRAY's single value. -/
theorem fixed_memory_refines_flat_sample :
    let c : Config := ⟨1, 1, by decide, by decide⟩
    let st : Storage := fun _ _ => 0
    (executeAll .little c st [⟨span - 2, .i32, .store 1 0x11223344⟩, ⟨span - 2, .i32, .load 1⟩]).2
        = [0x11223344] ∧
      (execute .little c st ⟨2 * span, .i64, .store 3 1⟩).1 = st := by
  intro c st
  obtain ⟨hrun, houtside⟩ := fixed_memory_refines_flat .little c st
  constructor
  · rw [(hrun _ ?_).1]
    · decide
    · intro x hx
      rcases List.mem_cons.mp hx with rfl | hx
      · exact ⟨by decide, by decide⟩
      · rw [List.mem_singleton.mp hx]
        exact ⟨by decide, by decide⟩
  · exact houtside _ (by unfold Access.Outside; decide)

end BpfCapsule.FixedMemory

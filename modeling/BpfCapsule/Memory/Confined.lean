import BpfCapsule.Memory.Flat

/-!
# No access leaves the maps

The verifier admits an accessor because its mask keeps the offset inside the region, whatever the
address is. So nothing has to be assumed of a program: an address may lie outside of the configured
memory, an access may be cut by the end of a region, and the alignment it claims may be wrong.
`execute_confined` says this of one access, part by part, and `accesses_confined` of a sequence.
-/

namespace BpfCapsule.FixedMemory

open Bytes

/-- A byte that the maps of the object have. -/
def Config.Backed (c : Config) (base : Base) (offset : Nat) : Prop :=
  (∃ r < c.directRegions + c.arrayEntries, base = c.base r) ∧ offset < span

/-- Two storages with the same bytes in the maps. -/
def Config.Same (c : Config) (st st' : Storage) : Prop :=
  ∀ base offset, c.Backed base offset → st base offset = st' base offset

/-- Storages that differ in the maps only. -/
def Config.Apart (c : Config) (st st' : Storage) : Prop :=
  ∀ base offset, ¬ c.Backed base offset → st base offset = st' base offset

variable {o : Order} {c : Config} {st st' : Storage} {addr w : Nat}

/-- The bytes of an access, whatever its address. -/
theorem backed_of_route {base : Base} (h : c.route addr = some base) (hw : Natural w) {i : Nat}
    (hi : i < w) : c.Backed base (low w addr + i) := by
  rw [route_eq] at h
  split at h
  · rename_i hlt
    cases h
    have hlow := low_add_le addr hw
    exact ⟨⟨_, hlt, rfl⟩, by omega⟩
  · cases h

theorem load_same {base : Base} (h : c.route addr = some base) (hw : Natural w)
    (hsame : c.Same st st') : load o (st base) (low w addr) w = load o (st' base) (low w addr) w :=
  load_congr fun _ hi => hsame _ _ (backed_of_route h hw hi)

theorem put_same (base : Base) (hsame : c.Same st st') (value : Nat) :
    c.Same (put o st base w addr value) (put o st' base w addr value) := by
  intro b x hx
  unfold put
  rw [Function.update_apply, Function.update_apply]
  split
  · rename_i heq
    subst heq
    rw [store_apply, store_apply, hsame b x hx]
  · exact hsame b x hx

theorem put_apart {base : Base} (h : c.route addr = some base) (hw : Natural w) (value : Nat) :
    c.Apart (put o st base w addr value) st := by
  intro b x hx
  unfold put
  rw [Function.update_apply]
  split
  · rename_i heq
    subst heq
    rw [store_apply, if_neg]
    intro ⟨hle, hlt⟩
    apply hx
    have hbyte := backed_of_route h hw (show x - low w addr < w by omega)
    rwa [Nat.add_sub_cancel' hle] at hbyte
  · rfl

/-- An action that reads and writes bytes of the maps only. -/
structure Config.Confined (c : Config) (f : Storage → Storage × List Nat) : Prop where
  apart : ∀ st, c.Apart (f st).1 st
  same : ∀ st st', c.Same st st' → c.Same (f st).1 (f st').1 ∧ (f st).2 = (f st').2

theorem heapLoad_same (hw : Natural w) (hsame : c.Same st st') :
    heapLoad o c st w addr = heapLoad o c st' w addr := by
  unfold heapLoad
  split
  · rename_i base h
    exact load_same h hw hsame
  · rfl

theorem heapStore_confined (hw : Natural w) (value : Nat) :
    c.Confined fun st => (heapStore o c st w addr value, []) := by
  unfold heapStore
  constructor
  · intro st
    split
    · rename_i base h
      exact put_apart h hw _
    · exact fun _ _ _ => rfl
  · intro st st' hsame
    refine ⟨?_, rfl⟩
    split
    · exact put_same _ hsame _
    · exact hsame

theorem heapAtomic_confined (hw : Natural w) (kind : AtomicKind) (operand : Nat) :
    c.Confined fun st =>
      ((heapAtomic o c kind st w addr operand).1, [(heapAtomic o c kind st w addr operand).2]) := by
  unfold heapAtomic
  constructor
  · intro st
    split
    · rename_i base h
      exact put_apart h hw _
    · exact fun _ _ _ => rfl
  · intro st st' hsame
    split
    · rename_i base h
      simp only [load_same h hw hsame, and_true]
      exact put_same _ hsame _
    · exact ⟨hsame, rfl⟩

/-- Parts are stored one after the other. -/
theorem foldl_confined {parts : List Nat} {f : Storage → Nat → Storage}
    (hf : ∀ q, c.Confined fun st => (f st q, [])) : c.Confined fun st => (parts.foldl f st, []) := by
  induction parts with
  | nil => exact ⟨fun _ _ _ _ => rfl, fun _ _ hsame => ⟨hsame, rfl⟩⟩
  | cons q parts ih =>
    constructor
    · intro st base x hx
      exact (ih.apart (f st q) base x hx).trans ((hf q).apart st base x hx)
    · intro st st' hsame
      exact ih.same _ _ ((hf q).same st st' hsame).1

/-- No access, whatever its address, touches or shows a byte outside the memory. -/
theorem execute_confined (o : Order) (c : Config) (x : Access) : c.Confined (execute o c · x) := by
  obtain ⟨addr, width, action⟩ := x
  have hw := width.natural
  cases action with
  | load align =>
    refine ⟨fun _ _ _ _ => rfl, fun st st' hsame => ⟨hsame, ?_⟩⟩
    show [ite _ _ _] = [ite _ _ _]
    split
    · rw [heapLoad_same hw hsame]
    · rename_i hparts
      have hp := (natural_part width (Nat.lt_of_not_le hparts)).1
      simp only [heapLoad_same hp hsame]
  | store align value =>
    show c.Confined fun st => (ite _ _ _, [])
    by_cases hwhole : width.bytes ≤ 2 ^ align
    · simp only [hwhole, if_true]
      exact heapStore_confined hw value
    · have hp := (natural_part width (Nat.lt_of_not_le hwhole)).1
      simp only [hwhole, if_false]
      exact foldl_confined fun q => heapStore_confined hp _
  | atomic kind operand => exact heapAtomic_confined hw kind operand
  | compareExchange expected replacement =>
    simp only [execute, heapCompareExchange]
    cases h : c.route addr with
    | none => exact ⟨fun _ _ _ _ => rfl, fun _ _ hsame => ⟨hsame, rfl⟩⟩
    | some base =>
      constructor
      · intro st
        dsimp only
        split
        · exact put_apart h hw _
        · exact fun _ _ _ => rfl
      · intro st st' hsame
        simp only [load_same h hw hsame, and_true]
        split
        · exact put_same _ hsame _
        · exact hsame

/-- **No access leaves the maps.** Whatever addresses a sequence of accesses uses and whatever
alignments it claims, it changes no byte outside the regions and the values of the ARRAY, and what it
reads depends on no such byte. -/
theorem accesses_confined (o : Order) (c : Config) (xs : List Access) (st : Storage) :
    (∀ base offset, ¬ c.Backed base offset → (executeAll o c st xs).1 base offset = st base offset) ∧
    ∀ st', c.Same st st' → (executeAll o c st xs).2 = (executeAll o c st' xs).2 ∧
      c.Same (executeAll o c st xs).1 (executeAll o c st' xs).1 := by
  induction xs generalizing st with
  | nil => exact ⟨fun _ _ _ => rfl, fun _ hsame => ⟨rfl, hsame⟩⟩
  | cons x xs ih =>
    have hx := execute_confined o c x
    obtain ⟨hapart, hsame⟩ := ih (execute o c st x).1
    refine ⟨fun base offset hout => (hapart base offset hout).trans (hx.apart st base offset hout), ?_⟩
    intro st' hst
    obtain ⟨hfirst, hseen⟩ := hx.same st st' hst
    obtain ⟨hrest, hlast⟩ := hsame _ hfirst
    refine ⟨?_, hlast⟩
    show (execute o c st x).2 ++ _ = (execute o c st' x).2 ++ _
    rw [hseen, hrest]

/-- An address behind the memory, and a word that begins on the last byte of the region. -/
theorem accesses_confined_wild :
    let c : Config := ⟨1, 1, by decide, by decide⟩
    let st : Storage := fun _ _ => 0
    (executeAll .little c st [⟨2 ^ 32 - 1, .i64, .store 3 5⟩, ⟨span - 1, .i64, .store 3 5⟩]).1
      (.region 0) span = 0 :=
  (accesses_confined _ _ _ _).1 _ _ fun h => absurd h.2 (by decide)

end BpfCapsule.FixedMemory

import LibcOverride.Lib.ProbeTable
import Mathlib.Data.Nat.Bitwise

/-!
# The allocation registry (src/mock_allocator.c:176-278)

The registry is a fixed array of 65536 entries searched by linear probing from
`(key >> 4) & 65535`. The key 0 marks a slot that was never used and the key 1
a slot whose block was released. The three loops are those of the source; the
C results 0 and 1 are `Bool`, and an optional result carries what the source
stores through its two out parameters.
-/

namespace LibcOverride.MockAllocator
open ProbeTable

abbrev aoRegistryCapacity : ℕ := 65536
abbrev aoRegistryEmpty : ℕ := 0
abbrev aoRegistryTombstone : ℕ := 1

structure AoRegistryEntry where
  key : ℕ
  requestedSize : ℕ
  allocationId : ℕ
  deriving Repr, DecidableEq

/-- `g_registry`; only the indices below the capacity are ever used. -/
abbrev Registry := ℕ → AoRegistryEntry

/-- The static array as the loader leaves it: all bytes zero. -/
def emptyRegistry : Registry := fun _ => ⟨aoRegistryEmpty, 0, 0⟩

def aoRegistryIndexFor (key : ℕ) : ℕ := (key >>> 4) &&& (aoRegistryCapacity - 1)

/-- `(index + i) & (AO_REGISTRY_CAPACITY - 1u)`. -/
def probe (index i : ℕ) : ℕ := (index + i) &&& (aoRegistryCapacity - 1)

/-- The loop of `ao_registry_insert_locked` with `n` rounds left; the capacity
stands for "no tombstone seen yet", as in the source. -/
def insertLoop (t : Registry) (key size id index : ℕ) : ℕ → ℕ → ℕ → Bool × Registry
  | 0, _, firstTombstone =>
    if firstTombstone ≠ aoRegistryCapacity then
      (true, Function.update t firstTombstone ⟨key, size, id⟩)
    else (false, t)
  | n + 1, i, firstTombstone =>
    if (t (probe index i)).key = key then
      (true, Function.update t (probe index i)
        { t (probe index i) with requestedSize := size, allocationId := id })
    else if (t (probe index i)).key = aoRegistryTombstone ∧
        firstTombstone = aoRegistryCapacity then
      insertLoop t key size id index n (i + 1) (probe index i)
    else if (t (probe index i)).key = aoRegistryEmpty then
      (true, Function.update t
        (if firstTombstone = aoRegistryCapacity then probe index i else firstTombstone)
        ⟨key, size, id⟩)
    else insertLoop t key size id index n (i + 1) firstTombstone

def aoRegistryInsertLocked (t : Registry) (ptr : ℕ) (requestedSize allocationId : ℕ) :
    Bool × Registry :=
  insertLoop t ptr requestedSize allocationId (aoRegistryIndexFor ptr)
    aoRegistryCapacity 0 aoRegistryCapacity

def lookupLoop (t : Registry) (key index : ℕ) : ℕ → ℕ → Option (ℕ × ℕ)
  | 0, _ => none
  | n + 1, i =>
    if (t (probe index i)).key = aoRegistryEmpty then none
    else if (t (probe index i)).key = key then
      some ((t (probe index i)).requestedSize, (t (probe index i)).allocationId)
    else lookupLoop t key index n (i + 1)

def aoRegistryLookupLocked (t : Registry) (ptr : ℕ) : Option (ℕ × ℕ) :=
  lookupLoop t ptr (aoRegistryIndexFor ptr) aoRegistryCapacity 0

def removeLoop (t : Registry) (key index : ℕ) : ℕ → ℕ → Option (ℕ × ℕ) × Registry
  | 0, _ => (none, t)
  | n + 1, i =>
    if (t (probe index i)).key = aoRegistryEmpty then (none, t)
    else if (t (probe index i)).key = key then
      (some ((t (probe index i)).requestedSize, (t (probe index i)).allocationId),
        Function.update t (probe index i) ⟨aoRegistryTombstone, 0, 0⟩)
    else removeLoop t key index n (i + 1)

def aoRegistryRemoveLocked (t : Registry) (ptr : ℕ) : Option (ℕ × ℕ) × Registry :=
  removeLoop t ptr (aoRegistryIndexFor ptr) aoRegistryCapacity 0

/-- `ao_registry_contains`: a lookup whose out parameters are both NULL. -/
def aoRegistryContains (t : Registry) (ptr : ℕ) : Bool := (aoRegistryLookupLocked t ptr).isSome

/-! ### The array as a table of the library -/

theorem probe_eq (index i : ℕ) : probe index i = (index + i) % 65536 :=
  Nat.and_two_pow_sub_one_eq_mod (index + i) 16

theorem probe_lt (index i : ℕ) : probe index i < aoRegistryCapacity := by
  rw [probe_eq]
  exact Nat.mod_lt _ (by decide)

def slotOf (index i : ℕ) : Fin aoRegistryCapacity := ⟨probe index i, probe_lt index i⟩

/-- Linear probing from the home slot visits the whole array. -/
def walk : Walk ℕ (Fin aoRegistryCapacity) aoRegistryCapacity where
  slot key i := slotOf (aoRegistryIndexFor key) i
  visits := by
    intro key j
    have hj : j.val < 65536 := j.isLt
    refine ⟨(j.val + 65536 - aoRegistryIndexFor key % 65536) % 65536, Nat.mod_lt _ (by decide), ?_⟩
    apply Fin.ext
    simp only [slotOf, probe_eq]
    omega

def decode (e : AoRegistryEntry) : Slot ℕ (ℕ × ℕ) :=
  if e.key = aoRegistryEmpty then .empty
  else if e.key = aoRegistryTombstone then .removed
  else .live e.key (e.requestedSize, e.allocationId)

def view (t : Registry) : Table ℕ (ℕ × ℕ) (Fin aoRegistryCapacity) := fun j => decode (t j)

theorem view_update (t : Registry) (j : Fin aoRegistryCapacity) (e : AoRegistryEntry) :
    view (Function.update t j e) = Function.update (view t) j (decode e) := by
  funext a
  by_cases ha : a = j
  · rw [ha]
    simp only [view, Function.update_self]
  · have hv : a.val ≠ j.val := fun h => ha (Fin.ext h)
    simp only [view, Function.update_of_ne ha, Function.update_of_ne hv]

theorem view_slot (t : Registry) (key i : ℕ) :
    view t (walk.slot key i) = decode (t (probe (aoRegistryIndexFor key) i)) := rfl

theorem decode_live (key size id : ℕ) (hk : 2 ≤ key) :
    decode ⟨key, size, id⟩ = .live key (size, id) := by
  have h0 : key ≠ 0 := by omega
  have h1 : key ≠ 1 := by omega
  simp only [decode, h0, h1, ite_false]

theorem decode_tombstone : decode ⟨aoRegistryTombstone, 0, 0⟩ = .removed := rfl

theorem view_emptyRegistry : view emptyRegistry = fun _ => .empty := rfl

theorem lookupLoop_eq (t : Registry) (key : ℕ) (hk : 2 ≤ key) (n i : ℕ) :
    lookupLoop t key (aoRegistryIndexFor key) n i =
      (findFrom walk (view t) key n i).map Prod.snd := by
  induction n generalizing i with
  | zero => rfl
  | succ n ih =>
    simp only [lookupLoop, findFrom, view_slot, decode]
    by_cases h0 : (t (probe (aoRegistryIndexFor key) i)).key = 0
    · simp only [h0, ite_true, Option.map_none]
    · by_cases h1 : (t (probe (aoRegistryIndexFor key) i)).key = 1
      · have hne : ¬ 1 = key := by omega
        simp only [h1, one_ne_zero, hne, ite_true, ite_false, ih]
      · by_cases hkey : (t (probe (aoRegistryIndexFor key) i)).key = key
        · have hk0 : key ≠ 0 := by omega
          have hk1 : key ≠ 1 := by omega
          simp only [hkey, hk0, hk1, ite_true, ite_false, Option.map_some]
        · simp only [h0, h1, hkey, ite_false, ih]

theorem removeLoop_eq (t : Registry) (key : ℕ) (hk : 2 ≤ key) (n i : ℕ) :
    removeLoop t key (aoRegistryIndexFor key) n i =
      match findFrom walk (view t) key n i with
      | none => (none, t)
      | some (j, v) => (some v, Function.update t j ⟨aoRegistryTombstone, 0, 0⟩) := by
  induction n generalizing i with
  | zero => rfl
  | succ n ih =>
    simp only [removeLoop, findFrom, view_slot, decode]
    by_cases h0 : (t (probe (aoRegistryIndexFor key) i)).key = 0
    · simp only [h0, ite_true]
    · by_cases h1 : (t (probe (aoRegistryIndexFor key) i)).key = 1
      · have hne : ¬ 1 = key := by omega
        simp only [h1, one_ne_zero, hne, ite_true, ite_false, ih]
      · by_cases hkey : (t (probe (aoRegistryIndexFor key) i)).key = key
        · have hk0 : key ≠ 0 := by omega
          have hk1 : key ≠ 1 := by omega
          simp only [hkey, hk0, hk1, ite_true, ite_false]
          rfl
        · simp only [h0, h1, hkey, ite_false, ih]

/-- The `first_tombstone` variable read as an optional slot. -/
def markOf (firstTombstone : ℕ) : Option (Fin aoRegistryCapacity) :=
  if h : firstTombstone < aoRegistryCapacity then some ⟨firstTombstone, h⟩ else none

theorem markOf_capacity : markOf aoRegistryCapacity = none := rfl

theorem markOf_probe (index i : ℕ) : markOf (probe index i) = some (slotOf index i) :=
  dif_pos (probe_lt index i)

theorem markOf_getD (firstTombstone index i : ℕ) (hf : firstTombstone ≤ aoRegistryCapacity) :
    ((markOf firstTombstone).getD (slotOf index i)).val =
      if firstTombstone = aoRegistryCapacity then probe index i else firstTombstone := by
  by_cases h : firstTombstone = aoRegistryCapacity
  · subst h
    rfl
  · have hlt : firstTombstone < aoRegistryCapacity := by omega
    simp only [markOf, hlt, dif_pos, Option.getD_some, h, ite_false]

theorem insertLoop_eq (t : Registry) (key size id : ℕ) (hk : 2 ≤ key) (n i first : ℕ)
    (hf : first ≤ aoRegistryCapacity) :
    insertLoop t key size id (aoRegistryIndexFor key) n i first =
      match targetFrom walk (view t) key n i (markOf first) with
      | none => (false, t)
      | some j => (true, Function.update t j ⟨key, size, id⟩) := by
  have hk0 : key ≠ 0 := by omega
  have hk1 : key ≠ 1 := by omega
  induction n generalizing i first with
  | zero =>
    simp only [insertLoop, targetFrom]
    by_cases h : first = aoRegistryCapacity
    · subst h
      rfl
    · have hlt : first < aoRegistryCapacity := by omega
      simp only [markOf, hlt, dif_pos, ne_eq, h, not_false_eq_true, ite_true]
  | succ n ih =>
    simp only [insertLoop, targetFrom, view_slot, decode]
    by_cases hkey : (t (probe (aoRegistryIndexFor key) i)).key = key
    · -- the entry is rewritten in place: its key field already is `key`
      simp only [hkey, hk0, hk1, ite_true, ite_false]
      rfl
    · by_cases h1 : (t (probe (aoRegistryIndexFor key) i)).key = 1
      · simp only [h1, one_ne_zero, Ne.symm hk1, true_and, ite_true, ite_false]
        by_cases hc : first = aoRegistryCapacity
        · subst hc
          rw [markOf_capacity]
          simp only [ite_true, Option.getD_none]
          rw [ih (i + 1) _ (probe_lt _ _).le, markOf_probe]
          rfl
        · have hlt : first < aoRegistryCapacity := by omega
          have hm : markOf first = some ⟨first, hlt⟩ := dif_pos hlt
          rw [if_neg hc, ih (i + 1) first hf, hm]
          rfl
      · by_cases h0 : (t (probe (aoRegistryIndexFor key) i)).key = 0
        · simp only [h0, Ne.symm hk0, zero_ne_one, false_and, ite_true, ite_false]
          rw [← markOf_getD first (aoRegistryIndexFor key) i hf]
          rfl
        · simp only [hkey, h0, h1, false_and, ite_false, ih (i + 1) first hf]

end LibcOverride.MockAllocator

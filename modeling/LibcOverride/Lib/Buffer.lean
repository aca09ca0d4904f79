import Mathlib.Data.List.Basic
import Mathlib.Tactic.Common

/-!
# Checked buffers

A C array is the list of its elements. An access outside it is `none`.
-/

namespace LibcOverride.Buffer

variable {α : Type}

def put (b : List α) (i : ℕ) (v : α) : Option (List α) :=
  if i < b.length then some (b.set i v) else none

/-- The `n` elements from index `i` on. -/
def slice (b : List α) (i n : ℕ) : Option (List α) :=
  if i + n ≤ b.length then some ((b.drop i).take n) else none

/-- Stores all of `v` from index `i` on. -/
def blit (b : List α) (i : ℕ) (v : List α) : Option (List α) :=
  if i + v.length ≤ b.length then some (b.take i ++ (v ++ b.drop (i + v.length))) else none

/-- `b` after a store of `v` that fits. -/
def overwritten (b : List α) (i : ℕ) (v : List α) : List α := b.take i ++ (v ++ b.drop (i + v.length))

/-- Unsigned subtraction that must not wrap. -/
def minus (a b : ℕ) : Option ℕ := if b ≤ a then some (a - b) else none

theorem get_append {b x y : List α} {v : α} {i : ℕ} (hb : b = x ++ v :: y) (hi : i = x.length) :
    b[i]? = some v := by
  subst hb hi
  simp

theorem put_append {b x y : List α} {v : α} {i : ℕ} (w : α) (hb : b = x ++ v :: y)
    (hi : i = x.length) : put b i w = some (x ++ w :: y) := by
  subst hb hi
  simp [put]

theorem slice_append {b x m y : List α} {i n : ℕ} (hb : b = x ++ (m ++ y)) (hi : i = x.length)
    (hn : n = m.length) : slice b i n = some m := by
  subst hb hi hn
  simp [slice]

theorem blit_append {b x m y v : List α} {i : ℕ} (hb : b = x ++ (m ++ y)) (hi : i = x.length)
    (hv : v.length = m.length) : blit b i v = some (x ++ (v ++ y)) := by
  subst hb hi
  simp only [blit, hv, List.length_append, ← Nat.add_assoc, Nat.le_add_right, ite_true,
    List.take_left]
  rw [← List.append_assoc x m y, ← List.length_append, List.drop_left]

theorem blit_eq {b v : List α} {i : ℕ} (h : i + v.length ≤ b.length) :
    blit b i v = some (overwritten b i v) := if_pos h

theorem length_overwritten {b v : List α} {i : ℕ} (h : i + v.length ≤ b.length) :
    (overwritten b i v).length = b.length := by
  simp only [overwritten, List.length_append, List.length_take, List.length_drop]
  omega

theorem getElem?_overwritten {b v : List α} {i : ℕ} (h : i + v.length ≤ b.length) (j : ℕ) :
    (overwritten b i v)[j]? = if i ≤ j ∧ j < i + v.length then v[j - i]? else b[j]? := by
  have ht : (b.take i).length = i := List.length_take_of_le (by omega)
  simp only [overwritten, List.getElem?_append, ht, List.getElem?_drop, List.getElem?_take]
  split
  · rw [if_neg (by omega)]
  · split
    · rw [if_pos (by omega)]
    · rw [if_neg (by omega)]
      congr 1
      omega

theorem overwritten_nil (b : List α) (i : ℕ) : overwritten b i [] = b := by
  simp [overwritten]

theorem minus_of_le {a b : ℕ} (h : b ≤ a) : minus a b = some (a - b) := if_pos h

theorem exists_split {y : List α} {n : ℕ} (h : n ≤ y.length) :
    ∃ m z, y = m ++ z ∧ m.length = n :=
  ⟨y.take n, y.drop n, (List.take_append_drop n y).symm, List.length_take_of_le h⟩

theorem exists_split_last {y : List α} {n : ℕ} (h : n ≤ y.length) :
    ∃ z m, y = z ++ m ∧ m.length = n := by
  refine ⟨y.take (y.length - n), y.drop (y.length - n), (List.take_append_drop _ y).symm, ?_⟩
  rw [List.length_drop]
  omega

end LibcOverride.Buffer

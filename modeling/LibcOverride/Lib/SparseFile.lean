import Mathlib.Data.List.Basic
import Mathlib.Tactic.Common

/-!
# Sparse files

A file as its elements, a position, a length and the size it last made known.
An element that was never written is zero.
-/

namespace LibcOverride

structure SparseFile (α : Type) where
  cell : ℕ → α
  pos : ℕ
  length : ℕ
  size : ℕ

namespace SparseFile

variable {α : Type}

def empty [Zero α] : SparseFile α := ⟨fun _ => 0, 0, 0, 0⟩

/-- `v` is stored from index `i` on. -/
def patched (cell : ℕ → α) (i : ℕ) (v : List α) : ℕ → α :=
  fun j => if i ≤ j then v[j - i]?.getD (cell j) else cell j

def write (f : SparseFile α) (v : List α) : SparseFile α where
  cell := patched f.cell f.pos v
  pos := f.pos + v.length
  length := max f.length (f.pos + v.length)
  size := f.pos + v.length

def seek (f : SparseFile α) (p : ℕ) : SparseFile α := { f with pos := p }

theorem patched_at (cell : ℕ → α) (i : ℕ) {v : List α} {k : ℕ} (hk : k < v.length) :
    patched cell i v (i + k) = v[k] := by
  simp [patched, hk]

theorem patched_outside (cell : ℕ → α) {i j : ℕ} {v : List α} (hj : j < i ∨ i + v.length ≤ j) :
    patched cell i v j = cell j := by
  unfold patched
  split
  · have hout : v.length ≤ j - i := by omega
    rw [List.getElem?_eq_none hout]
    rfl
  · rfl

/-- Nothing is written at or above the length. -/
def Tidy [Zero α] (f : SparseFile α) : Prop := ∀ i, f.length ≤ i → f.cell i = 0

theorem tidy_empty [Zero α] : (empty : SparseFile α).Tidy := fun _ _ => rfl

theorem tidy_write [Zero α] {f : SparseFile α} (hf : f.Tidy) (v : List α) : (f.write v).Tidy := by
  intro i hi
  have hi' : f.length ≤ i ∧ f.pos + v.length ≤ i := Nat.max_le.mp hi
  have ho : (f.write v).cell i = f.cell i := patched_outside f.cell (Or.inr hi'.2)
  rw [ho]
  exact hf i hi'.1

end SparseFile

end LibcOverride

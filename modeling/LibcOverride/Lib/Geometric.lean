import Mathlib.Algebra.BigOperators.Group.List.Basic
import Mathlib.Tactic.Ring

/-!
# Geometric growth

A size that grows by at least the factor `(q + r) / q` each time: all that it grew
through adds up to a multiple of the last size, and the times are few.
-/

namespace LibcOverride.Geometric

/-- From `c` through the sizes in the list to the last one. -/
inductive Grows (q r : ℕ) : ℕ → List ℕ → ℕ → Prop
  | stay {c : ℕ} : Grows q r c [] c
  | grow {c d e : ℕ} {ds : List ℕ} (h : (q + r) * c ≤ q * d) (hs : Grows q r d ds e) :
      Grows q r c (d :: ds) e

variable {q r c d e : ℕ} {ds es : List ℕ}

theorem Grows.one (h : (q + r) * c ≤ q * d) : Grows q r c [d] d := .grow h .stay

theorem Grows.append (h : Grows q r c ds d) (h' : Grows q r d es e) :
    Grows q r c (ds ++ es) e := by
  induction h with
  | stay => exact h'
  | grow hd hs ih => exact .grow hd (ih h')

theorem Grows.sum (h : Grows q r c ds e) : r * ds.sum + (q + r) * c ≤ (q + r) * e := by
  induction h with
  | stay => simp
  | @grow c d e ds hd hs ih =>
    calc
      r * (d :: ds).sum + (q + r) * c ≤ r * (d :: ds).sum + q * d := by omega
      _ = r * ds.sum + (q + r) * d := by
        rw [List.sum_cons]
        ring
      _ ≤ (q + r) * e := ih

theorem Grows.pow (h : Grows q r c ds e) : (q + r) ^ ds.length * c ≤ q ^ ds.length * e := by
  induction h with
  | stay => simp
  | @grow c d e ds hd hs ih =>
    calc
      (q + r) ^ (ds.length + 1) * c = (q + r) ^ ds.length * ((q + r) * c) := by ring
      _ ≤ (q + r) ^ ds.length * (q * d) := Nat.mul_le_mul_left _ hd
      _ = q * ((q + r) ^ ds.length * d) := by ring
      _ ≤ q * (q ^ ds.length * e) := Nat.mul_le_mul_left _ ih
      _ = q ^ (ds.length + 1) * e := by ring

end LibcOverride.Geometric

import Mathlib.Data.List.Basic
import Mathlib.Tactic.Common

/-!
# Spans carved from below

Spans of an address range that are taken one after the other, each from where
the last one ends or later.
-/

namespace LibcOverride

structure Span where
  start : ℕ
  len : ℕ
  deriving Repr, DecidableEq

namespace Span

def top (s : Span) : ℕ := s.start + s.len

/-- No address belongs to both. -/
def Apart (s t : Span) : Prop := s.top ≤ t.start ∨ t.top ≤ s.start

/-- In ascending order and below `bound`. -/
structure Packed (spans : List Span) (bound : ℕ) : Prop where
  ascending : spans.Pairwise fun s t => s.top ≤ t.start
  below : ∀ s ∈ spans, s.top ≤ bound

theorem packed_nil (bound : ℕ) : Packed [] bound := ⟨List.Pairwise.nil, by simp⟩

theorem Packed.push {spans : List Span} {bound : ℕ} (h : Packed spans bound) {s : Span}
    {bound' : ℕ} (hs : bound ≤ s.start) (hb : s.top ≤ bound') : Packed (spans ++ [s]) bound' := by
  refine ⟨List.pairwise_append.mpr ⟨h.ascending, List.pairwise_singleton _ _, ?_⟩, ?_⟩
  · intro t ht u hu
    rw [List.mem_singleton.mp hu]
    exact Nat.le_trans (h.below t ht) hs
  · intro t ht
    rcases List.mem_append.mp ht with ht | ht
    · have hle := h.below t ht
      have hstart : s.start ≤ s.top := Nat.le_add_right _ _
      omega
    · rw [List.mem_singleton.mp ht]
      exact hb

theorem Packed.apart {spans : List Span} {bound : ℕ} (h : Packed spans bound) {i j : ℕ}
    {s t : Span} (hi : spans[i]? = some s) (hj : spans[j]? = some t) (hne : i ≠ j) : s.Apart t := by
  obtain ⟨hi', rfl⟩ := List.getElem?_eq_some_iff.mp hi
  obtain ⟨hj', rfl⟩ := List.getElem?_eq_some_iff.mp hj
  have hord := List.pairwise_iff_getElem.mp h.ascending
  rcases Nat.lt_or_gt_of_ne hne with hlt | hlt
  · exact Or.inl (hord i j hi' hj' hlt)
  · exact Or.inr (hord j i hj' hi' hlt)

theorem Packed.eq_or_apart {spans : List Span} {bound : ℕ} (h : Packed spans bound) {s t : Span}
    (hs : s ∈ spans) (ht : t ∈ spans) : s = t ∨ s.Apart t := by
  obtain ⟨i, hi⟩ := List.getElem?_of_mem hs
  obtain ⟨j, hj⟩ := List.getElem?_of_mem ht
  by_cases hne : i = j
  · left
    subst hne
    exact Option.some.inj (hi.symm.trans hj)
  · right
    exact h.apart hi hj hne

/-! ### What a change of memory leaves alone -/

variable {α : Type} {m m' : ℕ → α}

/-- `m'` differs from `m` inside `s` at most. -/
def Confines (s : Span) (m m' : ℕ → α) : Prop := ∀ i, i < s.start ∨ s.top ≤ i → m' i = m i

/-- `m'` is `m` all over `s`. -/
def Keeps (s : Span) (m m' : ℕ → α) : Prop := ∀ i, s.start ≤ i → i < s.top → m' i = m i

theorem Confines.keeps {s t : Span} (h : s.Confines m m') (ha : s.Apart t) : t.Keeps m m' := by
  intro i hlow hhigh
  apply h
  unfold Apart at ha
  omega

theorem Confines.trans {m'' : ℕ → α} {s : Span} (h : s.Confines m m') (h' : s.Confines m' m'') :
    s.Confines m m'' := by
  intro i hi
  rw [h' i hi, h i hi]

theorem Confines.mono {s t : Span} (h : s.Confines m m') (hstart : t.start ≤ s.start)
    (htop : s.top ≤ t.top) : t.Confines m m' := by
  intro i hi
  apply h
  omega

end Span

end LibcOverride

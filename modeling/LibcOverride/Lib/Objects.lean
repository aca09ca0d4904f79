import LibcOverride.Lib.Buffer
import Mathlib.Data.List.Induction

/-!
# Separate objects

Objects that are made once, with contents that the maker chooses, and then only
change where someone writes to them. How an object may start out depends on the
others and on what it is made for.
-/

namespace LibcOverride.Objects
open Buffer

variable {K U α : Type}

/-- What is in each object that there is. -/
abbrev Store (K α : Type) := K → Option (List α)

inductive Event (K U α : Type) where
  | silent
  | made (k : K) (use : U) (contents : List α)
  | wrote (k : K) (i : ℕ) (v : List α)
  deriving Repr, DecidableEq

variable [DecidableEq K] {init : Store K α → K → U → List α → Prop} {o o' o'' : Store K α}
  {e : Event K U α} {es es' : List (Event K U α)} {k : K} {c : List α}

inductive Step (init : Store K α → K → U → List α → Prop) (o : Store K α) :
    Event K U α → Store K α → Prop
  | silent : Step init o .silent o
  | made {k : K} {use : U} {c : List α} (hnew : o k = none) (hinit : init o k use c) :
      Step init o (.made k use c) (Function.update o k (some c))
  | wrote {k : K} {i : ℕ} {v c : List α} (hk : o k = some c) (hi : i + v.length ≤ c.length) :
      Step init o (.wrote k i v) (Function.update o k (some (overwritten c i v)))

inductive Run (init : Store K α → K → U → List α → Prop) (o : Store K α) :
    List (Event K U α) → Store K α → Prop
  | nil : Run init o [] o
  | snoc {o' o'' : Store K α} {es : List (Event K U α)} {e : Event K U α}
      (h : Run init o es o') (hs : Step init o' e o'') : Run init o (es ++ [e]) o''

/-- What an event writes to `k`. -/
def Event.writeTo (k : K) : Event K U α → Option (ℕ × List α)
  | .wrote l i v => if l = k then some (i, v) else none
  | _ => none

/-- The contents after writes, one after the other. -/
def written (c : List α) (ws : List (ℕ × List α)) : List α :=
  ws.foldl (fun c w => overwritten c w.1 w.2) c

theorem step_kept (h : Step init o e o') (hk : o k = some c) :
    o' k = some (written c (e.writeTo k).toList) := by
  cases h with
  | silent => exact hk
  | @made l use c' hnew hinit =>
    have hne : k ≠ l := by
      rintro rfl
      rw [hk] at hnew
      cases hnew
    rw [Function.update_of_ne hne]
    exact hk
  | @wrote l i v c' hl hi =>
    by_cases hkl : l = k
    · subst hkl
      obtain rfl := Option.some.inj (hk.symm.trans hl)
      rw [Function.update_self, Event.writeTo, if_pos rfl]
      rfl
    · rw [Function.update_of_ne (Ne.symm hkl), Event.writeTo, if_neg hkl]
      exact hk

/-- An object holds what was written to it last, over what it held before. -/
theorem run_kept (h : Run init o es o') (hk : o k = some c) :
    o' k = some (written c (es.filterMap (Event.writeTo k))) := by
  induction h with
  | nil => exact hk
  | @snoc o' o'' es e h hs ih =>
    rw [step_kept hs ih, List.filterMap_append]
    unfold written
    rw [List.foldl_append]
    cases hw : e.writeTo k with
    | none => rw [List.filterMap_cons_none hw]; rfl
    | some w => rw [List.filterMap_cons_some hw]; rfl

theorem run_last (h : Run init o (es ++ [e]) o'') : ∃ o', Run init o es o' ∧ Step init o' e o'' := by
  generalize hlist : es ++ [e] = all at h
  cases h with
  | nil => simp at hlist
  | @snoc o' _ es₀ e₀ h hs =>
    obtain ⟨rfl, hlast⟩ := List.append_inj' hlist rfl
    obtain rfl := List.singleton_inj.mp hlast
    exact ⟨o', h, hs⟩

theorem run_split (h : Run init o (es ++ es') o'') : ∃ o', Run init o es o' ∧ Run init o' es' o'' := by
  induction es' using List.reverseRecOn generalizing o'' with
  | nil =>
    rw [List.append_nil] at h
    exact ⟨o'', h, .nil⟩
  | append_singleton es' e ih =>
    rw [← List.append_assoc] at h
    obtain ⟨o₁, h₁, hs⟩ := run_last h
    obtain ⟨o', h', hrest⟩ := ih h₁
    exact ⟨o', h', hrest.snoc hs⟩

/-- An object from when it is made. -/
theorem run_made {use : U} (h : Run init o (es ++ .made k use c :: es') o'') :
    ∃ o', Run init o es o' ∧ init o' k use c ∧
      o'' k = some (written c (es'.filterMap (Event.writeTo k))) := by
  rw [List.append_cons] at h
  obtain ⟨o₁, h₁, hrest⟩ := run_split h
  obtain ⟨o', h', hs⟩ := run_last h₁
  cases hs with
  | made hnew hinit => exact ⟨o', h', hinit, run_kept hrest (Function.update_self ..)⟩

end LibcOverride.Objects

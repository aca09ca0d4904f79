import LibcOverride.Lib.Shares
import LibcOverride.MockAllocator.State
import Mathlib.Algebra.Order.BigOperators.Group.Finset

/-!
# Captures begun and ended by threads (src/mock_allocator.c:321-324, 435-447)

`ao_mock_end_capture` reads the depth and then, if it was positive, subtracts one
from what the depth is by then.
-/

namespace LibcOverride.MockAllocator.CaptureThreads
open Shares

/-- `g_capture_depth` is an `int`; the atomic operations on it wrap. -/
def addDepth (s : State) (n : ℤ) : State :=
  { s with captureDepth := Int.bmod (s.captureDepth + n) (2 ^ 32) }

inductive Stage where
  | idle
  | ending (current : ℤ)
  deriving Repr, DecidableEq

/-- `opened t` are the captures that `t` has begun and not ended, `begun` counts
the captures that anybody has begun. -/
structure World (T : Type) where
  shared : State
  pc : T → Stage
  opened : T → ℕ
  begun : ℕ

variable {T : Type} [DecidableEq T]

def World.beginCapture (w : World T) (t : T) : World T :=
  { w with
    shared := addDepth w.shared 1
    opened := Function.update w.opened t (w.opened t + 1)
    begun := w.begun + 1 }

def World.loadDepth (w : World T) (t : T) : World T :=
  { w with pc := Function.update w.pc t (.ending w.shared.captureDepth) }

def World.endCapture (w : World T) (t : T) (current : ℤ) : World T :=
  { w with
    shared := if current > 0 then addDepth w.shared (-1) else w.shared
    pc := Function.update w.pc t .idle
    opened := Function.update w.opened t (w.opened t - 1) }

/-- Any order of the threads' steps with each end meeting `ok`, and with whatever
else they do to the state. -/
inductive Runs (ok : World T → T → Prop) : World T → Prop where
  | start (s : State) (h : s.captureDepth = 0) : Runs ok ⟨s, fun _ => .idle, fun _ => 0, 0⟩
  | begin (w : World T) (t : T) (hw : Runs ok w) (hpc : w.pc t = .idle) :
      Runs ok (w.beginCapture t)
  | load (w : World T) (t : T) (hw : Runs ok w) (hpc : w.pc t = .idle) (hok : ok w t) :
      Runs ok (w.loadDepth t)
  | finish (w : World T) (t : T) (current : ℤ) (hw : Runs ok w)
      (hpc : w.pc t = .ending current) : Runs ok (w.endCapture t current)
  | other (w : World T) (s : State) (hw : Runs ok w)
      (hs : s.captureDepth = w.shared.captureDepth) : Runs ok { w with shared := s }

theorem begin_alone (w : World T) (t : T) :
    (w.beginCapture t).shared = aoMockBeginCapture w.shared := rfl

/-- A thread that nobody interrupts does what `aoMockEndCapture` does. -/
theorem end_alone (w : World T) (t : T) (h : w.shared.captureDepth < 2 ^ 31) :
    ((w.loadDepth t).endCapture t w.shared.captureDepth).shared = aoMockEndCapture w.shared := by
  unfold World.endCapture World.loadDepth aoMockEndCapture addDepth
  dsimp only
  split
  · rename_i hpos
    have hwrap : Int.bmod (w.shared.captureDepth + -1) (2 ^ 32) = w.shared.captureDepth - 1 := by
      rw [Int.bmod_eq_of_le] <;> omega
    rw [hwrap]
  · rfl

/-! ### Ends of one's own captures -/

/-- The thread has a capture to end. -/
def Own (w : World T) (t : T) : Prop := 0 < w.opened t

structure Balanced [Fintype T] (w : World T) : Prop where
  depth : w.shared.captureDepth = ∑ t, (w.opened t : ℤ)
  ending : ∀ t current, w.pc t = .ending current → 0 < current ∧ 0 < w.opened t
  begun : ∑ t, (w.opened t : ℤ) ≤ w.begun

section Balance

variable [Fintype T] {w : World T}

theorem opened_sum (f : T → ℕ) (t : T) (n : ℕ) :
    ∑ u, (Function.update f t n u : ℤ) = ∑ u, (f u : ℤ) + (n - f t) := by
  have hcomp : (fun u => (Function.update f t n u : ℤ)) =
      Function.update (fun u => (f u : ℤ)) t n := by
    funext u
    exact Function.apply_update (fun _ (k : ℕ) => (k : ℤ)) f t n u
  rw [hcomp]
  exact sum_update _ t n

omit [DecidableEq T] in
theorem opened_le (f : T → ℕ) (t : T) : (f t : ℤ) ≤ ∑ u, (f u : ℤ) :=
  Finset.single_le_sum (fun u _ => Int.natCast_nonneg (f u)) (Finset.mem_univ t)

omit [DecidableEq T] in
theorem opened_nonneg (f : T → ℕ) : 0 ≤ ∑ u, (f u : ℤ) :=
  Finset.sum_nonneg fun u _ => Int.natCast_nonneg (f u)

/-- Every end of a capture that is the thread's own takes one off the depth. -/
theorem balanced_run (h : Runs Own w) (hb : w.begun < 2 ^ 31) : Balanced w := by
  induction h with
  | start s h0 =>
    refine ⟨?_, ?_, ?_⟩
    · simpa using h0
    · intro t current hpc
      cases hpc
    · simp
  | begin w t _ hpc ih =>
    have hbegun : w.begun + 1 < 2 ^ 31 := hb
    have hw := ih (by omega)
    have hsum := opened_sum w.opened t (w.opened t + 1)
    have hnonneg := opened_nonneg w.opened
    have hle := hw.begun
    have hdepth := hw.depth
    refine ⟨?_, ?_, ?_⟩
    · simp only [World.beginCapture, addDepth]
      rw [hsum, Int.bmod_eq_of_le] <;> push_cast <;> omega
    · intro u current hu
      obtain ⟨hpos, hopen⟩ := hw.ending u current hu
      refine ⟨hpos, ?_⟩
      simp only [World.beginCapture]
      by_cases hut : u = t
      · rw [hut, Function.update_self]
        omega
      · rw [Function.update_of_ne hut]
        exact hopen
    · simp only [World.beginCapture]
      rw [hsum]
      push_cast
      omega
  | load w t _ hpc hok ih =>
    have hw := ih hb
    refine ⟨hw.depth, ?_, hw.begun⟩
    intro u current hu
    simp only [World.loadDepth] at hu ⊢
    by_cases hut : u = t
    · rw [hut, Function.update_self] at hu
      cases hu
      have hown : 0 < w.opened t := hok
      have hle := opened_le w.opened t
      rw [hw.depth, hut]
      exact ⟨by omega, hown⟩
    · rw [Function.update_of_ne hut] at hu
      exact hw.ending u current hu
  | finish w t current _ hpc ih =>
    have hw := ih hb
    obtain ⟨hpos, hopen⟩ := hw.ending t current hpc
    have hsum := opened_sum w.opened t (w.opened t - 1)
    have hle := opened_le w.opened t
    have hdepth := hw.depth
    have hbegun := hw.begun
    have hb' : w.begun < 2 ^ 31 := hb
    refine ⟨?_, ?_, ?_⟩
    · simp only [World.endCapture, if_pos hpos, addDepth]
      rw [hsum, Int.bmod_eq_of_le] <;> omega
    · intro u c hu
      simp only [World.endCapture] at hu ⊢
      by_cases hut : u = t
      · rw [hut, Function.update_self] at hu
        cases hu
      · rw [Function.update_of_ne hut] at hu ⊢
        exact hw.ending u c hu
    · simp only [World.endCapture]
      rw [hsum]
      omega
  | other w s _ hs ih =>
    have hw := ih hb
    exact ⟨hs.trans hw.depth, hw.ending, hw.begun⟩

end Balance

/-- While every thread ends only what it has begun, the depth is the number of
captures that are open, and capturing is on exactly while there is one. -/
theorem capture_balanced [Fintype T] {w : World T} (h : Runs Own w) (hb : w.begun < 2 ^ 31) :
    w.shared.captureDepth = ∑ t, (w.opened t : ℤ) ∧
      (aoCaptureEnabled w.shared = true ↔ ∃ t, 0 < w.opened t) := by
  have hdepth := (balanced_run h hb).depth
  refine ⟨hdepth, ?_⟩
  rw [aoCaptureEnabled, decide_eq_true_iff, hdepth]
  constructor
  · intro hpos
    by_contra hnone
    have hzero : ∀ t, (w.opened t : ℤ) = 0 := by
      intro t
      have hle := not_exists.mp hnone t
      omega
    simp only [hzero, Finset.sum_const_zero] at hpos
    omega
  · intro hex
    obtain ⟨t, ht⟩ := hex
    have hle := opened_le w.opened t
    omega

/-- Two threads have a capture each; one has read the depth to end its own. -/
theorem capture_balanced_two : ∃ w : World Bool, Runs Own w ∧ w.pc true = .ending 2 ∧
    w.opened false = 1 ∧ aoCaptureEnabled w.shared = true := by
  have h0 : Runs Own _ := Runs.start (T := Bool) (initState ⟨1, Nat.one_pos, fun _ => 0, 0⟩ ∅) rfl
  have h1 := h0.begin _ true rfl
  have h2 := h1.begin _ false rfl
  have h3 := h2.load _ true rfl Nat.one_pos
  exact ⟨_, h3, rfl, rfl, (capture_balanced h3 (by decide)).2.mpr ⟨false, Nat.one_pos⟩⟩

/-! ### Any ends -/

/-- A thread that has read a positive depth will subtract from it. -/
def Stage.owes : Stage → ℤ
  | .idle => 0
  | .ending current => if current > 0 then 1 else 0

theorem Stage.owes_ending (current : ℤ) :
    (Stage.ending current).owes = if current > 0 then 1 else 0 := rfl

theorem Stage.owes_bounds (s : Stage) : 0 ≤ s.owes ∧ s.owes ≤ 1 := by
  cases s with
  | idle => decide
  | ending current =>
    rw [Stage.owes_ending]
    split <;> decide

section Race

variable [Fintype T] {ok : World T → T → Prop} {w : World T}

theorem owes_sum (pc : T → Stage) (t : T) (next : Stage) :
    ∑ u, (Function.update pc t next u).owes = ∑ u, (pc u).owes + (next.owes - (pc t).owes) := by
  have hcomp : (fun u => (Function.update pc t next u).owes) =
      Function.update (fun u => (pc u).owes) t next.owes := by
    funext u
    exact Function.apply_update (fun _ => Stage.owes) pc t next u
  rw [hcomp]
  exact sum_update _ t next.owes

omit [DecidableEq T] in
theorem owes_le_card (pc : T → Stage) : ∑ u, (pc u).owes ≤ Fintype.card T := by
  have hle : ∑ u, (pc u).owes ≤ ∑ _u : T, (1 : ℤ) := Finset.sum_le_sum fun u _ => (pc u).owes_bounds.2
  simpa using hle

/-- Every debt is covered by the one that the depth had when it was read. -/
theorem owed_run (h : Runs ok w) (t₀ : T) (hcard : Fintype.card T ≤ 2 ^ 31)
    (hb : w.begun < 2 ^ 31) :
    1 - (Fintype.card T : ℤ) ≤ w.shared.captureDepth - ∑ t, (w.pc t).owes ∧
      w.shared.captureDepth ≤ w.begun ∧ 0 ≤ ∑ t, (w.pc t).owes := by
  have hpos : 0 < Fintype.card T := Fintype.card_pos_iff.mpr ⟨t₀⟩
  induction h with
  | start s h0 =>
    simp only [Stage.owes, Finset.sum_const_zero, h0]
    omega
  | begin w t _ hpc ih =>
    have hbegun : w.begun + 1 < 2 ^ 31 := hb
    obtain ⟨hlow, hhigh, howes⟩ := ih (by omega)
    simp only [World.beginCapture, addDepth]
    rw [Int.bmod_eq_of_le] <;> push_cast <;> omega
  | load w t _ hpc hok ih =>
    obtain ⟨hlow, hhigh, howes⟩ := ih hb
    have hsum := owes_sum w.pc t (.ending w.shared.captureDepth)
    have hle := owes_le_card (Function.update w.pc t (.ending w.shared.captureDepth))
    have hidle : (w.pc t).owes = 0 := by
      rw [hpc]
      rfl
    have hb' : w.begun < 2 ^ 31 := hb
    simp only [World.loadDepth]
    rw [hidle, Stage.owes_ending] at hsum
    by_cases hd : w.shared.captureDepth > 0
    · rw [if_pos hd] at hsum
      omega
    · rw [if_neg hd] at hsum
      omega
  | finish w t current _ hpc ih =>
    obtain ⟨hlow, hhigh, howes⟩ := ih hb
    have hsum := owes_sum w.pc t .idle
    have hrest : 0 ≤ ∑ u, (Function.update w.pc t .idle u).owes :=
      Finset.sum_nonneg fun u _ => (Stage.owes_bounds _).1
    have hidle : Stage.idle.owes = 0 := rfl
    have hb' : w.begun < 2 ^ 31 := hb
    simp only [World.endCapture]
    rw [hpc, hidle, Stage.owes_ending] at hsum
    by_cases hcur : current > 0
    · rw [if_pos hcur] at hsum
      simp only [if_pos hcur, addDepth]
      rw [Int.bmod_eq_of_le] <;> omega
    · rw [if_neg hcur] at hsum
      simp only [if_neg hcur]
      omega
  | other w s _ hs ih =>
    rw [hs]
    exact ih hb

omit [Fintype T] in
/-- All of `l` read the depth before anybody goes on. -/
theorem loads_run (l : List T) : ∀ w : World T, Runs (fun _ _ => True) w → l.Nodup →
    (∀ t ∈ l, w.pc t = .idle) → ∃ w' : World T, Runs (fun _ _ => True) w' ∧
      w'.shared = w.shared ∧ w'.begun = w.begun ∧
      (∀ t ∈ l, w'.pc t = .ending w.shared.captureDepth) ∧ ∀ t ∉ l, w'.pc t = w.pc t := by
  induction l with
  | nil =>
    intro w hw _ _
    exact ⟨w, hw, rfl, rfl, by simp, fun _ _ => rfl⟩
  | cons u l ih =>
    intro w hw hnodup hidle
    obtain ⟨hu, hl⟩ := List.nodup_cons.mp hnodup
    have hother (t : T) (ht : t ≠ u) : (w.loadDepth u).pc t = w.pc t := Function.update_of_ne ht _ _
    have hstep := hw.load w u (hidle u List.mem_cons_self) trivial
    obtain ⟨w', hw', hshared, hbegun, hin, hout⟩ := ih (w.loadDepth u) hstep hl fun t ht => by
      rw [hother t (ne_of_mem_of_not_mem ht hu)]
      exact hidle t (List.mem_cons_of_mem u ht)
    refine ⟨w', hw', hshared, hbegun, ?_, ?_⟩
    · intro t ht
      rcases List.mem_cons.mp ht with htu | ht
      · rw [htu, hout u hu]
        exact Function.update_self ..
      · exact hin t ht
    · intro t ht
      rw [List.mem_cons, not_or] at ht
      rw [hout t ht.2, hother t ht.1]

omit [Fintype T] in
/-- All of `l` subtract what they have read. -/
theorem ends_run (l : List T) : ∀ w : World T, Runs (fun _ _ => True) w → l.Nodup →
    (∀ t ∈ l, w.pc t = .ending 1) → -2 ^ 31 ≤ w.shared.captureDepth - l.length →
    w.shared.captureDepth < 2 ^ 31 → ∃ w' : World T, Runs (fun _ _ => True) w' ∧
      w'.begun = w.begun ∧ w'.shared.captureDepth = w.shared.captureDepth - l.length := by
  induction l with
  | nil =>
    intro w hw _ _ _ _
    exact ⟨w, hw, rfl, by simp⟩
  | cons u l ih =>
    intro w hw hnodup hending hlow hhigh
    obtain ⟨hu, hl⟩ := List.nodup_cons.mp hnodup
    rw [List.length_cons] at hlow
    push_cast at hlow
    have hstep := hw.finish w u 1 (hending u List.mem_cons_self)
    have hdepth : (w.endCapture u 1).shared.captureDepth = w.shared.captureDepth - 1 := by
      simp only [World.endCapture, addDepth, Int.one_pos, gt_iff_lt, if_true]
      rw [Int.bmod_eq_of_le] <;> omega
    obtain ⟨w', hw', hbegun, hdepth'⟩ := ih (w.endCapture u 1) hstep hl
      (fun t ht => by
        simp only [World.endCapture, Function.update_of_ne (ne_of_mem_of_not_mem ht hu)]
        exact hending t (List.mem_cons_of_mem u ht))
      (by rw [hdepth]; omega) (by rw [hdepth]; omega)
    refine ⟨w', hw', hbegun, ?_⟩
    rw [hdepth', hdepth, List.length_cons]
    push_cast
    omega

/-- Whatever the threads do, the depth stays above minus their number, and with
unlucky ends it falls as far: one begin suffices. Then, from two threads on, a
new capture does not turn capturing on. -/
theorem capture_race [Nonempty T] (hcard : Fintype.card T ≤ 2 ^ 31) :
    (∀ w : World T, Runs (fun _ _ => True) w → w.begun < 2 ^ 31 →
      1 - (Fintype.card T : ℤ) ≤ w.shared.captureDepth) ∧
    ∃ w : World T, Runs (fun _ _ => True) w ∧ w.begun = 1 ∧
      w.shared.captureDepth = 1 - (Fintype.card T : ℤ) ∧
      (2 ≤ Fintype.card T → ∀ t, aoCaptureEnabled (w.beginCapture t).shared = false) := by
  have t₀ : T := Classical.ofNonempty
  constructor
  · intro w hw hb
    obtain ⟨hlow, _, howes⟩ := owed_run hw t₀ hcard hb
    omega
  · let s₀ : State := initState ⟨1, Nat.one_pos, fun _ => 0, 0⟩ ∅
    have hstart : Runs (fun _ _ => True) _ := Runs.start (T := T) s₀ rfl
    have hbegin := hstart.begin _ t₀ rfl
    obtain ⟨w₁, hw₁, hshared, hbegun, hin, _⟩ := loads_run Finset.univ.toList _ hbegin
      (Finset.nodup_toList _) fun t _ => rfl
    have hone : w₁.shared.captureDepth = 1 := by
      rw [hshared]
      rfl
    have hlength : (Finset.univ : Finset T).toList.length = Fintype.card T := Finset.length_toList _
    obtain ⟨w₂, hw₂, hbegun', hdepth⟩ := ends_run Finset.univ.toList w₁ hw₁
      (Finset.nodup_toList _) hin (by rw [hone, hlength]; omega) (by rw [hone]; decide)
    rw [hone, hlength] at hdepth
    refine ⟨w₂, hw₂, hbegun'.trans hbegun, hdepth, ?_⟩
    intro htwo t
    have hwrap : Int.bmod (1 - (Fintype.card T : ℤ) + 1) (2 ^ 32) = 2 - Fintype.card T := by
      rw [Int.bmod_eq_of_le] <;> omega
    simp only [aoCaptureEnabled, World.beginCapture, addDepth, hdepth, hwrap]
    refine decide_eq_false ?_
    omega

end Race

theorem capture_race_two : ∃ w : World Bool, w.begun = 1 ∧ w.shared.captureDepth = -1 ∧
    aoCaptureEnabled (w.beginCapture true).shared = false := by
  obtain ⟨w, _, hbegun, hdepth, hoff⟩ := (capture_race (T := Bool) (by decide)).2
  exact ⟨w, hbegun, hdepth, hoff (by decide) true⟩

end LibcOverride.MockAllocator.CaptureThreads

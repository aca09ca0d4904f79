import Mathlib.Logic.Function.Basic
import Mathlib.Logic.Relation
import Mathlib.Tactic.Common

/-!
# Sections under a spin lock

Threads share a state, part of which is protected by one lock without an owner.
In the coarse system a section is one step. In the fine system a thread takes
the lock, runs the rounds of the section one by one while the others go on with
what is not protected, and clears the lock. Every fine run is a coarse one.
-/

namespace LibcOverride.LockedSections

variable {T A S L R M : Type}

/-- `step` is the coarse step of a thread, `guard` what the environment may
answer. A section starts where `enter` gives its local variables, and `round`
goes on or ends the section. -/
structure System (T A S L R M : Type) where
  step : T → A → S → L → Option (S × L)
  guard : (T → L) → S → T → A → Prop
  get : S → R
  put : R → S → S
  enter : L → Option M
  round : M → R → R × (M ⊕ L)

/-- Rounds that do not end the section. -/
inductive System.Rounds (sys : System T A S L R M) (m : M) (r : R) : M → R → Prop where
  | refl : sys.Rounds m r m r
  | more (m' m'' : M) (r' r'' : R) (hr : sys.Rounds m r m' r')
      (h : sys.round m' r' = (r'', .inl m'')) : sys.Rounds m r m'' r''

/-- What every round that does not end the section keeps, the section keeps. -/
theorem System.Rounds.value {sys : System T A S L R M} {α : Type} {f : M → R → α} {m m' : M}
    {r r' : R} (h : sys.Rounds m r m' r')
    (hround : ∀ m r m' r', sys.round m r = (r', .inl m') → f m' r' = f m r) :
    f m' r' = f m r := by
  induction h with
  | refl => rfl
  | more m' m'' r' r'' _ hs ih => exact (hround m' r' m'' r'' hs).trans ih

/-- A section whose rounds become fewer reaches its last round. -/
theorem System.rounds_end {sys : System T A S L R M} {size : M → ℕ}
    (hsize : ∀ m r m' r', sys.round m r = (r', .inl m') → size m' < size m) (m : M) (r : R) :
    ∃ m' r', sys.Rounds m r m' r' ∧ ∃ r'' l, sys.round m' r' = (r'', .inr l) := by
  have hgo : ∀ n m' r', size m' < n → sys.Rounds m r m' r' → ∃ m'' r'', sys.Rounds m r m'' r'' ∧
      ∃ s l, sys.round m'' r'' = (s, .inr l) := by
    intro n
    induction n with
    | zero =>
      intro m' r' hn
      exact absurd hn (Nat.not_lt_zero _)
    | succ n ih =>
      intro m' r' hn hrun
      match hr : sys.round m' r' with
      | (r'', .inr l) => exact ⟨m', r', hrun, r'', l, hr⟩
      | (r'', .inl m'') =>
        have hless := hsize m' r' m'' r'' hr
        exact ih m'' r'' (by omega) (hrun.more m' m'' r' r'' hr)
  exact hgo (size m + 1) m r (Nat.lt_succ_self _) .refl

/-- A thread outside, in a section that it entered at `l`, or before the clearing
of the lock. -/
inductive Phase (L M : Type) where
  | out (l : L)
  | inside (l : L) (m : M)
  | leaving (l : L)

def Phase.base : Phase L M → L
  | .out l => l
  | .inside l _ => l
  | .leaving l => l

def Phase.holds : Phase L M → Prop
  | .out _ => False
  | .inside _ _ => True
  | .leaving _ => True

structure Coarse (T S L : Type) where
  shared : S
  pc : T → L

structure Fine (T S L M : Type) where
  shared : S
  pc : T → Phase L M
  lock : Bool

def Fine.bases (c : Fine T S L M) : T → L := fun t => (c.pc t).base

inductive System.Reach [DecidableEq T] (sys : System T A S L R M) (s₀ : S) (pc₀ : T → L) :
    Coarse T S L → Prop where
  | start : sys.Reach s₀ pc₀ ⟨s₀, pc₀⟩
  | step (d : Coarse T S L) (t : T) (a : A) (s : S) (l : L) (hd : sys.Reach s₀ pc₀ d)
      (hg : sys.guard d.pc d.shared t a) (hs : sys.step t a d.shared (d.pc t) = some (s, l)) :
      sys.Reach s₀ pc₀ ⟨s, Function.update d.pc t l⟩

/-- A step of `t` other than a failed test-and-set, which changes nothing. -/
inductive System.Move [DecidableEq T] (sys : System T A S L R M) (t : T) (c : Fine T S L M) :
    Fine T S L M → Prop where
  | outer (a : A) (l l' : L) (s : S) (hpc : c.pc t = .out l) (he : sys.enter l = none)
      (hg : sys.guard c.bases c.shared t a) (hs : sys.step t a c.shared l = some (s, l')) :
      sys.Move t c ⟨s, Function.update c.pc t (.out l'), c.lock⟩
  | acquire (l : L) (m : M) (hpc : c.pc t = .out l) (he : sys.enter l = some m)
      (hl : c.lock = false) :
      sys.Move t c ⟨c.shared, Function.update c.pc t (.inside l m), true⟩
  | round (l : L) (m m' : M) (r : R) (hpc : c.pc t = .inside l m)
      (hs : sys.round m (sys.get c.shared) = (r, .inl m')) :
      sys.Move t c ⟨sys.put r c.shared, Function.update c.pc t (.inside l m'), c.lock⟩
  | last (a : A) (l l' : L) (m : M) (r : R) (hpc : c.pc t = .inside l m)
      (hg : sys.guard c.bases c.shared t a)
      (hs : sys.round m (sys.get c.shared) = (r, .inr l')) :
      sys.Move t c ⟨sys.put r c.shared, Function.update c.pc t (.leaving l'), c.lock⟩
  | release (l : L) (hpc : c.pc t = .leaving l) :
      sys.Move t c ⟨c.shared, Function.update c.pc t (.out l), false⟩

inductive System.FineReach [DecidableEq T] (sys : System T A S L R M) (s₀ : S) (pc₀ : T → L) :
    Fine T S L M → Prop where
  | start : sys.FineReach s₀ pc₀ ⟨s₀, fun t => .out (pc₀ t), false⟩
  | spin (c : Fine T S L M) (t : T) (l : L) (m : M) (hc : sys.FineReach s₀ pc₀ c)
      (hpc : c.pc t = .out l) (he : sys.enter l = some m) (hl : c.lock = true) :
      sys.FineReach s₀ pc₀ c
  | move (c c' : Fine T S L M) (t : T) (hc : sys.FineReach s₀ pc₀ c) (h : sys.Move t c c') :
      sys.FineReach s₀ pc₀ c'

/-- The protected part is a component of its own, the other steps neither read
nor write it, and the rounds of a section add up to its step. -/
structure System.Lawful (sys : System T A S L R M) : Prop where
  get_put : ∀ r s, sys.get (sys.put r s) = r
  put_get : ∀ s, sys.put (sys.get s) s = s
  put_put : ∀ r r' s, sys.put r (sys.put r' s) = sys.put r s
  guard_put : ∀ pc s t a r, sys.guard pc s t a → sys.guard pc (sys.put r s) t a
  outer : ∀ t a s s' l l', sys.enter l = none → sys.step t a s l = some (s', l') →
    sys.get s' = sys.get s ∧ ∀ r, sys.step t a (sys.put r s) l = some (sys.put r s', l')
  section_step : ∀ pc s t a l m₀ m r r' l', sys.enter l = some m₀ → pc t = l →
    sys.guard pc s t a → sys.Rounds m₀ (sys.get s) m r → sys.round m r = (r', .inr l') →
    sys.step t a s l = some (sys.put r' s, l')

/-! ### The simulation -/

/-- The coarse state has what the protected part was when the lock was taken. -/
structure System.Matches (sys : System T A S L R M) (c : Fine T S L M) (d : Coarse T S L) :
    Prop where
  pcs : d.pc = c.bases
  exclusive : ∀ t u, (c.pc t).holds → (c.pc u).holds → t = u
  locked : ∀ t, (c.pc t).holds → c.lock = true
  taken : c.lock = true → ∃ t, (c.pc t).holds
  rest : d.shared = sys.put (sys.get d.shared) c.shared
  clean : (∀ t l m, c.pc t ≠ .inside l m) → sys.get d.shared = sys.get c.shared
  partway : ∀ t l m, c.pc t = .inside l m →
    ∃ m₀, sys.enter l = some m₀ ∧ sys.Rounds m₀ (sys.get d.shared) m (sys.get c.shared)

section Simulation

variable {sys : System T A S L R M} {c : Fine T S L M} {d : Coarse T S L}

/-- Nobody else holds the lock that `t` holds. -/
theorem System.Matches.others (h : sys.Matches c d) {t : T} (ht : (c.pc t).holds) (u : T)
    (hu : u ≠ t) : ¬(c.pc u).holds := fun hold => hu (h.exclusive u t hold ht)

theorem System.Matches.outside (h : sys.Matches c d) (hl : c.lock = false) (t : T) :
    ¬(c.pc t).holds := by
  intro hold
  rw [h.locked t hold] at hl
  cases hl

theorem System.Matches.same (h : sys.Matches c d) (hlaw : sys.Lawful)
    (hout : ∀ t l m, c.pc t ≠ .inside l m) : d.shared = c.shared := by
  rw [h.rest, h.clean hout, hlaw.put_get]

theorem matches_start (hlaw : sys.Lawful) (s₀ : S) (pc₀ : T → L) :
    sys.Matches ⟨s₀, fun t => .out (pc₀ t), false⟩ ⟨s₀, pc₀⟩ := by
  refine ⟨rfl, ?_, ?_, ?_, (hlaw.put_get s₀).symm, fun _ => rfl, ?_⟩
  · intro t u ht
    exact ht.elim
  · intro t ht
    exact ht.elim
  · intro hl
    cases hl
  · intro t l m hpc
    cases hpc

variable [DecidableEq T]

/-- A phase after one thread's phase has changed. -/
theorem phase_cases {pc : T → Phase L M} {t u : T} {p : Phase L M} {P : Phase L M → Prop}
    (h : P (Function.update pc t p u)) : u = t ∧ P p ∨ u ≠ t ∧ P (pc u) := by
  by_cases hut : u = t
  · subst hut
    rw [Function.update_self] at h
    exact Or.inl ⟨rfl, h⟩
  · rw [Function.update_of_ne hut] at h
    exact Or.inr ⟨hut, h⟩

theorem holds_self {pc : T → Phase L M} {t : T} {p : Phase L M} (h : p.holds) :
    (Function.update pc t p t).holds := by
  rw [Function.update_self]
  exact h

theorem holds_other {pc : T → Phase L M} {t u : T} {p : Phase L M} (hu : u ≠ t)
    (h : (pc u).holds) : (Function.update pc t p u).holds := by
  rw [Function.update_of_ne hu]
  exact h

theorem bases_update (c : Fine T S L M) (t : T) (p : Phase L M) (s : S) (b : Bool) :
    (⟨s, Function.update c.pc t p, b⟩ : Fine T S L M).bases =
      Function.update c.bases t p.base :=
  Function.comp_update Phase.base c.pc t p

theorem bases_same {t : T} {p : Phase L M} (hp : p.base = (c.pc t).base) (s : S) (b : Bool) :
    (⟨s, Function.update c.pc t p, b⟩ : Fine T S L M).bases = c.bases := by
  rw [bases_update, hp]
  exact Function.update_eq_self t c.bases

theorem exclusive_update {pc : T → Phase L M} {t : T} {p : Phase L M}
    (h : ∀ u v, (pc u).holds → (pc v).holds → u = v)
    (hp : p.holds → ∀ u ≠ t, ¬(pc u).holds) (u v : T)
    (hu : (Function.update pc t p u).holds) (hv : (Function.update pc t p v).holds) : u = v := by
  rcases phase_cases hu with ⟨hut, hold⟩ | ⟨hut, hold⟩ <;>
    rcases phase_cases hv with ⟨hvt, hold'⟩ | ⟨hvt, hold'⟩
  · rw [hut, hvt]
  · exact (hp hold v hvt hold').elim
  · exact (hp hold' u hut hold).elim
  · exact h u v hold hold'

theorem matches_outer (hlaw : sys.Lawful) (h : sys.Matches c d) {t : T} {a : A} {l l' : L} {s : S}
    (hpc : c.pc t = .out l) (he : sys.enter l = none) (hg : sys.guard c.bases c.shared t a)
    (hs : sys.step t a c.shared l = some (s, l')) :
    sys.guard d.pc d.shared t a ∧
      sys.step t a d.shared (d.pc t) = some (sys.put (sys.get d.shared) s, l') ∧
      sys.Matches ⟨s, Function.update c.pc t (.out l'), c.lock⟩
        ⟨sys.put (sys.get d.shared) s, Function.update d.pc t l'⟩ := by
  obtain ⟨hget, hstep⟩ := hlaw.outer t a c.shared s l l' he hs
  have hbase : d.pc t = l := by
    rw [h.pcs, Fine.bases, hpc]
    rfl
  have hguard := hlaw.guard_put _ _ _ _ (sys.get d.shared) hg
  rw [← h.rest, ← h.pcs] at hguard
  have hstep' := hstep (sys.get d.shared)
  rw [← h.rest] at hstep'
  rw [hbase]
  refine ⟨hguard, hstep', ?_, ?_, ?_, ?_, ?_, ?_, ?_⟩
  · rw [bases_update, h.pcs]
    rfl
  · exact exclusive_update h.exclusive fun hp => hp.elim
  · intro u hu
    rcases phase_cases hu with ⟨_, hold⟩ | ⟨_, hold⟩
    · exact hold.elim
    · exact h.locked u hold
  · intro hl
    obtain ⟨u, hu⟩ := h.taken hl
    have hut : u ≠ t := by
      rintro rfl
      rw [hpc] at hu
      exact hu
    exact ⟨u, holds_other hut hu⟩
  · rw [hlaw.get_put]
  · intro hout
    rw [hlaw.get_put]
    refine (h.clean ?_).trans hget.symm
    intro u k m hu
    have hut : u ≠ t := by
      rintro rfl
      rw [hpc] at hu
      cases hu
    exact hout u k m ((Function.update_of_ne hut _ _).trans hu)
  · intro u k m hu
    rw [hlaw.get_put, hget]
    rcases phase_cases (P := (· = .inside k m)) hu with ⟨_, heq⟩ | ⟨_, heq⟩
    · cases heq
    · exact h.partway u k m heq

theorem matches_acquire (h : sys.Matches c d) {t : T} {l : L} {m : M} (hpc : c.pc t = .out l)
    (he : sys.enter l = some m) (hl : c.lock = false) :
    sys.Matches ⟨c.shared, Function.update c.pc t (.inside l m), true⟩ d := by
  have hnone := h.outside hl
  have hclean : sys.get d.shared = sys.get c.shared := by
    refine h.clean ?_
    intro u k m' hu
    refine hnone u ?_
    rw [hu]
    trivial
  refine ⟨?_, ?_, fun _ _ => rfl, fun _ => ⟨t, holds_self trivial⟩, h.rest, fun _ => hclean, ?_⟩
  · rw [bases_same (by rw [hpc]; rfl), h.pcs]
  · exact exclusive_update h.exclusive fun _ u _ => hnone u
  · intro u k m' hu
    rcases phase_cases (P := (· = .inside k m')) hu with ⟨_, heq⟩ | ⟨_, heq⟩
    · cases heq
      refine ⟨m, he, ?_⟩
      rw [hclean]
      exact .refl
    · refine (hnone u ?_).elim
      rw [heq]
      trivial

theorem matches_round (hlaw : sys.Lawful) (h : sys.Matches c d) {t : T} {l : L} {m m' : M} {r : R}
    (hpc : c.pc t = .inside l m) (hs : sys.round m (sys.get c.shared) = (r, .inl m')) :
    sys.Matches ⟨sys.put r c.shared, Function.update c.pc t (.inside l m'), c.lock⟩ d := by
  have hhold : (c.pc t).holds := by
    rw [hpc]
    trivial
  refine ⟨?_, ?_, ?_, fun _ => ⟨t, holds_self trivial⟩, ?_, ?_, ?_⟩
  · rw [bases_same (by rw [hpc]; rfl), h.pcs]
  · exact exclusive_update h.exclusive fun _ => h.others hhold
  · intro u _
    exact h.locked t hhold
  · rw [hlaw.put_put]
    exact h.rest
  · intro hout
    exact (hout t l m' (Function.update_self ..)).elim
  · intro u k n hu
    rcases phase_cases (P := (· = .inside k n)) hu with ⟨_, heq⟩ | ⟨hut, heq⟩
    · cases heq
      obtain ⟨m₀, he, hr⟩ := h.partway t l m hpc
      refine ⟨m₀, he, ?_⟩
      rw [hlaw.get_put]
      exact hr.more _ _ _ _ hs
    · refine (h.others hhold u hut ?_).elim
      rw [heq]
      trivial

theorem matches_last (hlaw : sys.Lawful) (h : sys.Matches c d) {t : T} {a : A} {l l' : L} {m : M}
    {r : R} (hpc : c.pc t = .inside l m) (hg : sys.guard c.bases c.shared t a)
    (hs : sys.round m (sys.get c.shared) = (r, .inr l')) :
    sys.guard d.pc d.shared t a ∧
      sys.step t a d.shared (d.pc t) = some (sys.put r d.shared, l') ∧
      sys.Matches ⟨sys.put r c.shared, Function.update c.pc t (.leaving l'), c.lock⟩
        ⟨sys.put r d.shared, Function.update d.pc t l'⟩ := by
  have hhold : (c.pc t).holds := by
    rw [hpc]
    trivial
  have hbase : d.pc t = l := by
    rw [h.pcs, Fine.bases, hpc]
    rfl
  obtain ⟨m₀, he, hr⟩ := h.partway t l m hpc
  have hguard := hlaw.guard_put _ _ _ _ (sys.get d.shared) hg
  rw [← h.rest, ← h.pcs] at hguard
  have hput : sys.put r d.shared = sys.put r c.shared := by
    rw [h.rest, hlaw.put_put]
  refine ⟨hguard, ?_, ?_, ?_, ?_, fun _ => ⟨t, holds_self trivial⟩, ?_, ?_, ?_⟩
  · rw [hbase]
    exact hlaw.section_step d.pc d.shared t a l m₀ m _ r l' he hbase hguard hr hs
  · rw [bases_update, h.pcs]
    rfl
  · exact exclusive_update h.exclusive fun _ => h.others hhold
  · intro u _
    exact h.locked t hhold
  · rw [hput, hlaw.put_get]
  · intro _
    rw [hput]
  · intro u k n hu
    rcases phase_cases (P := (· = .inside k n)) hu with ⟨_, heq⟩ | ⟨hut, heq⟩
    · cases heq
    · refine (h.others hhold u hut ?_).elim
      rw [heq]
      trivial

theorem matches_release (h : sys.Matches c d) {t : T} {l : L} (hpc : c.pc t = .leaving l) :
    sys.Matches ⟨c.shared, Function.update c.pc t (.out l), false⟩ d := by
  have hhold : (c.pc t).holds := by
    rw [hpc]
    trivial
  have hgone (u : T) (hu : (Function.update c.pc t (.out l) u).holds) : False := by
    rcases phase_cases hu with ⟨_, hold⟩ | ⟨hut, hold⟩
    · exact hold
    · exact h.others hhold u hut hold
  have hclean : sys.get d.shared = sys.get c.shared := by
    refine h.clean ?_
    intro u k m hu
    by_cases hut : u = t
    · subst hut
      rw [hpc] at hu
      cases hu
    · refine h.others hhold u hut ?_
      rw [hu]
      trivial
  refine ⟨?_, ?_, ?_, ?_, h.rest, fun _ => hclean, ?_⟩
  · rw [bases_same (by rw [hpc]; rfl), h.pcs]
  · intro u v hu
    exact (hgone u hu).elim
  · intro u hu
    exact (hgone u hu).elim
  · intro hl
    cases hl
  · intro u k m hu
    have hu' : Function.update c.pc t (.out l) u = .inside k m := hu
    refine (hgone u ?_).elim
    rw [hu']
    trivial

/-- Every state of a fine run matches a state of a coarse run. -/
theorem fine_coarse (hlaw : sys.Lawful) {s₀ : S} {pc₀ : T → L} (h : sys.FineReach s₀ pc₀ c) :
    ∃ d, sys.Reach s₀ pc₀ d ∧ sys.Matches c d := by
  induction h with
  | start => exact ⟨⟨s₀, pc₀⟩, .start, matches_start hlaw s₀ pc₀⟩
  | spin c t l m _ _ _ _ ih => exact ih
  | move c c' t _ hmove ih =>
    obtain ⟨d, hd, hm⟩ := ih
    cases hmove with
    | outer a l l' s hpc he hg hs =>
      obtain ⟨hguard, hs', hm'⟩ := matches_outer hlaw hm hpc he hg hs
      exact ⟨_, .step d t a _ l' hd hguard hs', hm'⟩
    | acquire l m hpc he hl => exact ⟨d, hd, matches_acquire hm hpc he hl⟩
    | round l m m' r hpc hs => exact ⟨d, hd, matches_round hlaw hm hpc hs⟩
    | last a l l' m r hpc hg hs =>
      obtain ⟨hguard, hs', hm'⟩ := matches_last hlaw hm hpc hg hs
      exact ⟨_, .step d t a _ l' hd hguard hs', hm'⟩
    | release l hpc => exact ⟨d, hd, matches_release hm hpc⟩

/-! ### Release -/

/-- The rounds of a section as steps of its thread. -/
theorem rounds_moves (hlaw : sys.Lawful) {t : T} {l : L} {m m' : M} {r' : R}
    (hpc : c.pc t = .inside l m) (h : sys.Rounds m (sys.get c.shared) m' r') :
    Relation.ReflTransGen (sys.Move t) c
      ⟨sys.put r' c.shared, Function.update c.pc t (.inside l m'), c.lock⟩ := by
  induction h with
  | refl =>
    rw [hlaw.put_get, ← hpc, Function.update_eq_self]
  | more m' m'' r' r'' _ hs ih =>
    refine ih.tail ?_
    have hnext : sys.Move t ⟨sys.put r' c.shared, Function.update c.pc t (.inside l m'), c.lock⟩ _ :=
      .round l m' m'' r'' (Function.update_self ..) (by rw [hlaw.get_put]; exact hs)
    rw [hlaw.put_put, Function.update_idem] at hnext
    exact hnext

/-- The holder of the lock gets to its release by steps of its own. -/
theorem holder_releases (hlaw : sys.Lawful) {size : M → ℕ}
    (hsize : ∀ m r m' r', sys.round m r = (r', .inl m') → size m' < size m) {a : A}
    (hg : ∀ pc s t, sys.guard pc s t a) {t : T} (ht : (c.pc t).holds) :
    ∃ c', Relation.ReflTransGen (sys.Move t) c c' ∧ c'.lock = false := by
  cases hpc : c.pc t with
  | out l =>
    rw [hpc] at ht
    exact ht.elim
  | leaving l => exact ⟨_, .single (.release l hpc), rfl⟩
  | inside l m =>
    obtain ⟨m', r', hrun, r'', l', hlast⟩ := System.rounds_end hsize m (sys.get c.shared)
    have hmoves := rounds_moves hlaw hpc hrun
    have hleave : sys.Move t
        ⟨sys.put r' c.shared, Function.update c.pc t (.inside l m'), c.lock⟩ _ :=
      .last a l l' m' r'' (Function.update_self ..) (hg ..) (by rw [hlaw.get_put]; exact hlast)
    exact ⟨_, (hmoves.tail hleave).tail (.release l' (Function.update_self ..)), rfl⟩

end Simulation

end LibcOverride.LockedSections

import Mathlib.Algebra.BigOperators.Group.Finset.Piecewise
import Mathlib.Algebra.BigOperators.Ring.Finset
import Mathlib.Data.Finset.Basic
import Mathlib.Logic.Equiv.Basic

/-!
# Shares of a heap and of a directory that describes it

Several owners divide an allocated set among them. A directory maps addresses
to values; an owner may own an address before it is entered, and may have left
an entry behind at an address it no longer owns. One lemma per move keeps the
division consistent.
-/

namespace LibcOverride.Shares

variable {O A V : Type}

/-- What one owner has: an address, the value entered for it, and the address
of an entry that it still has to remove. -/
structure Share (A V : Type) where
  owns : Option A
  entry : Option V
  stale : Option A

def Share.none : Share A V := ⟨Option.none, Option.none, Option.none⟩

/-- The owner's address is in the directory. -/
def Share.Enters (x : Share A V) (a : A) : Prop := x.owns = some a ∧ x.entry ≠ Option.none

structure Owned (f : O → Share A V) (m : A → Option V) (heap : Finset A) : Prop where
  disjoint : ∀ o o' a, (f o).owns = some a → (f o').owns = some a → o = o'
  allocated : ∀ o a, (f o).owns = some a → a ∈ heap
  present : ∀ o a v, (f o).owns = some a → (f o).entry = some v → m a = some v
  cover : ∀ a, m a ≠ none → ∃ o, (f o).Enters a ∨ (f o).stale = some a

theorem owned_empty (heap : Finset A) :
    Owned (fun _ : O => (Share.none : Share A V)) (fun _ => none) heap := by
  refine ⟨?_, ?_, ?_, ?_⟩
  · intro o o' a h
    cases h
  · intro o a h
    cases h
  · intro o a v h
    cases h
  · intro a h
    exact (h rfl).elim

theorem Owned.mono {f : O → Share A V} {m : A → Option V} {heap heap' : Finset A}
    (h : Owned f m heap) (hsub : heap ⊆ heap') : Owned f m heap' :=
  ⟨h.disjoint, fun o a ho => hsub (h.allocated o a ho), h.present, h.cover⟩

/-- A share passes from one owner to another. -/
theorem owned_comp {f : O → Share A V} {m : A → Option V} {heap : Finset A}
    (h : Owned f m heap) (σ : Equiv.Perm O) : Owned (fun o => f (σ o)) m heap := by
  refine ⟨?_, fun o => h.allocated (σ o), fun o => h.present (σ o), ?_⟩
  · intro o o' a ho ho'
    exact σ.injective (h.disjoint _ _ a ho ho')
  · intro a ha
    obtain ⟨o, ho⟩ := h.cover a ha
    exact ⟨σ.symm o, by rwa [Equiv.apply_symm_apply]⟩

theorem not_enters_of_owns {f : O → Share A V} {m : A → Option V} {heap : Finset A}
    (h : Owned f m heap) {o : O} {a : A} (ho : (f o).owns = some a) :
    ∀ p ≠ o, ¬ (f p).Enters a := fun p hpo hp => hpo (h.disjoint p o a hp.1 ho)

variable [DecidableEq O]

/-- The address of one owner changes and with it the heap; what it had entered
stays behind in the directory. -/
theorem owned_relocate {f : O → Share A V} {m : A → Option V} {heap heap' : Finset A}
    (h : Owned f m heap) (o : O) (b s : Option A)
    (hb : ∀ a, b = some a → a ∉ heap ∨ (f o).owns = some a)
    (hs : ∀ a, (f o).Enters a ∨ (f o).stale = some a → s = some a)
    (hheap : ∀ a, b = some a ∨ a ∈ heap ∧ (f o).owns ≠ some a → a ∈ heap') :
    Owned (Function.update f o ⟨b, none, s⟩) m heap' := by
  have hfresh : ∀ p a, p ≠ o → b = some a → (f p).owns ≠ some a := by
    intro p a hpo hba hp
    rcases hb a hba with hn | ho
    · exact hn (h.allocated p a hp)
    · exact hpo (h.disjoint p o a hp ho)
  refine ⟨?_, ?_, ?_, ?_⟩
  · intro p q a hp hq
    by_cases hpo : p = o <;> by_cases hqo : q = o
    · rw [hpo, hqo]
    · rw [hpo, Function.update_self] at hp
      rw [Function.update_of_ne hqo] at hq
      exact (hfresh q a hqo hp hq).elim
    · rw [hqo, Function.update_self] at hq
      rw [Function.update_of_ne hpo] at hp
      exact (hfresh p a hpo hq hp).elim
    · rw [Function.update_of_ne hpo] at hp
      rw [Function.update_of_ne hqo] at hq
      exact h.disjoint p q a hp hq
  · intro p a hp
    by_cases hpo : p = o
    · rw [hpo, Function.update_self] at hp
      exact hheap a (Or.inl hp)
    · rw [Function.update_of_ne hpo] at hp
      exact hheap a (Or.inr ⟨h.allocated p a hp, fun ho => hpo (h.disjoint p o a hp ho)⟩)
  · intro p a v hp hv
    by_cases hpo : p = o
    · rw [hpo, Function.update_self] at hv
      cases hv
    · rw [Function.update_of_ne hpo] at hp hv
      exact h.present p a v hp hv
  · intro a ha
    obtain ⟨p, hp⟩ := h.cover a ha
    by_cases hpo : p = o
    · refine ⟨o, Or.inr ?_⟩
      rw [Function.update_self]
      exact hs a (hpo ▸ hp)
    · exact ⟨p, by rwa [Function.update_of_ne hpo]⟩

/-! ### What the owners add up to -/

theorem sum_update [Fintype O] (g : O → ℤ) (o : O) (x : ℤ) :
    ∑ p, Function.update g o x p = ∑ p, g p + (x - g o) := by
  have hsplit := Finset.add_sum_erase Finset.univ g (Finset.mem_univ o)
  rw [Finset.sum_update_of_mem (Finset.mem_univ o), ← Finset.erase_eq, ← hsplit]
  omega

/-! ### Changes of the directory -/

variable [DecidableEq A]

/-- The directory changes at one address that nobody else has entered, for an
owner that has nothing else there. -/
theorem owned_rebind {f : O → Share A V} {m : A → Option V} {heap : Finset A}
    (h : Owned f m heap) (o : O) (a : A) (x : Share A V) (w : Option V)
    (hown : x.owns = (f o).owns) (hother : ∀ p ≠ o, ¬ (f p).Enters a)
    (honly : ∀ b, (f o).Enters b ∨ (f o).stale = some b → b = a)
    (hentry : x.entry = none ∧ w = none ∨ x.owns = some a ∧ x.entry = w) :
    Owned (Function.update f o x) (Function.update m a w) heap := by
  have howns : ∀ p, (Function.update f o x p).owns = (f p).owns := by
    intro p
    by_cases hpo : p = o
    · rw [hpo, Function.update_self, hown]
    · rw [Function.update_of_ne hpo]
  refine ⟨?_, ?_, ?_, ?_⟩
  · intro p q b hp hq
    rw [howns] at hp hq
    exact h.disjoint p q b hp hq
  · intro p b hp
    rw [howns] at hp
    exact h.allocated p b hp
  · intro p b v hp hv
    by_cases hpo : p = o
    · rw [hpo, Function.update_self] at hp hv
      rcases hentry with ⟨he, _⟩ | ⟨ho, he⟩
      · rw [he] at hv
        cases hv
      · rw [ho] at hp
        cases hp
        rw [Function.update_self, ← he, hv]
    · rw [Function.update_of_ne hpo] at hp hv
      have hba : b ≠ a := by
        rintro rfl
        exact hother p hpo ⟨hp, by rw [hv]; simp⟩
      rw [Function.update_of_ne hba]
      exact h.present p b v hp hv
  · intro b hb
    by_cases hba : b = a
    · subst hba
      rw [Function.update_self] at hb
      rcases hentry with ⟨_, hw⟩ | ⟨ho, he⟩
      · exact (hb hw).elim
      · refine ⟨o, Or.inl ?_⟩
        rw [Function.update_self]
        exact ⟨ho, he ▸ hb⟩
    · rw [Function.update_of_ne hba] at hb
      obtain ⟨p, hp⟩ := h.cover b hb
      have hpo : p ≠ o := by
        rintro rfl
        exact hba (honly b hp)
      exact ⟨p, by rwa [Function.update_of_ne hpo]⟩

/-! ### The moves -/

variable {f : O → Share A V} {m : A → Option V} {heap : Finset A} {o : O} {a : A} {v : V}

theorem owned_acquire (h : Owned f m heap) (ho : f o = Share.none) (ha : a ∉ heap) :
    Owned (Function.update f o ⟨some a, none, none⟩) m (insert a heap) := by
  refine owned_relocate h o (some a) none ?_ ?_ ?_
  · rintro b ⟨⟩
    exact Or.inl ha
  · intro b hb
    rw [ho] at hb
    rcases hb with hb | hb
    · cases hb.1
    · cases hb
  · rintro b (⟨⟨⟩⟩ | ⟨hb, _⟩)
    · exact Finset.mem_insert_self _ _
    · exact Finset.mem_insert_of_mem hb

theorem owned_release (h : Owned f m heap) (ho : f o = ⟨some a, none, none⟩) :
    Owned (Function.update f o Share.none) m (heap.erase a) := by
  refine owned_relocate h o none none ?_ ?_ ?_
  · rintro b ⟨⟩
  · intro b hb
    rw [ho] at hb
    rcases hb with hb | hb
    · exact (hb.2 rfl).elim
    · cases hb
  · rintro b (hb | ⟨hb, hne⟩)
    · cases hb
    · rw [ho] at hne
      exact Finset.mem_erase.mpr ⟨fun heq => hne (by rw [heq]), hb⟩

/-- An address that nobody owns any more stays allocated. -/
theorem owned_abandon (h : Owned f m heap) (ho : f o = ⟨some a, none, none⟩) :
    Owned (Function.update f o Share.none) m heap :=
  (owned_release h ho).mono (Finset.erase_subset a heap)

omit [DecidableEq A] in
/-- The owner gives up an address before its entry is removed, and may get
another one for it. -/
theorem owned_move (h : Owned f m heap) (ho : f o = ⟨some a, some v, none⟩) (b : Option A)
    (hb : ∀ c, b = some c → c ∉ heap) {heap' : Finset A}
    (hheap : ∀ c, b = some c ∨ c ∈ heap ∧ c ≠ a → c ∈ heap') :
    Owned (Function.update f o ⟨b, none, some a⟩) m heap' := by
  refine owned_relocate h o b (some a) ?_ ?_ ?_
  · intro c hc
    exact Or.inl (hb c hc)
  · intro c hc
    rw [ho] at hc
    rcases hc with hc | hc
    · exact hc.1
    · cases hc
  · rintro c (hc | ⟨hc, hne⟩)
    · exact hheap c (Or.inl hc)
    · rw [ho] at hne
      exact hheap c (Or.inr ⟨hc, fun heq => hne (by rw [heq])⟩)

theorem owned_enter (h : Owned f m heap) (ho : f o = ⟨some a, none, none⟩) (v : V) :
    Owned (Function.update f o ⟨some a, some v, none⟩) (Function.update m a (some v)) heap := by
  refine owned_rebind h o a _ (some v) (by rw [ho]) (not_enters_of_owns h (by rw [ho])) ?_
    (Or.inr ⟨rfl, rfl⟩)
  intro b hb
  rw [ho] at hb
  rcases hb with hb | hb
  · exact (hb.2 rfl).elim
  · cases hb

theorem owned_leave (h : Owned f m heap) (ho : f o = ⟨some a, some v, none⟩) :
    Owned (Function.update f o ⟨some a, none, none⟩) (Function.update m a none) heap := by
  refine owned_rebind h o a _ none (by rw [ho]) (not_enters_of_owns h (by rw [ho])) ?_
    (Or.inl ⟨rfl, rfl⟩)
  intro b hb
  rw [ho] at hb
  rcases hb with hb | hb
  · cases hb.1
    rfl
  · cases hb

/-- A stale entry is removed while nobody else has entered its address. -/
theorem owned_discard (h : Owned f m heap) {b : Option A} (ho : f o = ⟨b, none, some a⟩)
    (hother : ∀ p ≠ o, ¬ (f p).Enters a) :
    Owned (Function.update f o ⟨b, none, none⟩) (Function.update m a none) heap := by
  refine owned_rebind h o a _ none (by rw [ho]) hother ?_ (Or.inl ⟨rfl, rfl⟩)
  intro c hc
  rw [ho] at hc
  rcases hc with hc | hc
  · exact (hc.2 rfl).elim
  · cases hc
    rfl

end LibcOverride.Shares

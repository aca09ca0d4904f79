import Mathlib.Data.Set.Card
import Mathlib.Data.Fintype.Card
import Mathlib.Logic.Function.Basic

/-!
# Open addressing with deletion marks

A table of slots searched along one fixed walk per key. A removed entry leaves
a mark behind, so that a walk started before the removal still passes over the
slot. The only facts used about the walk are that its first `len` positions
visit every slot; linear probing is one instance.

`Sound` is the invariant of such a table and `Binds` says which finite map it
stores. The three operations keep the first and act on the second as lookup,
update and erasure.
-/

namespace LibcOverride.ProbeTable

inductive Slot (K V : Type) where
  | empty
  | removed
  | live (k : K) (v : V)

/-- The walk of every key: its first `len` positions visit every slot. -/
structure Walk (K I : Type) (len : ℕ) where
  slot : K → ℕ → I
  visits : ∀ k j, ∃ i < len, slot k i = j

variable {K V I : Type} {len : ℕ}

abbrev Table (K V I : Type) := I → Slot K V

def Absent (t : Table K V I) (k : K) : Prop := ∀ j v, t j ≠ .live k v

/-- Every live key occupies one slot, and no empty slot lies before it on its
own walk. -/
structure Sound (P : Walk K I len) (t : Table K V I) : Prop where
  unique : ∀ a b k v w, t a = .live k v → t b = .live k w → a = b
  reach : ∀ j k v, t j = .live k v →
    ∃ n < len, P.slot k n = j ∧ ∀ i < n, t (P.slot k i) ≠ .empty

/-- The finite map stored in a table. -/
def Binds (t : Table K V I) (m : K → Option V) : Prop :=
  ∀ k v, m k = some v ↔ ∃ j, t j = .live k v

theorem sound_empty (P : Walk K I len) : Sound P (fun _ => .empty : Table K V I) :=
  ⟨by simp, by simp⟩

theorem binds_empty : Binds (fun _ => .empty : Table K V I) (fun _ => none) := by
  intro k v
  simp

theorem binds_none {t : Table K V I} {m : K → Option V} (h : Binds t m) (k : K) :
    m k = none ↔ Absent t k := by
  constructor
  · intro hk j v hj
    have hs := (h k v).mpr ⟨j, hj⟩
    rw [hk] at hs
    cases hs
  · intro ha
    cases hk : m k with
    | none => rfl
    | some v =>
      obtain ⟨j, hj⟩ := (h k v).mp hk
      exact (ha j v hj).elim

/-- A walk that met only other entries and then an empty slot, or its end,
shows that the key is stored nowhere. -/
theorem absent_of_walk {P : Walk K I len} {t : Table K V I} (hs : Sound P t) (k : K) (m : ℕ)
    (hw : ∀ i < m, ∀ v, t (P.slot k i) ≠ .live k v)
    (hend : len ≤ m ∨ t (P.slot k m) = .empty) : Absent t k := by
  intro j v hj
  obtain ⟨n, hn, hslot, hpre⟩ := hs.reach j k v hj
  rcases Nat.lt_trichotomy n m with hlt | heq | hgt
  · exact hw n hlt v (by rw [hslot]; exact hj)
  · subst heq
    rcases hend with hl | he
    · omega
    · rw [hslot, hj] at he
      cases he
  · rcases hend with hl | he
    · omega
    · exact hpre m hgt he

/-- What the search for a slot to write has passed at position `i`. -/
structure Passed (P : Walk K I len) (t : Table K V I) (k : K) (i : ℕ) (mark : Option I) : Prop where
  other : ∀ i' < i, t (P.slot k i') ≠ .empty ∧ ∀ v, t (P.slot k i') ≠ .live k v
  marked : ∀ j, mark = some j → ∃ m < i, P.slot k m = j ∧ t j = .removed
  unmarked : mark = none → ∀ i' < i, t (P.slot k i') ≠ .removed

/-- A slot that may be taken by an absent key: it is free, and the walk of the
key reaches it over non-empty slots. -/
def Free (P : Walk K I len) (t : Table K V I) (k : K) (j : I) : Prop :=
  (∀ k' v, t j ≠ .live k' v) ∧ ∃ n < len, P.slot k n = j ∧ ∀ i < n, t (P.slot k i) ≠ .empty

theorem passed_step {P : Walk K I len} {t : Table K V I} {k : K} {i : ℕ} {mark mark' : Option I}
    (hp : Passed P t k i mark) (he : t (P.slot k i) ≠ .empty)
    (hl : ∀ v, t (P.slot k i) ≠ .live k v)
    (hm : ∀ j, mark' = some j → mark = some j ∨ P.slot k i = j ∧ t j = .removed)
    (hn : mark' = none → mark = none ∧ t (P.slot k i) ≠ .removed) :
    Passed P t k (i + 1) mark' := by
  refine ⟨?_, ?_, ?_⟩
  · intro i' hi'
    rcases Nat.lt_succ_iff_lt_or_eq.mp hi' with hlt | rfl
    · exact hp.other i' hlt
    · exact ⟨he, hl⟩
  · intro j hj
    rcases hm j hj with hold | hnew
    · obtain ⟨m, hmi, hrest⟩ := hp.marked j hold
      exact ⟨m, by omega, hrest⟩
    · exact ⟨i, by omega, hnew⟩
  · intro hnone i' hi'
    obtain ⟨hold, hcur⟩ := hn hnone
    rcases Nat.lt_succ_iff_lt_or_eq.mp hi' with hlt | rfl
    · exact hp.unmarked hold i' hlt
    · exact hcur

theorem free_of_mark {P : Walk K I len} {t : Table K V I} {k : K} {i : ℕ} {mark : Option I}
    (hp : Passed P t k i mark) (hi : i ≤ len) {j : I} (hj : mark = some j) : Free P t k j := by
  obtain ⟨m, hm, hslot, hrem⟩ := hp.marked j hj
  refine ⟨by simp [hrem], m, by omega, hslot, ?_⟩
  intro i' hi'
  exact (hp.other i' (by omega)).1

theorem passed_start (P : Walk K I len) (t : Table K V I) (k : K) : Passed P t k 0 none :=
  ⟨by simp, by simp, by simp⟩

section Operations

variable [DecidableEq K]

/-- Search for `k` from position `i` of its walk, `n` positions at most. -/
def findFrom (P : Walk K I len) (t : Table K V I) (k : K) : ℕ → ℕ → Option (I × V)
  | 0, _ => none
  | n + 1, i =>
    match t (P.slot k i) with
    | .empty => none
    | .removed => findFrom P t k n (i + 1)
    | .live k' v => if k' = k then some (P.slot k i, v) else findFrom P t k n (i + 1)

def find (P : Walk K I len) (t : Table K V I) (k : K) : Option (I × V) := findFrom P t k len 0

/-- The slot an insertion of `k` writes: its own slot when it is stored, else
the first mark on the walk, else the first empty slot. -/
def targetFrom (P : Walk K I len) (t : Table K V I) (k : K) : ℕ → ℕ → Option I → Option I
  | 0, _, mark => mark
  | n + 1, i, mark =>
    match t (P.slot k i) with
    | .empty => some (mark.getD (P.slot k i))
    | .removed => targetFrom P t k n (i + 1) (some (mark.getD (P.slot k i)))
    | .live k' _ => if k' = k then some (P.slot k i) else targetFrom P t k n (i + 1) mark

def target (P : Walk K I len) (t : Table K V I) (k : K) : Option I := targetFrom P t k len 0 none

theorem findFrom_some {P : Walk K I len} {t : Table K V I} {k : K} {n i : ℕ} {j : I} {v : V}
    (h : findFrom P t k n i = some (j, v)) : t j = .live k v := by
  induction n generalizing i with
  | zero => simp [findFrom] at h
  | succ n ih =>
    rw [findFrom] at h
    cases hc : t (P.slot k i) with
    | empty => simp [hc] at h
    | removed => exact ih (by simpa only [hc] using h)
    | live k' w =>
      by_cases hk : k' = k
      · simp only [hc, hk, ite_true, Option.some.injEq, Prod.mk.injEq] at h
        rw [← h.1, ← h.2, hc, hk]
      · exact ih (by simpa only [hc, hk, ite_false] using h)

theorem findFrom_none {P : Walk K I len} {t : Table K V I} (hs : Sound P t) {k : K} {n i : ℕ}
    (hlen : i + n = len) (hw : ∀ i' < i, ∀ v, t (P.slot k i') ≠ .live k v)
    (h : findFrom P t k n i = none) : Absent t k := by
  induction n generalizing i with
  | zero => exact absent_of_walk hs k i hw (Or.inl (by omega))
  | succ n ih =>
    rw [findFrom] at h
    have hnext : (∀ v, t (P.slot k i) ≠ .live k v) →
        ∀ i' < i + 1, ∀ v, t (P.slot k i') ≠ .live k v := by
      intro hi i' hi' v
      rcases Nat.lt_succ_iff_lt_or_eq.mp hi' with hlt | rfl
      · exact hw i' hlt v
      · exact hi v
    cases hc : t (P.slot k i) with
    | empty => exact absent_of_walk hs k i hw (Or.inr hc)
    | removed => exact ih (by omega) (hnext (by simp [hc])) (by simpa only [hc] using h)
    | live k' w =>
      by_cases hk : k' = k
      · simp [hc, hk] at h
      · exact ih (by omega) (hnext (by simp [hc, hk])) (by simpa only [hc, hk, ite_false] using h)

theorem find_value {P : Walk K I len} {t : Table K V I} {m : K → Option V} (hs : Sound P t)
    (hb : Binds t m) (k : K) : (find P t k).map Prod.snd = m k := by
  cases hf : find P t k with
  | none =>
    have ha : Absent t k := findFrom_none hs (by omega) (by simp) hf
    rw [(binds_none hb k).mpr ha]
    rfl
  | some p =>
    have hp : t p.1 = .live k p.2 := findFrom_some hf
    exact ((hb k p.2).mpr ⟨p.1, hp⟩).symm

theorem targetFrom_some {P : Walk K I len} {t : Table K V I} (hs : Sound P t) {k : K} {n i : ℕ}
    {mark : Option I} {j : I} (hlen : i + n = len) (hp : Passed P t k i mark)
    (h : targetFrom P t k n i mark = some j) :
    (∃ v, t j = .live k v) ∨ Absent t k ∧ Free P t k j := by
  induction n generalizing i mark with
  | zero =>
    have ha := absent_of_walk hs k i (fun i' hi' => (hp.other i' hi').2) (Or.inl (by omega))
    exact Or.inr ⟨ha, free_of_mark hp (by omega) h⟩
  | succ n ih =>
    rw [targetFrom] at h
    cases hc : t (P.slot k i) with
    | empty =>
      have ha := absent_of_walk hs k i (fun i' hi' => (hp.other i' hi').2) (Or.inr hc)
      simp only [hc, Option.some.injEq] at h
      cases hmk : mark with
      | none =>
        subst h
        simp only [hmk, Option.getD_none]
        exact Or.inr ⟨ha, by simp [hc], i, by omega, rfl, fun i' hi' => (hp.other i' hi').1⟩
      | some j' =>
        simp only [hmk, Option.getD_some] at h
        exact Or.inr ⟨ha, free_of_mark hp (by omega) (by rw [hmk, h])⟩
    | removed =>
      simp only [hc] at h
      refine ih (by omega) (passed_step hp (by simp [hc]) (by simp [hc]) ?_ (by simp)) h
      intro j' hj'
      cases hmk : mark with
      | none =>
        simp only [hmk, Option.getD_none, Option.some.injEq] at hj'
        exact Or.inr ⟨hj', by rw [← hj', hc]⟩
      | some j0 =>
        simp only [hmk, Option.getD_some] at hj'
        exact Or.inl hj'
    | live k' w =>
      by_cases hk : k' = k
      · simp only [hc, hk, ite_true, Option.some.injEq] at h
        exact Or.inl ⟨w, by rw [← h, hc, hk]⟩
      · simp only [hc, hk, ite_false] at h
        exact ih (by omega) (passed_step hp (by simp [hc]) (by simp [hc, hk])
          (fun j' hj' => Or.inl hj') (fun hn => ⟨hn, by simp [hc]⟩)) h

theorem targetFrom_none {P : Walk K I len} {t : Table K V I} {k : K} {n i : ℕ}
    {mark : Option I} (hlen : i + n = len) (hp : Passed P t k i mark)
    (h : targetFrom P t k n i mark = none) :
    (∀ j, ∃ k' v, t j = .live k' v) ∧ Absent t k := by
  induction n generalizing i mark with
  | zero =>
    have hall : ∀ j, (∃ k' v, t j = .live k' v) ∧ ∀ v, t j ≠ .live k v := by
      intro j
      obtain ⟨i', hi', hslot⟩ := P.visits k j
      have ho := hp.other i' (by omega)
      have hr := hp.unmarked h i' (by omega)
      rw [hslot] at ho hr
      cases hc : t j with
      | empty => exact (ho.1 hc).elim
      | removed => exact (hr hc).elim
      | live k' v =>
        rw [hc] at ho
        exact ⟨⟨k', v, rfl⟩, ho.2⟩
    exact ⟨fun j => (hall j).1, fun j => (hall j).2⟩
  | succ n ih =>
    rw [targetFrom] at h
    cases hc : t (P.slot k i) with
    | empty => simp [hc] at h
    | removed =>
      simp only [hc] at h
      cases hmk : mark with
      | none =>
        rw [hmk] at h hp
        exact ih (by omega) (passed_step hp (by simp [hc]) (by simp [hc])
          (fun j hj => Or.inr (by simp at hj; exact ⟨hj, by rw [← hj, hc]⟩)) (by simp)) h
      | some j0 =>
        rw [hmk] at h hp
        exact ih (by omega) (passed_step hp (by simp [hc]) (by simp [hc])
          (fun j hj => Or.inl hj) (by simp)) h
    | live k' w =>
      by_cases hk : k' = k
      · simp [hc, hk] at h
      · simp only [hc, hk, ite_false] at h
        exact ih (by omega) (passed_step hp (by simp [hc]) (by simp [hc, hk])
          (fun j' hj' => Or.inl hj') (fun hn => ⟨hn, by simp [hc]⟩)) h

theorem target_some {P : Walk K I len} {t : Table K V I} (hs : Sound P t) {k : K} {j : I}
    (h : target P t k = some j) : (∃ v, t j = .live k v) ∨ Absent t k ∧ Free P t k j :=
  targetFrom_some hs (by omega) (passed_start P t k) h

/-- The search fails only in a full table that does not hold the key. -/
theorem target_none {P : Walk K I len} {t : Table K V I} (hs : Sound P t) (k : K) :
    target P t k = none ↔ (∀ j, ∃ k' v, t j = .live k' v) ∧ Absent t k := by
  constructor
  · exact targetFrom_none (by omega) (passed_start P t k)
  · rintro ⟨hfull, ha⟩
    cases ht : target P t k with
    | none => rfl
    | some j =>
      rcases target_some hs ht with ⟨v, hv⟩ | ⟨_, hfree, _⟩
      · exact (ha j v hv).elim
      · obtain ⟨k', v, hv⟩ := hfull j
        exact (hfree k' v hv).elim

end Operations

section Updates

variable [DecidableEq I]

theorem update_live {t : Table K V I} {j a : I} {k k' : K} {v w : V}
    (h : Function.update t j (.live k v) a = .live k' w) :
    a = j ∧ k' = k ∧ w = v ∨ a ≠ j ∧ t a = .live k' w := by
  by_cases ha : a = j
  · subst ha
    rw [Function.update_self] at h
    injection h with hk hv
    exact Or.inl ⟨rfl, hk.symm, hv.symm⟩
  · rw [Function.update_of_ne ha] at h
    exact Or.inr ⟨ha, h⟩

theorem update_nonempty {t : Table K V I} {j a : I} {s : Slot K V} (hs : s ≠ .empty)
    (h : t a ≠ .empty) : Function.update t j s a ≠ .empty := by
  by_cases ha : a = j
  · rw [ha, Function.update_self]
    exact hs
  · rwa [Function.update_of_ne ha]

/-- Writing a key at its own slot, or at a free slot when it is absent, keeps
the table sound. -/
theorem sound_put {P : Walk K I len} {t : Table K V I} (hs : Sound P t) {k : K} {j : I} (v : V)
    (h : (∃ w, t j = .live k w) ∨ Absent t k ∧ Free P t k j) :
    Sound P (Function.update t j (.live k v)) := by
  have hother : ∀ a w, a ≠ j → t a ≠ .live k w := by
    intro a w ha hw
    rcases h with ⟨w', hj⟩ | ⟨habs, _⟩
    · exact ha (hs.unique a j k w w' hw hj)
    · exact habs a w hw
  refine ⟨?_, ?_⟩
  · intro a b k' x y hx hy
    rcases update_live hx with ⟨ha, hka, _⟩ | ⟨ha, hxa⟩ <;>
      rcases update_live hy with ⟨hb, hkb, _⟩ | ⟨hb, hyb⟩
    · rw [ha, hb]
    · subst hka
      exact (hother b y hb hyb).elim
    · subst hkb
      exact (hother a x ha hxa).elim
    · exact hs.unique a b k' x y hxa hyb
  · intro a k' x hx
    have hreach : ∃ n < len, P.slot k' n = a ∧ ∀ i < n, t (P.slot k' i) ≠ .empty := by
      rcases update_live hx with ⟨ha, hk, _⟩ | ⟨_, hxa⟩
      · subst ha hk
        rcases h with ⟨w, hw⟩ | ⟨_, _, hfree⟩
        · exact hs.reach a k' w hw
        · exact hfree
      · exact hs.reach a k' x hxa
    obtain ⟨n, hn, hslot, hpre⟩ := hreach
    exact ⟨n, hn, hslot, fun i hi => update_nonempty (by simp) (hpre i hi)⟩

theorem binds_put [DecidableEq K] {P : Walk K I len} {t : Table K V I} {m : K → Option V}
    (hs : Sound P t) (hb : Binds t m) {k : K} {j : I} (v : V)
    (h : (∃ w, t j = .live k w) ∨ Absent t k ∧ Free P t k j) :
    Binds (Function.update t j (.live k v)) (Function.update m k (some v)) := by
  intro k' w
  by_cases hk : k' = k
  · subst hk
    rw [Function.update_self, Option.some.injEq]
    constructor
    · rintro rfl
      exact ⟨j, Function.update_self ..⟩
    · rintro ⟨a, ha⟩
      have hj := (sound_put hs v h).unique a j k' w v ha (Function.update_self ..)
      rw [hj, Function.update_self] at ha
      injection ha
  · rw [Function.update_of_ne hk, hb k' w]
    constructor
    · rintro ⟨a, ha⟩
      have hne : a ≠ j := by
        rintro rfl
        rcases h with ⟨x, hx⟩ | ⟨_, hfree, _⟩
        · rw [hx] at ha
          injection ha with hkk
          exact hk hkk.symm
        · exact hfree k' w ha
      exact ⟨a, by rw [Function.update_of_ne hne, ha]⟩
    · rintro ⟨a, ha⟩
      rcases update_live ha with ⟨_, hkk, _⟩ | ⟨_, hta⟩
      · exact (hk hkk).elim
      · exact ⟨a, hta⟩

theorem update_removed_live {t : Table K V I} {j a : I} {k : K} {v : V}
    (h : Function.update t j .removed a = .live k v) : a ≠ j ∧ t a = .live k v := by
  by_cases ha : a = j
  · rw [ha, Function.update_self] at h
    cases h
  · rw [Function.update_of_ne ha] at h
    exact ⟨ha, h⟩

/-- Marking any non-empty slot as removed keeps the table sound. -/
theorem sound_mark {P : Walk K I len} {t : Table K V I} (hs : Sound P t) (j : I) :
    Sound P (Function.update t j .removed) := by
  refine ⟨?_, ?_⟩
  · intro a b k v w ha hb
    exact hs.unique a b k v w (update_removed_live ha).2 (update_removed_live hb).2
  · intro a k v ha
    obtain ⟨n, hn, hslot, hpre⟩ := hs.reach a k v (update_removed_live ha).2
    exact ⟨n, hn, hslot, fun i hi => update_nonempty (by simp) (hpre i hi)⟩

theorem binds_mark [DecidableEq K] {P : Walk K I len} {t : Table K V I} {m : K → Option V}
    (hs : Sound P t) (hb : Binds t m) {k : K} {j : I} {v : V} (hj : t j = .live k v) :
    Binds (Function.update t j .removed) (Function.update m k none) := by
  intro k' w
  by_cases hk : k' = k
  · subst hk
    rw [Function.update_self]
    constructor
    · intro hn
      cases hn
    · rintro ⟨a, ha⟩
      obtain ⟨hne, hta⟩ := update_removed_live ha
      exact (hne (hs.unique a j k' w v hta hj)).elim
  · rw [Function.update_of_ne hk, hb k' w]
    constructor
    · rintro ⟨a, ha⟩
      have hne : a ≠ j := by
        rintro rfl
        rw [hj] at ha
        injection ha with hkk
        exact hk hkk.symm
      exact ⟨a, by rw [Function.update_of_ne hne, ha]⟩
    · rintro ⟨a, ha⟩
      exact ⟨a, (update_removed_live ha).2⟩

end Updates

section Counting

theorem ncard_bound {P : Walk K I len} {t : Table K V I} {m : K → Option V} (hs : Sound P t)
    (hb : Binds t m) : {k | m k ≠ none}.ncard = {j | ∃ k v, t j = .live k v}.ncard := by
  have hkey : ∀ k ∈ {k | m k ≠ none}, ∃ j v, t j = .live k v := by
    intro k hk
    obtain ⟨v, hv⟩ := Option.ne_none_iff_exists'.mp hk
    obtain ⟨j, hj⟩ := (hb k v).mp hv
    exact ⟨j, v, hj⟩
  refine Set.ncard_congr (fun k hk => (hkey k hk).choose) ?_ ?_ ?_
  · intro k hk
    obtain ⟨v, hv⟩ := (hkey k hk).choose_spec
    exact ⟨k, v, hv⟩
  · intro a b ha hb' heq
    obtain ⟨v, hv⟩ := (hkey a ha).choose_spec
    obtain ⟨w, hw⟩ := (hkey b hb').choose_spec
    rw [heq, hw] at hv
    injection hv with hk
    exact hk.symm
  · rintro j ⟨k, v, hj⟩
    have hk : m k ≠ none := by
      rw [(hb k v).mpr ⟨j, hj⟩]
      simp
    obtain ⟨w, hw⟩ := (hkey k hk).choose_spec
    exact ⟨k, hk, hs.unique _ j k w v hw hj⟩

/-- The table is full exactly when it binds as many keys as it has slots. -/
theorem full_iff_ncard [Fintype I] {P : Walk K I len} {t : Table K V I} {m : K → Option V}
    (hs : Sound P t) (hb : Binds t m) :
    (∀ j, ∃ k v, t j = .live k v) ↔ {k | m k ≠ none}.ncard = Fintype.card I := by
  rw [ncard_bound hs hb, ← Nat.card_eq_fintype_card, ← Set.ncard_univ]
  constructor
  · intro hall
    rw [Set.eq_univ_of_forall (s := {j | ∃ k v, t j = .live k v}) hall]
  · intro hcard j
    have huniv : {j | ∃ k v, t j = .live k v} = Set.univ :=
      Set.eq_of_subset_of_ncard_le (Set.subset_univ _) hcard.ge
    have hj : j ∈ {j | ∃ k v, t j = .live k v} := huniv ▸ Set.mem_univ j
    exact hj

theorem ncard_le [Fintype I] {P : Walk K I len} {t : Table K V I} {m : K → Option V}
    (hs : Sound P t) (hb : Binds t m) : {k | m k ≠ none}.ncard ≤ Fintype.card I := by
  rw [ncard_bound hs hb, ← Nat.card_eq_fintype_card]
  exact Set.ncard_le_card _

end Counting

end LibcOverride.ProbeTable

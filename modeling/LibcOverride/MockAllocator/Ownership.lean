import LibcOverride.MockAllocator.Ledger

/-!
# The ownership query on arbitrary pointer values
(src/mock_allocator.c:223-289, 468-480)

The query compares a caller's pointer with the key fields of the registry, and
the two slot markers are numbers of the same range. NULL is answered before
the registry is consulted; the value 1 is not.
-/

namespace LibcOverride.MockAllocator
open ProbeTable

/-- Some slot of the registry records a live block at this address. -/
def IsTracked (s : State) (p : ℕ) : Prop :=
  ∃ j < aoRegistryCapacity, ∃ v, decode (s.registry j) = .live p v

/-- The walk of the pointer value 1, which starts at slot 0, meets a removed
slot before an empty one. -/
def ReachesTombstone (t : Registry) : Prop :=
  ∃ n < aoRegistryCapacity, (t (probe 0 n)).key = aoRegistryTombstone ∧
    ∀ i < n, (t (probe 0 i)).key ≠ aoRegistryEmpty

/-- Any calls with any arguments; the real allocator answers NULL or an
address aligned to 16 bytes. -/
inductive Touched (ld : Loader) : State → Prop where
  | start (b : Bootstrap) (heap : Finset ℕ) (h : 0 ∉ heap) : Touched ld (initState b heap)
  | step (s s' : State) (c : Call) (ans ret : ℕ) (hr : Touched ld s) (hans : 16 ∣ ans)
      (hs : step ld s c ans = .ret ret s') : Touched ld s'

/-! ### What a lookup finds, for any key but 0 -/

theorem lookupLoop_isSome (t : Registry) (key index : ℕ) (hk : key ≠ 0) (n i : ℕ) :
    (lookupLoop t key index n i).isSome = true ↔
      ∃ m < n, (t (probe index (i + m))).key = key ∧
        ∀ i' < m, (t (probe index (i + i'))).key ≠ aoRegistryEmpty := by
  induction n generalizing i with
  | zero => simp [lookupLoop]
  | succ n ih =>
    rw [lookupLoop]
    by_cases h0 : (t (probe index i)).key = 0
    · rw [if_pos h0]
      constructor
      · intro h
        cases h
      · rintro ⟨m, _, hm, hpre⟩
        cases m with
        | zero => exact (hk (hm.symm.trans h0)).elim
        | succ m => exact (hpre 0 (by omega) h0).elim
    · rw [if_neg h0]
      by_cases hkey : (t (probe index i)).key = key
      · rw [if_pos hkey]
        exact ⟨fun _ => ⟨0, by omega, hkey, by omega⟩, fun _ => rfl⟩
      · rw [if_neg hkey, ih (i + 1)]
        constructor
        · rintro ⟨m, hm, hfound, hpre⟩
          refine ⟨m + 1, by omega, ?_, ?_⟩
          · rw [show i + (m + 1) = i + 1 + m by omega]
            exact hfound
          · intro i' hi'
            cases i' with
            | zero => exact h0
            | succ i' =>
              rw [show i + (i' + 1) = i + 1 + i' by omega]
              exact hpre i' (by omega)
        · rintro ⟨m, hm, hfound, hpre⟩
          cases m with
          | zero => exact (hkey hfound).elim
          | succ m =>
            refine ⟨m, by omega, ?_, ?_⟩
            · rw [show i + 1 + m = i + (m + 1) by omega]
              exact hfound
            · intro i' hi'
              rw [show i + 1 + i' = i + (i' + 1) by omega]
              exact hpre (i' + 1) (by omega)

theorem contains_tombstone (t : Registry) :
    aoRegistryContains t aoRegistryTombstone = true ↔ ReachesTombstone t := by
  have h := lookupLoop_isSome t aoRegistryTombstone 0 (by decide) aoRegistryCapacity 0
  simp only [Nat.zero_add] at h
  exact h

theorem contains_ordinary {t : Registry} {m : BlockMap} (h : Represents t m) {p : ℕ}
    (hp : 2 ≤ p) :
    aoRegistryContains t p = true ↔ ∃ j < aoRegistryCapacity, ∃ v, decode (t j) = .live p v := by
  rw [aoRegistryContains, lookup_spec h p hp, Option.isSome_iff_exists]
  constructor
  · rintro ⟨v, hv⟩
    obtain ⟨j, hj⟩ := (h.binds p v).mp hv
    exact ⟨j.val, j.isLt, v, hj⟩
  · rintro ⟨j, hj, v, hv⟩
    exact ⟨v, (h.binds p v).mpr ⟨⟨j, hj⟩, hv⟩⟩

/-! ### Every touched registry represents some map -/

theorem removeLoop_tombstone_view (t : Registry) (index n i : ℕ) :
    view (removeLoop t aoRegistryTombstone index n i).2 = view t := by
  induction n generalizing i with
  | zero => rfl
  | succ n ih =>
    rw [removeLoop]
    split
    · rfl
    · split
      · rename_i _ hkey
        funext a
        by_cases ha : a.val = probe index i
        · simp only [view, ha, Function.update_self, decode, hkey, one_ne_zero, ite_true,
            ite_false]
        · simp only [view, Function.update_of_ne ha]
      · exact ih (i + 1)

theorem represents_remove {t : Registry} {m : BlockMap} (h : Represents t m) {ptr : ℕ}
    (hp : ptr ≠ 0) : ∃ m', Represents (aoRegistryRemoveLocked t ptr).2 m' := by
  by_cases h1 : ptr = 1
  · subst h1
    have hv := removeLoop_tombstone_view t (aoRegistryIndexFor 1) aoRegistryCapacity 0
    refine ⟨m, ?_, ?_⟩
    · rw [aoRegistryRemoveLocked, hv]
      exact h.sound
    · rw [aoRegistryRemoveLocked, hv]
      exact h.binds
  · exact ⟨_, (remove_spec h ptr (by omega)).2⟩

theorem represents_insert {t : Registry} {m : BlockMap} (h : Represents t m) {ans : ℕ}
    (ha : 2 ≤ ans) (size id : ℕ) : ∃ m', Represents (aoRegistryInsertLocked t ans size id).2 m' := by
  rcases insert_spec h ans size id ha with ⟨_, _, heq⟩ | ⟨_, _, hrep⟩
  · rw [heq]
    exact ⟨m, h⟩
  · exact ⟨_, hrep⟩

/-- What `Touched` keeps. -/
structure Usable (c : Core) : Prop where
  outside : c.inResolver = false
  noNull : 0 ∉ c.heap
  represents : ∃ m, Represents c.registry m

theorem usable_foreign {c : Core} (h : Usable c) (ptr size ans : ℕ) :
    Usable (c.foreign ptr size ans) := by
  have hne : 0 ∉ c.heap.erase ptr := fun hm => h.noNull (Finset.mem_of_mem_erase hm)
  unfold Core.foreign
  split
  · split
    · exact ⟨h.outside, hne, h.represents⟩
    · exact h
  · rename_i ha
    refine ⟨h.outside, ?_, h.represents⟩
    intro hm
    rcases Finset.mem_insert.mp hm with heq | hold
    · exact ha heq.symm
    · exact hne hold

theorem usable_effect {c c' : Core} {call : Call} {ans ret : ℕ} (h : Usable c)
    (hans : 16 ∣ ans) (he : Effect c call ans ret c') : Usable c' := by
  have hge : ans ≠ 0 → 2 ≤ ans := by omega
  have hne : ∀ ptr, 0 ∉ c.heap.erase ptr := fun ptr hm => h.noNull (Finset.mem_of_mem_erase hm)
  have hins : ∀ (heap : Finset ℕ), ans ≠ 0 → 0 ∉ heap → 0 ∉ insert ans heap := by
    intro heap ha hn hm
    rcases Finset.mem_insert.mp hm with heq | hold
    · exact ha heq.symm
    · exact hn hold
  obtain ⟨m, hm⟩ := h.represents
  cases he with
  | failed | bootstrap | kept | ignored | control => exact h
  | created _ _ size _ ha _ =>
    exact ⟨h.outside, hins _ ha h.noNull, represents_insert hm (hge ha) size _⟩
  | untracked ptr size _ _ _ => exact usable_foreign h ptr size ans
  | libcRealloc ptr size _ => exact usable_foreign h ptr size ans
  | shrunkAway ptr old hp _ => exact ⟨h.outside, hne ptr, represents_remove hm hp.1⟩
  | moved ptr size _ old hp ha _ _ =>
    obtain ⟨m', hm'⟩ := represents_remove hm hp.1
    exact ⟨h.outside, hins _ ha (hne ptr), represents_insert hm' (hge ha) size old.2⟩
  | bypassed ptr _ hp _ => exact ⟨h.outside, hne ptr, represents_remove hm hp.1⟩
  | released ptr _ v hp _ => exact ⟨h.outside, hne ptr, represents_remove hm hp.1⟩
  | libcFree ptr _ _ hc =>
    rcases hc with ⟨heq, _⟩ | heq
    · rw [heq]
      exact h
    · rw [heq]
      exact ⟨h.outside, hne ptr, h.represents⟩

theorem usable_run {ld : Loader} {s : State} (h : Touched ld s) : Usable (core s) := by
  induction h with
  | start b heap hn => exact ⟨rfl, hn, _, represents_empty⟩
  | step s s' c ans ret _ hans hs ih =>
    exact usable_effect ih hans (step_effect ih.outside ih.noNull hs)

/-! ### The result -/

theorem isTracked_ge {s : State} {p : ℕ} (h : IsTracked s p) : 2 ≤ p := by
  obtain ⟨j, hj, v, hv⟩ := h
  have hview : view s.registry ⟨j, hj⟩ = .live p v := hv
  exact (view_live_key hview).2

/-- For a well-behaved program the live slots are the blocks of the ledger. -/
theorem isTracked_iff_ledger {ld : Loader} {s : State} {L : Ledger} (h : Reachable ld s L)
    (p : ℕ) : IsTracked s p ↔ p ∈ L.blocks := by
  have hrep : Represents s.registry L.map := (tracks_run h).represents
  rw [← AssocTotal.lookup_ne_none, Option.ne_none_iff_exists']
  constructor
  · rintro ⟨j, hj, v, hv⟩
    exact ⟨v, (hrep.binds p v).mpr ⟨⟨j, hj⟩, hv⟩⟩
  · rintro ⟨v, hv⟩
    obtain ⟨j, hj⟩ := (hrep.binds p v).mp hv
    exact ⟨j.val, j.isLt, v, hj⟩

/-- In every touched state and for every pointer value, both queries are exact
unless the pointer is the tombstone marker and its walk meets a removed slot. -/
theorem ownership_exact_iff {ld : Loader} {s : State} (h : Touched ld s) (p : ℕ) :
    ((aoAllocBridgeOwns s p = true ↔ IsTracked s p) ∧
      (aoMockIsTrackedAllocation s p = true ↔ IsTracked s p)) ↔
    ¬ (p = aoRegistryTombstone ∧ ReachesTombstone s.registry) := by
  obtain ⟨m, hm⟩ := (usable_run h).represents
  have hrep : Represents s.registry m := hm
  have howns : aoAllocBridgeOwns s p = aoMockIsTrackedAllocation s p := rfl
  rw [howns, and_self, aoMockIsTrackedAllocation]
  by_cases h0 : p = 0
  · subst h0
    have hnot : ¬ IsTracked s 0 := fun ht => by
      have hge := isTracked_ge ht
      omega
    simp [hnot]
  · rw [if_neg h0]
    by_cases h1 : p = 1
    · subst h1
      have hnot : ¬ IsTracked s 1 := fun ht => by
        have hge := isTracked_ge ht
        omega
      rw [contains_tombstone]
      simp [hnot]
    · have hne : ¬ (p = aoRegistryTombstone ∧ ReachesTombstone s.registry) := fun hc => h1 hc.1
      simp only [hne, not_false_eq_true, iff_true]
      exact contains_ordinary hrep (by omega)

theorem ownership_exact_sample : ∃ s, Touched sampleLoader s ∧
    (aoAllocBridgeOwns s 1048584 = true ↔ IsTracked s 1048584) := by
  have h0 : Touched sampleLoader _ := .start sampleBootstrap ∅ (by decide)
  have h1 := Touched.step _ _ (.malloc 8) 1048576 _ h0 (by decide) rfl
  exact ⟨_, h1, ((ownership_exact_iff h1 1048584).mpr fun hc => absurd hc.1 (by decide)).1⟩

/-- One block whose home is slot 0, allocated and freed: the query then claims
the pointer value 1. -/
theorem ownership_of_tombstone : ¬ ∀ s, Touched sampleLoader s → ∀ p,
    (aoAllocBridgeOwns s p = true ↔ IsTracked s p) ∧
      (aoMockIsTrackedAllocation s p = true ↔ IsTracked s p) := by
  intro hall
  have h0 : Touched sampleLoader _ := .start sampleBootstrap ∅ (by decide)
  have h1 := Touched.step _ _ (.malloc 8) 1048576 _ h0 (by decide) rfl
  have h2 := Touched.step _ _ (.free 1048576) 0 _ h1 (by decide) rfl
  have howned := (hall _ h2 1).1.mp (by decide)
  have hge := isTracked_ge howned
  omega

end LibcOverride.MockAllocator

import LibcOverride.MockAllocator.Registry

/-!
# The registry as a finite map

`Represents t m` ties an array to the finite map it stores. Each locked
operation has one specification lemma over it; the refinement theorem runs an
arbitrary operation sequence on the array and on the map side by side.
-/

namespace LibcOverride.MockAllocator
open ProbeTable

/-- Size and allocation id of every bound key. -/
abbrev BlockMap := ℕ → Option (ℕ × ℕ)

structure Represents (t : Registry) (m : BlockMap) : Prop where
  sound : Sound walk (view t)
  binds : Binds (view t) m

/-- Every slot is taken: the state in which an absent key has no place. -/
def Full (m : BlockMap) : Prop := {k | m k ≠ none}.ncard = aoRegistryCapacity

theorem represents_empty : Represents emptyRegistry (fun _ => none) := by
  refine ⟨?_, ?_⟩
  · rw [view_emptyRegistry]
    exact sound_empty walk
  · rw [view_emptyRegistry]
    exact binds_empty

theorem view_live_key {t : Registry} {j : Fin aoRegistryCapacity} {k : ℕ} {v : ℕ × ℕ}
    (h : view t j = .live k v) : (t j).key = k ∧ 2 ≤ k := by
  simp only [view, decode] at h
  split_ifs at h with h0 h1
  injection h with hk hv
  have h0' : (t j).key ≠ 0 := h0
  have h1' : (t j).key ≠ 1 := h1
  exact ⟨hk, by omega⟩

theorem full_iff {t : Registry} {m : BlockMap} (h : Represents t m) :
    Full m ↔ ∀ j, ∃ k v, view t j = .live k v := by
  rw [full_iff_ncard h.sound h.binds, Fintype.card_fin]
  rfl

theorem represents_ncard_le {t : Registry} {m : BlockMap} (h : Represents t m) :
    {k | m k ≠ none}.ncard ≤ aoRegistryCapacity := by
  have hle := ncard_le h.sound h.binds
  rwa [Fintype.card_fin] at hle

/-- Each bound key sits in one slot of the array. -/
theorem represents_unique {t : Registry} {m : BlockMap} (h : Represents t m) (a b : ℕ)
    (ha : a < aoRegistryCapacity) (hb : b < aoRegistryCapacity) (hk : 2 ≤ (t a).key)
    (heq : (t a).key = (t b).key) : a = b := by
  have hlive : ∀ (c : ℕ) (hc : c < aoRegistryCapacity), (t c).key = (t a).key →
      view t ⟨c, hc⟩ = .live (t a).key ((t c).requestedSize, (t c).allocationId) := by
    intro c hc hkc
    have h0 : (t a).key ≠ 0 := by omega
    have h1 : (t a).key ≠ 1 := by omega
    simp only [view, decode, hkc, h0, h1, ite_false]
  have hs := h.sound.unique ⟨a, ha⟩ ⟨b, hb⟩ _ _ _ (hlive a ha rfl) (hlive b hb heq.symm)
  exact congrArg Fin.val hs

/-! ### Specification of the three operations -/

theorem lookup_spec {t : Registry} {m : BlockMap} (h : Represents t m) (k : ℕ) (hk : 2 ≤ k) :
    aoRegistryLookupLocked t k = m k := by
  rw [aoRegistryLookupLocked, lookupLoop_eq t k hk]
  exact find_value h.sound h.binds k

theorem remove_spec {t : Registry} {m : BlockMap} (h : Represents t m) (k : ℕ) (hk : 2 ≤ k) :
    (aoRegistryRemoveLocked t k).1 = m k ∧
      Represents (aoRegistryRemoveLocked t k).2 (Function.update m k none) := by
  have hfind := find_value h.sound h.binds k
  rw [aoRegistryRemoveLocked, removeLoop_eq t k hk]
  change _ ∧ _
  cases hf : findFrom walk (view t) k aoRegistryCapacity 0 with
  | none =>
    have hm : m k = none := by
      rw [← hfind, find, hf]
      rfl
    refine ⟨hm.symm, ?_⟩
    have hid : Function.update m k none = m := by
      rw [← hm, Function.update_eq_self]
    rw [hid]
    exact h
  | some p =>
    obtain ⟨j, v⟩ := p
    have hm : m k = some v := by
      rw [← hfind, find, hf]
      rfl
    have hj : view t j = .live k v := findFrom_some hf
    refine ⟨hm.symm, ?_, ?_⟩
    · rw [view_update, decode_tombstone]
      exact sound_mark h.sound j
    · rw [view_update, decode_tombstone]
      exact binds_mark h.sound h.binds hj

theorem insert_spec {t : Registry} {m : BlockMap} (h : Represents t m) (k size id : ℕ)
    (hk : 2 ≤ k) :
    (m k = none ∧ Full m ∧ aoRegistryInsertLocked t k size id = (false, t)) ∨
    (¬ (m k = none ∧ Full m) ∧ (aoRegistryInsertLocked t k size id).1 = true ∧
      Represents (aoRegistryInsertLocked t k size id).2
        (Function.update m k (some (size, id)))) := by
  rw [aoRegistryInsertLocked, insertLoop_eq t k size id hk _ _ _ le_rfl, markOf_capacity]
  have hnone := target_none h.sound k
  rw [target] at hnone
  rw [full_iff h, binds_none h.binds k]
  cases ht : targetFrom walk (view t) k aoRegistryCapacity 0 none with
  | none =>
    obtain ⟨hfull, ha⟩ := hnone.mp ht
    exact Or.inl ⟨ha, hfull, rfl⟩
  | some j =>
    have hput := target_some h.sound ht
    refine Or.inr ⟨?_, rfl, ?_, ?_⟩
    · rintro ⟨ha, hfull⟩
      rw [hnone.mpr ⟨hfull, ha⟩] at ht
      cases ht
    · rw [view_update, decode_live k size id hk]
      exact sound_put h.sound (size, id) hput
    · rw [view_update, decode_live k size id hk]
      exact binds_put h.sound h.binds (size, id) hput

/-- A slot freed by a removal is there for the next insertion: this is why
`realloc` cannot exhaust the registry. -/
theorem not_full_of_remove {t : Registry} {m : BlockMap} (h : Represents t m) {k : ℕ}
    (hk : m k ≠ none) : ¬ Full (Function.update m k none) := by
  have hle := represents_ncard_le h
  have hfin : {a | m a ≠ none}.Finite := by
    have hcard := ncard_bound h.sound h.binds
    by_contra hinf
    have hsub : {j | ∃ a v, view t j = .live a v}.ncard = 0 := by
      rw [← hcard]
      exact Set.Infinite.ncard hinf
    obtain ⟨v, hv⟩ := Option.ne_none_iff_exists'.mp hk
    obtain ⟨j, hj⟩ := (h.binds k v).mp hv
    have hempty := (Set.ncard_eq_zero (Set.toFinite _)).mp hsub
    exact Set.notMem_empty j (hempty ▸ ⟨k, v, hj⟩)
  have hsub : {a | Function.update m k none a ≠ none} ⊂ {a | m a ≠ none} := by
    refine ⟨?_, ?_⟩
    · intro a ha
      by_cases hak : a = k
      · subst hak
        exact hk
      · have ha' : Function.update m k none a ≠ none := ha
        rwa [Function.update_of_ne hak] at ha'
    · intro hback
      have hself : Function.update m k none k ≠ none := hback hk
      exact hself (Function.update_self ..)
  have hlt := Set.ncard_lt_ncard hsub hfin
  intro hfull
  rw [Full] at hfull
  omega

/-! ### Runs -/

inductive RegistryOp where
  | insert (key size id : ℕ)
  | lookup (key : ℕ)
  | remove (key : ℕ)
  deriving Repr, DecidableEq

def RegistryOp.key : RegistryOp → ℕ
  | .insert k _ _ => k
  | .lookup k => k
  | .remove k => k

inductive RegistryAnswer where
  | inserted (ok : Bool)
  | found (v : Option (ℕ × ℕ))
  | removed (v : Option (ℕ × ℕ))
  deriving Repr, DecidableEq

def registryStep (t : Registry) : RegistryOp → RegistryAnswer × Registry
  | .insert k size id =>
    (.inserted (aoRegistryInsertLocked t k size id).1, (aoRegistryInsertLocked t k size id).2)
  | .lookup k => (.found (aoRegistryLookupLocked t k), t)
  | .remove k => (.removed (aoRegistryRemoveLocked t k).1, (aoRegistryRemoveLocked t k).2)

def registryRun (t : Registry) : List RegistryOp → List RegistryAnswer × Registry
  | [] => ([], t)
  | op :: ops =>
    ((registryStep t op).1 :: (registryRun (registryStep t op).2 ops).1,
      (registryRun (registryStep t op).2 ops).2)

open Classical in
/-- What the registry is for: a finite map that refuses a new key only when
65536 keys are bound. -/
noncomputable def mapStep (m : BlockMap) : RegistryOp → RegistryAnswer × BlockMap
  | .insert k size id =>
    if m k = none ∧ Full m then (.inserted false, m)
    else (.inserted true, Function.update m k (some (size, id)))
  | .lookup k => (.found (m k), m)
  | .remove k => (.removed (m k), Function.update m k none)

noncomputable def mapRun (m : BlockMap) : List RegistryOp → List RegistryAnswer × BlockMap
  | [] => ([], m)
  | op :: ops =>
    ((mapStep m op).1 :: (mapRun (mapStep m op).2 ops).1, (mapRun (mapStep m op).2 ops).2)

theorem registryStep_refines {t : Registry} {m : BlockMap} (h : Represents t m) (op : RegistryOp)
    (hk : 2 ≤ op.key) :
    (registryStep t op).1 = (mapStep m op).1 ∧
      Represents (registryStep t op).2 (mapStep m op).2 := by
  cases op with
  | insert k size id =>
    simp only [registryStep, mapStep]
    rcases insert_spec h k size id hk with ⟨hm, hfull, heq⟩ | ⟨hroom, hok, hrep⟩
    · rw [if_pos ⟨hm, hfull⟩, heq]
      exact ⟨rfl, h⟩
    · rw [if_neg hroom, hok]
      exact ⟨rfl, hrep⟩
  | lookup k =>
    simp only [registryStep, mapStep, lookup_spec h k hk]
    exact ⟨trivial, h⟩
  | remove k =>
    have hr := remove_spec h k hk
    simp only [registryStep, mapStep, hr.1]
    exact ⟨trivial, hr.2⟩

theorem registryRun_refines {t : Registry} {m : BlockMap} (h : Represents t m)
    (ops : List RegistryOp) (hk : ∀ op ∈ ops, 2 ≤ op.key) :
    (registryRun t ops).1 = (mapRun m ops).1 ∧
      Represents (registryRun t ops).2 (mapRun m ops).2 := by
  induction ops generalizing t m with
  | nil => exact ⟨rfl, h⟩
  | cons op ops ih =>
    obtain ⟨hans, hrep⟩ := registryStep_refines h op (hk op (List.mem_cons_self ..))
    obtain ⟨hrest, hend⟩ := ih hrep (fun o ho => hk o (List.mem_cons_of_mem _ ho))
    simp only [registryRun, mapRun, hans, hrest]
    exact ⟨trivial, hend⟩

/-- The registry refines a finite map: after every operation sequence the
answers are those of the map, each key occupies one slot, a lookup and a
removal answer from the map for every key, and an insertion fails, leaving the
array as it was, exactly when its key is absent and 65536 keys are bound. -/
theorem registry_refines_map (ops : List RegistryOp) (hops : ∀ op ∈ ops, 2 ≤ op.key) :
    let t := (registryRun emptyRegistry ops).2
    let m := (mapRun (fun _ => none) ops).2
    (registryRun emptyRegistry ops).1 = (mapRun (fun _ => none) ops).1 ∧
    (∀ a b, a < aoRegistryCapacity → b < aoRegistryCapacity →
      2 ≤ (t a).key → (t a).key = (t b).key → a = b) ∧
    (∀ k, 2 ≤ k → aoRegistryLookupLocked t k = m k) ∧
    (∀ k, 2 ≤ k → (aoRegistryRemoveLocked t k).1 = m k ∧
      ∀ k', 2 ≤ k' → aoRegistryLookupLocked (aoRegistryRemoveLocked t k).2 k' =
        if k' = k then none else m k') ∧
    (∀ k size id, 2 ≤ k →
      ((aoRegistryInsertLocked t k size id).1 = false ↔
        m k = none ∧ {a | m a ≠ none}.ncard = 65536) ∧
      ((aoRegistryInsertLocked t k size id).1 = false →
        (aoRegistryInsertLocked t k size id).2 = t) ∧
      ((aoRegistryInsertLocked t k size id).1 = true → ∀ k', 2 ≤ k' →
        aoRegistryLookupLocked (aoRegistryInsertLocked t k size id).2 k' =
          if k' = k then some (size, id) else m k')) := by
  intro t m
  obtain ⟨hans, hrep⟩ := registryRun_refines represents_empty ops hops
  refine ⟨hans, represents_unique hrep, lookup_spec hrep, ?_, ?_⟩
  · intro k hk
    obtain ⟨hv, hrep'⟩ := remove_spec hrep k hk
    refine ⟨hv, fun k' hk' => ?_⟩
    rw [lookup_spec hrep' k' hk', Function.update_apply]
  · intro k size id hk
    rcases insert_spec hrep k size id hk with ⟨hm, hfull, heq⟩ | ⟨hroom, hok, hrep'⟩
    · rw [heq]
      exact ⟨⟨fun _ => ⟨hm, hfull⟩, fun _ => rfl⟩, fun _ => rfl, fun hc => by cases hc⟩
    · refine ⟨⟨fun hc => ?_, fun hc => (hroom hc).elim⟩, fun hc => ?_, fun _ k' hk' => ?_⟩
      · rw [hok] at hc
        cases hc
      · rw [hok] at hc
        cases hc
      · rw [lookup_spec hrep' k' hk', Function.update_apply]

/-- Two keys with the same home slot, the first one removed again. -/
def sampleOps : List RegistryOp :=
  [.insert 1048576 8 1, .insert 2097152 16 2, .remove 1048576, .lookup 2097152]

theorem registry_refines_map_sample :
    (registryRun emptyRegistry sampleOps).1 = (mapRun (fun _ => none) sampleOps).1 ∧
      aoRegistryLookupLocked (registryRun emptyRegistry sampleOps).2 2097152 = some (16, 2) :=
  ⟨(registry_refines_map sampleOps (by decide)).1, by decide⟩

end LibcOverride.MockAllocator

import LibcOverride.MockAllocator.Calls

/-!
# What one call can do to the tracked state

`step_effect` is the inversion lemma of the model: every way in which a call
made outside the resolver can return, with the change of registry, live
counters, id counter and real heap. All invariants are derived from it.
-/

namespace LibcOverride.MockAllocator
open Word

/-- A fresh block enters the registry under the next allocation id. -/
def Core.track (c : Core) (ptr : ℕ) (size : ℕ) : Core :=
  { c with
    registry := (aoRegistryInsertLocked c.registry ptr size c.nextAllocationId).2
    liveBlocks := add c.liveBlocks 1
    liveBytes := add c.liveBytes size
    nextAllocationId := add c.nextAllocationId 1
    heap := insert ptr c.heap }

def Core.untrack (c : Core) (ptr : ℕ) (size : ℕ) : Core :=
  { c with
    registry := (aoRegistryRemoveLocked c.registry ptr).2
    liveBlocks := sub c.liveBlocks 1
    liveBytes := sub c.liveBytes size
    heap := c.heap.erase ptr }

/-- `ao_live_update` on the byte counter alone. -/
def liveUpdated (bytes oldSize newSize : ℕ) : ℕ :=
  if newSize > oldSize then add bytes (newSize - oldSize)
  else if oldSize > newSize then sub bytes (oldSize - newSize)
  else bytes

/-- A tracked block moves from `ptr` to `ans` and keeps its id. -/
def Core.retrack (c : Core) (ptr ans : ℕ) (old : ℕ × ℕ) (size : ℕ) : Core :=
  { c with
    registry := (aoRegistryInsertLocked (aoRegistryRemoveLocked c.registry ptr).2 ans size old.2).2
    liveBytes := liveUpdated c.liveBytes old.1 size
    heap := insert ans (c.heap.erase ptr) }

/-- The heap after a `realloc` that the registry does not see. -/
def Core.foreign (c : Core) (ptr : ℕ) (size : ℕ) (ans : ℕ) : Core :=
  if ans = 0 then if size = 0 then { c with heap := c.heap.erase ptr } else c
  else { c with heap := insert ans (c.heap.erase ptr) }

/-- A pointer that is neither NULL nor inside the bootstrap heap. -/
def Core.Ordinary (c : Core) (ptr : ℕ) : Prop :=
  ptr ≠ 0 ∧ ¬ (c.base ≤ ptr ∧ ptr < c.base + aoBootstrapHeapSize)

/-- The size a call asks a new tracked block for, when it can create one. -/
def Call.creates : Call → Option ℕ
  | .malloc size => some size
  | .calloc nmemb size => some (nmemb * size)
  | .realloc ptr size => if ptr = 0 then some size else none
  | _ => none

inductive Effect (c : Core) : Call → ℕ → ℕ → Core → Prop where
  | failed (call : Call) (ans : ℕ) (size : ℕ) (hc : call.creates = some size) :
      Effect c call ans 0 c
  | created (call : Call) (ans : ℕ) (size : ℕ) (hc : call.creates = some size) (ha : ans ≠ 0)
      (hi : (aoRegistryInsertLocked c.registry ans size c.nextAllocationId).1 = true) :
      Effect c call ans ans (c.track ans size)
  | bootstrap (ptr : ℕ) (size : ℕ) (ans ret : ℕ) (hp : ptr ≠ 0)
      (hb : c.base ≤ ptr ∧ ptr < c.base + aoBootstrapHeapSize) :
      Effect c (.realloc ptr size) ans ret c
  | untracked (ptr : ℕ) (size : ℕ) (ans : ℕ) (hp : c.Ordinary ptr)
      (hl : aoRegistryLookupLocked c.registry ptr = none) :
      Effect c (.realloc ptr size) ans ans (c.foreign ptr size ans)
  | kept (ptr : ℕ) (size : ℕ) (old : ℕ × ℕ) (hp : c.Ordinary ptr) (hs : size ≠ 0)
      (hl : aoRegistryLookupLocked c.registry ptr = some old) :
      Effect c (.realloc ptr size) 0 0 c
  | shrunkAway (ptr : ℕ) (old : ℕ × ℕ) (hp : c.Ordinary ptr)
      (hl : aoRegistryLookupLocked c.registry ptr = some old) :
      Effect c (.realloc ptr 0) 0 0 (c.untrack ptr old.1)
  | moved (ptr : ℕ) (size : ℕ) (ans : ℕ) (old : ℕ × ℕ) (hp : c.Ordinary ptr) (ha : ans ≠ 0)
      (hl : aoRegistryLookupLocked c.registry ptr = some old)
      (hi : (aoRegistryInsertLocked (aoRegistryRemoveLocked c.registry ptr).2 ans size old.2).1
        = true) :
      Effect c (.realloc ptr size) ans ans (c.retrack ptr ans old size)
  | ignored (ptr ans : ℕ) (hp : ptr = 0 ∨ c.base ≤ ptr ∧ ptr < c.base + aoBootstrapHeapSize) :
      Effect c (.free ptr) ans 0 c
  | bypassed (ptr ans : ℕ) (hp : c.Ordinary ptr)
      (hr : (aoRegistryRemoveLocked c.registry ptr).1 = none) :
      Effect c (.free ptr) ans 0
        { c with registry := (aoRegistryRemoveLocked c.registry ptr).2, heap := c.heap.erase ptr }
  | released (ptr ans : ℕ) (v : ℕ × ℕ) (hp : c.Ordinary ptr)
      (hr : (aoRegistryRemoveLocked c.registry ptr).1 = some v) :
      Effect c (.free ptr) ans 0 (c.untrack ptr v.1)
  | libcFree (ptr ans : ℕ) (c' : Core)
      (hc : c' = c ∧ ptr = 0 ∨ c' = { c with heap := c.heap.erase ptr }) :
      Effect c (.libcFree ptr) ans 0 c'
  | libcRealloc (ptr : ℕ) (size : ℕ) (ans : ℕ) :
      Effect c (.libcRealloc ptr size) ans ans (c.foreign ptr size ans)
  | control (call : Call) (ans : ℕ)
      (hc : call = .reset ∨ call = .beginCapture ∨ call = .endCapture) : Effect c call ans 0 c

/-! ### The resolver touches only the bootstrap heap -/

theorem core_withBootstrap (s : State) (r : ℕ × Bootstrap)
    (h : r.2.base = s.bootstrap.base) : core (withBootstrap s r).2 = core s := by
  simp only [core, withBootstrap, h]

theorem core_bootstrapRealloc (s : State) (ptr : ℕ) (size : ℕ) :
    core (bootstrapRealloc s ptr size).2 = core s :=
  core_withBootstrap s _ (aoBootstrapRealloc_base s.bootstrap ptr size)

theorem core_resolverCall (s : State) (r : Request) : core (resolverCall s r) = core s := by
  cases r with
  | malloc size => exact core_withBootstrap s _ (aoBootstrapAlloc_base s.bootstrap size)
  | calloc nmemb size =>
    simp only [resolverCall, resolverCalloc]
    split
    · exact core_withBootstrap s _ (aoBootstrapAlloc_base s.bootstrap _)
    · exact core_withBootstrap s _ (aoBootstrapAlloc_base s.bootstrap _)
  | realloc ptr size => exact core_bootstrapRealloc s ptr size
  | free ptr => rfl

theorem core_resolverCalls (rs : List Request) (s : State) :
    core (rs.foldl resolverCall s) = core s := by
  induction rs generalizing s with
  | nil => rfl
  | cons r rs ih => rw [List.foldl_cons, ih, core_resolverCall]

theorem core_inResolver {s s' : State} (h : core s' = core s) (b : Bool) :
    core { s' with inResolver := b } = core { s with inResolver := b } := by
  simp only [core, Core.mk.injEq] at h ⊢
  exact ⟨h.1, h.2.1, h.2.2.1, h.2.2.2.1, h.2.2.2.2.1, h.2.2.2.2.2.1, trivial⟩

theorem ensure_core {ld : Loader} {s s' : State} {u : Unit} (hr : s.inResolver = false)
    (h : aoEnsureRealFunctions ld s = .ret u s') : core s' = core s := by
  unfold aoEnsureRealFunctions at h
  split at h
  · cases h
    rfl
  · unfold aoResolveRealFunctions at h
    dsimp only at h
    split at h
    · cases h
      have hfold := core_resolverCalls ld.requests { s with resolved := true, inResolver := true }
      rw [core_inResolver hfold false]
      simp only [core, hr]
    · cases h

theorem ensure_exit {ld : Loader} {s : State} {why : Fatal}
    (h : aoEnsureRealFunctions ld s = .exit why) : why = .unresolved := by
  unfold aoEnsureRealFunctions at h
  split at h
  · cases h
  · unfold aoResolveRealFunctions at h
    dsimp only at h
    split at h
    · cases h
    · cases h
      rfl

theorem core_registry {s s' : State} (h : core s' = core s) : s'.registry = s.registry :=
  congrArg Core.registry h

/-! ### One lemma for each function -/

theorem track_core {s s' : State} {ptr : ℕ} {size : ℕ} {u : Unit}
    (h : aoTrackAllocationOrDie s ptr size = .ret u s') :
    (aoRegistryInsertLocked s.registry ptr size s.nextAllocationId).1 = true ∧
      core s' = { (core s).track ptr size with heap := s.heap } := by
  unfold aoTrackAllocationOrDie at h
  dsimp only [aoNextAllocationId] at h
  split at h
  · cases h
  · rename_i hi
    cases h
    exact ⟨by simpa using hi, rfl⟩

theorem track_exit {s : State} {ptr : ℕ} {size : ℕ} {why : Fatal}
    (h : aoTrackAllocationOrDie s ptr size = .exit why) : why = .exhausted := by
  unfold aoTrackAllocationOrDie at h
  dsimp only [aoNextAllocationId] at h
  split at h
  · cases h
    rfl
  · cases h

theorem core_realAlloc_null (s : State) {ans : ℕ} (ha : ans = 0) :
    core (realAlloc s ans) = core s := by
  rw [ha]
  rfl

theorem realAlloc_some {s : State} {ans : ℕ} (ha : ans ≠ 0) :
    realAlloc s ans = { s with heap := insert ans s.heap } := if_neg ha

theorem core_realRealloc (s : State) (ptr : ℕ) (size : ℕ) (ans : ℕ) :
    core (realRealloc s ptr size ans) = (core s).foreign ptr size ans := by
  unfold realRealloc Core.foreign
  split
  · split <;> rfl
  · rfl

theorem core_reallocNull_null {s : State} (h0 : 0 ∉ s.heap) (size : ℕ) {ans : ℕ} (ha : ans = 0) :
    core (realRealloc s 0 size ans) = core s := by
  rw [core_realRealloc, Core.foreign, if_pos ha]
  split
  · simp only [core, Finset.erase_eq_of_notMem h0]
  · rfl

theorem reallocNull_some {s : State} (h0 : 0 ∉ s.heap) (size : ℕ) {ans : ℕ} (ha : ans ≠ 0) :
    realRealloc s 0 size ans = { s with heap := insert ans s.heap } := by
  rw [realRealloc, if_neg ha, Finset.erase_eq_of_notMem h0]

/-- The common tail of the functions that create a tracked block; `s1` is `s`
after the real allocator answered `ans`. -/
theorem create_effect {s0 s s1 s' : State} {call : Call} {size kind : ℕ} {ans ret : ℕ}
    (hc : call.creates = some size) (hs : core s = core s0) (hnull : ans = 0 → core s1 = core s)
    (hsome : ans ≠ 0 → s1 = { s with heap := insert ans s.heap })
    (h : (if ans = 0 then .ret 0 (aoRecordFailedAllocation s1)
      else (aoTrackAllocationOrDie s1 ans size).bind fun _ s =>
        .ret ans (aoRecordSuccessfulAllocation s kind size)) = Outcome.ret ret s') :
    Effect (core s0) call ans ret (core s') := by
  by_cases ha : ans = 0
  · rw [if_pos ha] at h
    cases h
    rw [core_recordFailed, hnull ha, hs]
    exact Effect.failed call ans size hc
  · rw [if_neg ha, hsome ha] at h
    obtain ⟨u, s2, ht, hk⟩ := Outcome.bind_eq_ret h
    obtain ⟨hi, hcore⟩ := track_core ht
    cases hk
    rw [core_recordSuccessful, hcore, ← hs]
    exact Effect.created call ans size hc ha hi

theorem malloc_effect {ld : Loader} {s s' : State} {size : ℕ} {ans ret : ℕ}
    (hr : s.inResolver = false) (h : malloc ld s size ans = .ret ret s') :
    Effect (core s) (.malloc size) ans ret (core s') := by
  simp only [malloc, hr, Bool.false_eq_true, ite_false] at h
  obtain ⟨u, s1, he, hk⟩ := Outcome.bind_eq_ret h
  exact create_effect rfl (ensure_core hr he) (core_realAlloc_null s1) realAlloc_some hk

/-- Past the overflow guard the product is exact. -/
theorem calloc_mul {nmemb size : ℕ} (h : ¬ (nmemb ≠ 0 ∧ size > sizeMax / nmemb)) :
    mul nmemb size = nmemb * size := by
  rw [mul]
  apply Nat.mod_eq_of_lt
  by_cases hn : nmemb = 0
  · subst hn
    simp
  · have hle : size ≤ sizeMax / nmemb := by
      by_contra hgt
      exact h ⟨hn, by omega⟩
    have hmul := (Nat.le_div_iff_mul_le (Nat.pos_of_ne_zero hn)).mp hle
    rw [Nat.mul_comm] at hmul
    have hmax : sizeMax < 2 ^ 64 := by decide
    omega

theorem calloc_effect {ld : Loader} {s s' : State} {nmemb size : ℕ} {ans ret : ℕ}
    (hr : s.inResolver = false) (h : calloc ld s nmemb size ans = .ret ret s') :
    Effect (core s) (.calloc nmemb size) ans ret (core s') := by
  rw [calloc, if_neg (by simp [hr])] at h
  split at h
  · cases h
    rw [core_recordFailed]
    exact Effect.failed (.calloc nmemb size) ans (nmemb * size) rfl
  · rename_i hov
    rw [calloc_mul hov] at h
    obtain ⟨u, s1, he, hk⟩ := Outcome.bind_eq_ret h
    exact create_effect rfl (ensure_core hr he) (core_realAlloc_null s1) realAlloc_some hk

theorem reallocNull_effect {s0 s s' : State} {size : ℕ} {ans ret : ℕ}
    (hs : core s = core s0) (h0 : 0 ∉ s.heap) (h : reallocNull s size ans = .ret ret s') :
    Effect (core s0) (.realloc 0 size) ans ret (core s') := by
  exact create_effect rfl hs (core_reallocNull_null h0 size) (reallocNull_some h0 size) h

theorem reallocUntracked_effect {s0 s s' : State} {ptr : ℕ} {size : ℕ} {ans ret : ℕ}
    (hs : core s = core s0) (hp : (core s).Ordinary ptr)
    (hl : aoRegistryLookupLocked s.registry ptr = none)
    (h : reallocUntracked s ptr size ans = .ret ret s') :
    Effect (core s0) (.realloc ptr size) ans ret (core s') := by
  rw [← hs]
  simp only [reallocUntracked] at h
  cases h
  have hcore : core (if ans = 0 ∧ size ≠ 0 then
      aoRecordFailedAllocation (realRealloc (aoRecordRealloc s true) ptr size ans)
      else realRealloc (aoRecordRealloc s true) ptr size ans) = (core s).foreign ptr size ans := by
    split
    · rw [core_recordFailed, core_realRealloc, core_recordRealloc]
    · rw [core_realRealloc, core_recordRealloc]
  rw [hcore]
  exact Effect.untracked ptr size ans hp hl

theorem reallocTracked_effect {s0 s s' : State} {ptr : ℕ} {size : ℕ} {old : ℕ × ℕ}
    {ans ret : ℕ} (hs : core s = core s0) (hp : (core s).Ordinary ptr)
    (hl : aoRegistryLookupLocked s.registry ptr = some old)
    (h : reallocTracked s ptr size old ans = .ret ret s') :
    Effect (core s0) (.realloc ptr size) ans ret (core s') := by
  rw [← hs]
  simp only [reallocTracked] at h
  by_cases ha : ans = 0
  · subst ha
    by_cases hz : size = 0
    · subst hz
      simp only [realRealloc, ne_eq, not_true_eq_false, and_false, ite_true, ite_false] at h
      cases h
      have hrec := core_recordRealloc
        { s with heap := s.heap.erase ptr, registry := (aoRegistryRemoveLocked s.registry ptr).2 }
        false
      simp only [core, Core.mk.injEq] at hrec
      have hcore : core (aoLiveRemove (aoRecordRealloc
          { s with heap := s.heap.erase ptr, registry := (aoRegistryRemoveLocked s.registry ptr).2 }
          false) old.1) = (core s).untrack ptr old.1 := by
        simp only [core, Core.untrack, aoLiveRemove, mapStats, hrec]
      rw [hcore]
      exact Effect.shrunkAway ptr old hp hl
    · simp only [ne_eq, hz, not_false_eq_true, and_self, ite_true] at h
      cases h
      rw [core_recordFailed, core_recordRealloc, core_realRealloc]
      simp only [Core.foreign, hz, ite_true, ite_false]
      exact Effect.kept ptr size old hp hz hl
  · simp only [ha, false_and, ite_false, realRealloc] at h
    split at h
    · cases h
    · rename_i hi
      cases h
      have hrec := core_recordRealloc
        { s with
          heap := insert ans (s.heap.erase ptr)
          registry := (aoRegistryInsertLocked (aoRegistryRemoveLocked s.registry ptr).2 ans size
            old.2).2 } false
      simp only [core, Core.mk.injEq] at hrec
      have hcore : core (aoLiveUpdate (aoRecordRealloc
          { s with
            heap := insert ans (s.heap.erase ptr)
            registry := (aoRegistryInsertLocked (aoRegistryRemoveLocked s.registry ptr).2 ans size
              old.2).2 } false) old.1 size) = (core s).retrack ptr ans old size := by
        simp only [core, Core.retrack, aoLiveUpdate, mapStats, liveUpdated]
        split
        · simp only [hrec]
        · split <;> simp only [hrec]
      rw [hcore]
      exact Effect.moved ptr size ans old hp ha hl (Bool.eq_true_of_not_eq_false hi)

theorem reallocTracked_exit {s : State} {ptr size ans : ℕ} {old : ℕ × ℕ} {why : Fatal}
    (h : reallocTracked s ptr size old ans = .exit why) :
    ans ≠ 0 ∧
      (aoRegistryInsertLocked (aoRegistryRemoveLocked s.registry ptr).2 ans size old.2).1
        = false := by
  simp only [reallocTracked] at h
  split at h
  · cases h
  · split at h
    · cases h
    · rename_i hne
      split at h
      · rename_i hi
        simp only [realRealloc, hne, ite_false] at hi
        exact ⟨hne, hi⟩
      · cases h

theorem reallocNull_exit {s : State} {size ans : ℕ} {why : Fatal}
    (h : reallocNull s size ans = .exit why) : why = .exhausted := by
  simp only [reallocNull] at h
  split at h
  · cases h
  · rcases Outcome.bind_eq_exit h with ht | ⟨_, _, _, hk⟩
    · exact track_exit ht
    · cases hk

theorem realloc_effect {ld : Loader} {s s' : State} {ptr : ℕ} {size : ℕ} {ans ret : ℕ}
    (hr : s.inResolver = false) (h0 : 0 ∉ s.heap) (h : realloc ld s ptr size ans = .ret ret s') :
    Effect (core s) (.realloc ptr size) ans ret (core s') := by
  simp only [realloc, hr, Bool.false_eq_true, ite_false] at h
  split at h
  · rename_i hb
    cases h
    rw [core_bootstrapRealloc]
    have hin := of_decide_eq_true hb
    have hp : ptr ≠ 0 := (s.bootstrap.basePos.trans_le hin.1).ne'
    exact Effect.bootstrap ptr size ans _ hp hin
  · rename_i hb
    obtain ⟨u, s1, he, hk⟩ := Outcome.bind_eq_ret h
    have hcore := ensure_core hr he
    have hheap : s1.heap = s.heap := congrArg Core.heap hcore
    by_cases hp : ptr = 0
    · subst hp
      simp only [ite_true] at hk
      exact reallocNull_effect hcore (hheap ▸ h0) hk
    · have ho : (core s1).Ordinary ptr := ⟨hp, hcore ▸ mt decide_eq_true hb⟩
      simp only [hp, ite_false] at hk
      split at hk
      · rename_i hl
        exact reallocUntracked_effect hcore ho hl hk
      · rename_i old hl
        exact reallocTracked_effect hcore ho hl hk

theorem free_effect {ld : Loader} {s s' : State} {ptr ans : ℕ} {u : Unit}
    (hr : s.inResolver = false) (h : free ld s ptr = .ret u s') :
    Effect (core s) (.free ptr) ans 0 (core s') := by
  unfold free at h
  split at h
  · rename_i hp
    cases h
    exact Effect.ignored ptr ans (Or.inl hp)
  · rename_i hp
    split at h
    · rename_i hb
      cases h
      exact Effect.ignored ptr ans (Or.inr (of_decide_eq_true hb))
    · rename_i hb
      simp only [hr, Bool.false_eq_true, ite_false] at h
      obtain ⟨u1, s1, he, hk⟩ := Outcome.bind_eq_ret h
      have hcore := ensure_core hr he
      have ho : (core s1).Ordinary ptr := ⟨hp, hcore ▸ mt decide_eq_true hb⟩
      rw [← hcore]
      cases hrem : (aoRegistryRemoveLocked s1.registry ptr).1 with
      | none =>
        simp only [hrem, Option.isNone_none] at hk
        cases hk
        have hrec := core_recordFree
          { s1 with registry := (aoRegistryRemoveLocked s1.registry ptr).2 } true
        simp only [core, Core.mk.injEq] at hrec
        have heff : Effect (core s1) (.free ptr) ans 0 _ := Effect.bypassed ptr ans ho hrem
        simp only [core, realFree, hrec]
        exact heff
      | some v =>
        simp only [hrem, Option.isNone_some] at hk
        cases hk
        have hrec := core_recordFree
          { s1 with registry := (aoRegistryRemoveLocked s1.registry ptr).2 } false
        simp only [core, Core.mk.injEq] at hrec
        have heff : Effect (core s1) (.free ptr) ans 0 _ := Effect.released ptr ans v ho hrem
        simp only [core, realFree, aoLiveRemove, mapStats, hrec]
        exact heff

theorem libcFree_effect {ld : Loader} {s s' : State} {ptr ans : ℕ} {u : Unit}
    (hr : s.inResolver = false) (h : aoAllocBridgeLibcFree ld s ptr = .ret u s') :
    Effect (core s) (.libcFree ptr) ans 0 (core s') := by
  unfold aoAllocBridgeLibcFree at h
  split at h
  · rename_i hp
    cases h
    exact Effect.libcFree ptr ans _ (Or.inl ⟨rfl, hp⟩)
  · obtain ⟨u1, s1, he, hk⟩ := Outcome.bind_eq_ret h
    have hcore := ensure_core hr he
    cases hk
    rw [← hcore]
    exact Effect.libcFree ptr ans _ (Or.inr rfl)

theorem libcRealloc_effect {ld : Loader} {s s' : State} {ptr : ℕ} {size : ℕ} {ans ret : ℕ}
    (hr : s.inResolver = false) (h : aoAllocBridgeLibcRealloc ld s ptr size ans = .ret ret s') :
    Effect (core s) (.libcRealloc ptr size) ans ret (core s') := by
  obtain ⟨u, s1, he, hk⟩ := Outcome.bind_eq_ret h
  have hcore := ensure_core hr he
  cases hk
  rw [core_realRealloc, hcore]
  exact Effect.libcRealloc ptr size ans

/-- Every return of a call made outside the resolver is one of the listed
effects. -/
theorem step_effect {ld : Loader} {s s' : State} {c : Call} {ans ret : ℕ}
    (hr : s.inResolver = false) (h0 : 0 ∉ s.heap) (h : step ld s c ans = .ret ret s') :
    Effect (core s) c ans ret (core s') := by
  cases c with
  | malloc size => exact malloc_effect hr h
  | calloc nmemb size => exact calloc_effect hr h
  | realloc ptr size => exact realloc_effect hr h0 h
  | free ptr =>
    obtain ⟨u, s1, hf, hk⟩ := Outcome.bind_eq_ret h
    cases hk
    exact free_effect hr hf
  | libcFree ptr =>
    obtain ⟨u, s1, hf, hk⟩ := Outcome.bind_eq_ret h
    cases hk
    exact libcFree_effect hr hf
  | libcRealloc ptr size => exact libcRealloc_effect hr h
  | reset =>
    cases h
    exact Effect.control .reset ans (Or.inl rfl)
  | beginCapture =>
    cases h
    exact Effect.control .beginCapture ans (Or.inr (Or.inl rfl))
  | endCapture =>
    cases h
    rw [core_end]
    exact Effect.control .endCapture ans (Or.inr (Or.inr rfl))

end LibcOverride.MockAllocator

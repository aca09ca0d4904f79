import LibcOverride.MockAllocator.Ledger

/-!
# The exit paths and their counters
(src/mock_allocator.c:321-400, 498-651)

`path` is the exit a call takes, told from the ledger and the result; `run` is
what it does to the eleven counters. Nine of them move only under capture.
-/

namespace LibcOverride.MockAllocator
open Word

/-- The counters, with the depth that gates nine of them. -/
structure Meters where
  stats : AoAtomicStats
  depth : ℤ

def meters (s : State) : Meters := ⟨s.stats, s.captureDepth⟩

/-- A helper that asks `ao_capture_enabled` first. -/
def Meters.capture (m : Meters) (f : AoAtomicStats → AoAtomicStats) : Meters :=
  if m.depth > 0 then { m with stats := f m.stats } else m

def Meters.live (m : Meters) (f : AoAtomicStats → AoAtomicStats) : Meters :=
  { m with stats := f m.stats }

def countFailed (c : AoAtomicStats) : AoAtomicStats :=
  { c with failedAllocations := add c.failedAllocations 1 }

def countSuccessful (kind size : ℕ) (c : AoAtomicStats) : AoAtomicStats :=
  { countKind kind c with
    successfulAllocations := add c.successfulAllocations 1
    successfulAllocationBytes := add c.successfulAllocationBytes size }

def countFree (bypass : Bool) (c : AoAtomicStats) : AoAtomicStats :=
  { c with
    freeCalls := add c.freeCalls 1
    bypassFreeCalls := if bypass then add c.bypassFreeCalls 1 else c.bypassFreeCalls }

def countRealloc (bypass : Bool) (c : AoAtomicStats) : AoAtomicStats :=
  { c with
    reallocCalls := add c.reallocCalls 1
    bypassReallocCalls := if bypass then add c.bypassReallocCalls 1 else c.bypassReallocCalls }

def liveAdded (size : ℕ) (c : AoAtomicStats) : AoAtomicStats :=
  { c with liveBlocks := add c.liveBlocks 1, liveBytes := add c.liveBytes size }

def liveRemoved (size : ℕ) (c : AoAtomicStats) : AoAtomicStats :=
  { c with liveBlocks := sub c.liveBlocks 1, liveBytes := sub c.liveBytes size }

def liveMoved (old size : ℕ) (c : AoAtomicStats) : AoAtomicStats :=
  { c with liveBytes := liveUpdated c.liveBytes old size }

/-! ### The helpers -/

@[simp] theorem meters_recordFailed (s : State) :
    meters (aoRecordFailedAllocation s) = (meters s).capture countFailed := by
  unfold aoRecordFailedAllocation aoCaptureEnabled Meters.capture meters
  by_cases hd : s.captureDepth > 0 <;> simp [hd, mapStats, countFailed]

@[simp] theorem meters_recordSuccessful (s : State) (kind size : ℕ) :
    meters (aoRecordSuccessfulAllocation s kind size) =
      (meters s).capture (countSuccessful kind size) := by
  unfold aoRecordSuccessfulAllocation aoCaptureEnabled Meters.capture meters
  by_cases hd : s.captureDepth > 0
  · simp only [hd, mapStats, decide_true, Bool.true_eq_false, if_false, if_true, countSuccessful]
    unfold countKind
    split <;> rfl
  · simp [hd]

@[simp] theorem meters_recordFree (s : State) (bypass : Bool) :
    meters (aoRecordFree s bypass) = (meters s).capture (countFree bypass) := by
  unfold aoRecordFree aoCaptureEnabled Meters.capture meters
  by_cases hd : s.captureDepth > 0 <;> cases bypass <;> simp [hd, mapStats, countFree]

@[simp] theorem meters_recordRealloc (s : State) (bypass : Bool) :
    meters (aoRecordRealloc s bypass) = (meters s).capture (countRealloc bypass) := by
  unfold aoRecordRealloc aoCaptureEnabled Meters.capture meters
  by_cases hd : s.captureDepth > 0 <;> cases bypass <;> simp [hd, mapStats, countRealloc]

@[simp] theorem meters_liveAdd (s : State) (size : ℕ) :
    meters (aoLiveAdd s size) = (meters s).live (liveAdded size) := rfl

@[simp] theorem meters_liveRemove (s : State) (size : ℕ) :
    meters (aoLiveRemove s size) = (meters s).live (liveRemoved size) := rfl

@[simp] theorem meters_liveUpdate (s : State) (old size : ℕ) :
    meters (aoLiveUpdate s old size) = (meters s).live (liveMoved old size) := by
  simp only [meters, aoLiveUpdate, mapStats, Meters.live, liveMoved, liveUpdated]
  split
  · rfl
  · split <;> rfl

@[simp] theorem meters_realAlloc (s : State) (ans : ℕ) : meters (realAlloc s ans) = meters s := by
  unfold realAlloc
  split <;> rfl

@[simp] theorem meters_realRealloc (s : State) (ptr size ans : ℕ) :
    meters (realRealloc s ptr size ans) = meters s := by
  unfold realRealloc
  split
  · split <;> rfl
  · rfl

@[simp] theorem meters_realFree (s : State) (ptr : ℕ) : meters (realFree s ptr) = meters s := rfl

theorem meters_resolverCall (s : State) (r : Request) : meters (resolverCall s r) = meters s := by
  cases r with
  | calloc nmemb size =>
    simp only [resolverCall, resolverCalloc]
    split <;> rfl
  | _ => rfl

theorem meters_resolverCalls (rs : List Request) (s : State) :
    meters (rs.foldl resolverCall s) = meters s := by
  induction rs generalizing s with
  | nil => rfl
  | cons r rs ih => rw [List.foldl_cons, ih, meters_resolverCall]

theorem ensure_meters {ld : Loader} {s s' : State} {u : Unit}
    (h : aoEnsureRealFunctions ld s = .ret u s') : meters s' = meters s := by
  unfold aoEnsureRealFunctions at h
  split at h
  · cases h
    rfl
  · unfold aoResolveRealFunctions at h
    dsimp only at h
    split at h
    · cases h
      exact meters_resolverCalls ld.requests _
    · cases h

theorem track_meters {s s' : State} {ptr size : ℕ} {u : Unit}
    (h : aoTrackAllocationOrDie s ptr size = .ret u s') :
    meters s' = (meters s).live (liveAdded size) := by
  unfold aoTrackAllocationOrDie at h
  dsimp only [aoNextAllocationId] at h
  split at h
  · cases h
  · cases h
    rfl

/-! ### The exit paths -/

inductive Path where
  | quiet
  | failed
  | created (kind size : ℕ)
  | bypassedRealloc (failed : Bool)
  | kept
  | shrunkAway (old : ℕ)
  | moved (old size : ℕ)
  | released (size : ℕ)
  | bypassedFree
  deriving Repr, DecidableEq

def Path.run : Path → Meters → Meters
  | .quiet, m => m
  | .failed, m => m.capture countFailed
  | .created kind size, m => (m.live (liveAdded size)).capture (countSuccessful kind size)
  | .bypassedRealloc false, m => m.capture (countRealloc true)
  | .bypassedRealloc true, m => (m.capture (countRealloc true)).capture countFailed
  | .kept, m => (m.capture (countRealloc false)).capture countFailed
  | .shrunkAway old, m => (m.capture (countRealloc false)).live (liveRemoved old)
  | .moved old size, m => (m.capture (countRealloc false)).live (liveMoved old size)
  | .released size, m => (m.capture (countFree false)).live (liveRemoved size)
  | .bypassedFree, m => m.capture (countFree true)

/-- The path of a call that may create a block. -/
def Path.create (kind size ret : ℕ) : Path := if ret = 0 then .failed else .created kind size

def path (b : Bootstrap) (L : Ledger) (c : Call) (ret : ℕ) : Path :=
  match c with
  | .malloc size => .create 0 size ret
  | .calloc nmemb size => .create 1 (nmemb * size) ret
  | .realloc ptr size =>
    if aoBootstrapContains b ptr then .quiet
    else if ptr = 0 then .create 2 size ret
    else match L.blocks.lookup ptr with
      | none => .bypassedRealloc (decide (ret = 0 ∧ size ≠ 0))
      | some old =>
        if ret ≠ 0 then .moved old.1 size
        else if size = 0 then .shrunkAway old.1
        else .kept
  | .free ptr =>
    if ptr = 0 then .quiet
    else if aoBootstrapContains b ptr then .quiet
    else match L.blocks.lookup ptr with
      | none => .bypassedFree
      | some v => .released v.1
  | _ => .quiet

/-- `malloc`, `calloc`, `realloc` and `free`. -/
def Call.IsLibc : Call → Prop
  | .malloc _ | .calloc _ _ | .realloc _ _ | .free _ => True
  | _ => False

theorem create_meters {s s' : State} {kind size ans ret : ℕ}
    (h : (if ans = 0 then .ret 0 (aoRecordFailedAllocation s)
      else (aoTrackAllocationOrDie s ans size).bind fun _ s =>
        .ret ans (aoRecordSuccessfulAllocation s kind size)) = Outcome.ret ret s') :
    meters s' = (Path.create kind size ret).run (meters s) := by
  by_cases ha : ans = 0
  · rw [if_pos ha] at h
    cases h
    rw [meters_recordFailed]
    rfl
  · rw [if_neg ha] at h
    obtain ⟨u, s1, ht, hk⟩ := Outcome.bind_eq_ret h
    have hlive := track_meters ht
    cases hk
    rw [meters_recordSuccessful, hlive, Path.create, if_neg ha]
    rfl

theorem malloc_meters {ld : Loader} {s s' : State} {size ans ret : ℕ} (hr : s.inResolver = false)
    (h : malloc ld s size ans = .ret ret s') :
    meters s' = (Path.create 0 size ret).run (meters s) := by
  simp only [malloc, hr, Bool.false_eq_true, ite_false] at h
  obtain ⟨u, s1, he, hk⟩ := Outcome.bind_eq_ret h
  rw [create_meters hk, meters_realAlloc, ensure_meters he]

theorem calloc_meters {ld : Loader} {s s' : State} {nmemb size ans ret : ℕ}
    (hr : s.inResolver = false) (h : calloc ld s nmemb size ans = .ret ret s') :
    meters s' = (Path.create 1 (nmemb * size) ret).run (meters s) := by
  rw [calloc, if_neg (by simp [hr])] at h
  split at h
  · cases h
    rw [meters_recordFailed]
    rfl
  · rename_i hov
    rw [calloc_mul hov] at h
    obtain ⟨u, s1, he, hk⟩ := Outcome.bind_eq_ret h
    rw [create_meters hk, meters_realAlloc, ensure_meters he]

theorem reallocNull_meters {s s' : State} {size ans ret : ℕ}
    (h : reallocNull s size ans = .ret ret s') :
    meters s' = (Path.create 2 size ret).run (meters s) := by
  rw [create_meters h, meters_realRealloc]

theorem reallocUntracked_meters {s s' : State} {ptr size ans ret : ℕ}
    (h : reallocUntracked s ptr size ans = .ret ret s') :
    meters s' = (Path.bypassedRealloc (decide (ret = 0 ∧ size ≠ 0))).run (meters s) := by
  simp only [reallocUntracked] at h
  by_cases hf : ans = 0 ∧ size ≠ 0
  · rw [if_pos hf] at h
    cases h
    rw [decide_eq_true hf, meters_recordFailed, meters_realRealloc, meters_recordRealloc]
    rfl
  · rw [if_neg hf] at h
    cases h
    rw [decide_eq_false hf, meters_realRealloc, meters_recordRealloc]
    rfl

theorem reallocTracked_meters {s s' : State} {ptr size ans ret : ℕ} {old : ℕ × ℕ}
    (h : reallocTracked s ptr size old ans = .ret ret s') :
    meters s' = (if ret ≠ 0 then Path.moved old.1 size
      else if size = 0 then Path.shrunkAway old.1 else Path.kept).run (meters s) := by
  have hreal := meters_realRealloc s ptr size ans
  simp only [reallocTracked] at h
  by_cases ha : ans = 0
  · by_cases hz : size = 0
    · rw [if_neg (by simp [hz]), if_pos ha] at h
      cases h
      rw [meters_liveRemove, meters_recordRealloc, if_neg (by simp), if_pos hz, ← hreal]
      rfl
    · rw [if_pos ⟨ha, hz⟩] at h
      cases h
      rw [meters_recordFailed, meters_recordRealloc, hreal, if_neg (by simp), if_neg hz]
      rfl
  · rw [if_neg (fun hf => ha hf.1), if_neg ha] at h
    split at h
    · cases h
    · cases h
      rw [meters_liveUpdate, meters_recordRealloc, if_pos ha, ← hreal]
      rfl

theorem realloc_meters {ld : Loader} {s s' : State} {L : Ledger} {ptr size ans ret : ℕ}
    (ht : Tracks (core s) L) (ha : Allowed s L (.realloc ptr size))
    (h : realloc ld s ptr size ans = .ret ret s') :
    meters s' = (path s.bootstrap L (.realloc ptr size) ret).run (meters s) := by
  rw [realloc, if_neg (by simp [show s.inResolver = false from ht.outside])] at h
  simp only [path]
  split at h
  · rename_i hb
    cases h
    rw [if_pos hb]
    rfl
  · rename_i hb
    obtain ⟨u, s1, he, hk⟩ := Outcome.bind_eq_ret h
    rw [if_neg hb, ← ensure_meters he]
    by_cases hp : ptr = 0
    · rw [if_pos hp] at hk
      rw [if_pos hp]
      exact reallocNull_meters hk
    · have hmem := allowed_ordinary ha ⟨hp, mt decide_eq_true hb⟩
      have hlookup : aoRegistryLookupLocked s1.registry ptr = L.blocks.lookup ptr := by
        rw [core_registry (ensure_core ht.outside he)]
        exact (lookup_tracked ht hmem rfl).symm
      rw [if_neg hp, hlookup] at hk
      rw [if_neg hp]
      cases hl : L.blocks.lookup ptr with
      | none =>
        rw [hl] at hk
        exact reallocUntracked_meters hk
      | some old =>
        rw [hl] at hk
        exact reallocTracked_meters hk

theorem free_meters {ld : Loader} {s s' : State} {L : Ledger} {ptr ret : ℕ} {u : Unit}
    (ht : Tracks (core s) L) (ha : Allowed s L (.free ptr)) (h : free ld s ptr = .ret u s') :
    meters s' = (path s.bootstrap L (.free ptr) ret).run (meters s) := by
  simp only [path]
  rw [free] at h
  split at h
  · rename_i hp
    cases h
    rw [if_pos hp]
    rfl
  · rename_i hp
    rw [if_neg hp]
    split at h
    · rename_i hb
      cases h
      rw [if_pos hb]
      rfl
    · rename_i hb
      rw [if_neg (by simp [show s.inResolver = false from ht.outside])] at h
      obtain ⟨u1, s1, he, hk⟩ := Outcome.bind_eq_ret h
      have hmem := allowed_ordinary ha ⟨hp, mt decide_eq_true hb⟩
      have hremove : (aoRegistryRemoveLocked s1.registry ptr).1 = L.blocks.lookup ptr := by
        rw [core_registry (ensure_core ht.outside he)]
        exact (remove_spec ht.represents ptr (ht.noMarker ptr hmem)).1
      rw [if_neg hb, ← ensure_meters he]
      cases hl : L.blocks.lookup ptr with
      | none =>
        simp only [hremove, hl, Option.isNone_none] at hk
        cases hk
        rw [meters_realFree, meters_recordFree]
        rfl
      | some v =>
        simp only [hremove, hl, Option.isNone_some] at hk
        cases hk
        rw [meters_realFree, meters_liveRemove, meters_recordFree]
        rfl

theorem step_meters {ld : Loader} {s s' : State} {L : Ledger} {c : Call} {ans ret : ℕ}
    (ht : Tracks (core s) L) (ha : Allowed s L c) (hc : c.IsLibc)
    (h : step ld s c ans = .ret ret s') :
    meters s' = (path s.bootstrap L c ret).run (meters s) := by
  cases c with
  | malloc size => exact malloc_meters ht.outside h
  | calloc nmemb size => exact calloc_meters ht.outside h
  | realloc ptr size => exact realloc_meters ht ha h
  | free ptr =>
    obtain ⟨u, s1, hf, hk⟩ := Outcome.bind_eq_ret h
    cases hk
    exact free_meters ht ha hf
  | _ => exact hc.elim

end LibcOverride.MockAllocator

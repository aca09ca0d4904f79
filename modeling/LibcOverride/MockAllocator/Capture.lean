import LibcOverride.Lib.WordRing
import LibcOverride.MockAllocator.Counters
import Mathlib.Tactic.LinearCombination

/-!
# Counters between two snapshots
(src/mock_allocator.c:321-400, 422-466, 498-651)

Under capture the counters of a run balance the live counters; without it they
stand still, and the live counters move all the same.
-/

namespace LibcOverride.MockAllocator
open Word

/-- A call with the state and the ledger it met. -/
structure Event where
  before : State
  ledger : Ledger
  call : Call
  ans : ℕ
  ret : ℕ

/-- What the program and the real allocator see of a call. -/
def Event.seen (e : Event) : Call × ℕ × ℕ := (e.call, e.ans, e.ret)

/-- Calls of `malloc`, `calloc`, `realloc` and `free` from `s₀` on. -/
inductive Run (ld : Loader) (s₀ : State) (L₀ : Ledger) : List Event → State → Ledger → Prop where
  | start : Run ld s₀ L₀ [] s₀ L₀
  | step (es : List Event) (s s' : State) (L : Ledger) (c : Call) (ans ret : ℕ)
      (hr : Run ld s₀ L₀ es s L) (hc : c.IsLibc) (ha : Allowed s L c) (hans : RealAnswer s c ans)
      (hs : step ld s c ans = .ret ret s') :
      Run ld s₀ L₀ (es ++ [⟨s, L, c, ans, ret⟩]) s' (ledgerStep L c ret)

def Event.tracked (e : Event) (ptr : ℕ) : Bool := (e.ledger.blocks.lookup ptr).isSome

/-- Neither NULL nor in the bootstrap heap nor tracked. -/
def Event.untracked (e : Event) (ptr : ℕ) : Bool :=
  decide (ptr ≠ 0) && !aoBootstrapContains e.before.bootstrap ptr && !e.tracked ptr

/-- `realloc` of a tracked block to size 0 that returned NULL. -/
def Event.isRelease (e : Event) : Bool :=
  match e.call with
  | .realloc ptr size => decide (size = 0) && decide (e.ret = 0) && e.tracked ptr
  | _ => false

def Event.isForeignFree (e : Event) : Bool :=
  match e.call with
  | .free ptr => e.untracked ptr
  | _ => false

def Event.isForeignRealloc (e : Event) : Bool :=
  match e.call with
  | .realloc ptr _ => e.untracked ptr
  | _ => false

/-- The changes from `a` to `b`, modulo `2 ^ 64`. -/
structure Balanced (es : List Event) (a b : AoAtomicStats) : Prop where
  live : (b.liveBlocks - a.liveBlocks : Residue) =
    (b.successfulAllocations - a.successfulAllocations) -
      ((b.freeCalls - a.freeCalls) - (b.bypassFreeCalls - a.bypassFreeCalls)) -
      es.countP Event.isRelease
  free : (b.bypassFreeCalls - a.bypassFreeCalls : Residue) = es.countP Event.isForeignFree
  realloc : (b.bypassReallocCalls - a.bypassReallocCalls : Residue) =
    es.countP Event.isForeignRealloc

/-- The nine counters that capture gates. -/
def AoAtomicStats.captured (c : AoAtomicStats) : AoAtomicStats :=
  { c with liveBlocks := 0, liveBytes := 0 }

/-- All but the capture depth and the nine counters it gates. -/
def State.unmetered (s : State) : State :=
  { s with
    stats := { zeroStats with liveBlocks := s.stats.liveBlocks, liveBytes := s.stats.liveBytes }
    captureDepth := 0 }

/-! ### Under capture -/

def Path.releases : Path → ℕ
  | .shrunkAway _ => 1
  | _ => 0

def Path.foreignFrees : Path → ℕ
  | .bypassedFree => 1
  | _ => 0

def Path.foreignReallocs : Path → ℕ
  | .bypassedRealloc _ => 1
  | _ => 0

theorem countKind_eq (kind : ℕ) (c : AoAtomicStats) : ∃ m n k, countKind kind c =
    { c with mallocCalls := m, callocCalls := n, reallocCalls := k } := by
  unfold countKind
  split <;> exact ⟨_, _, _, rfl⟩

theorem Path.run_depth (p : Path) (m : Meters) : (p.run m).depth = m.depth := by
  have hcapture (m : Meters) (f : AoAtomicStats → AoAtomicStats) :
      (m.capture f).depth = m.depth := by
    unfold Meters.capture
    split <;> rfl
  cases p with
  | bypassedRealloc failed => cases failed <;> simp [Path.run, hcapture]
  | _ => simp [Path.run, hcapture, Meters.live]

theorem Path.run_open (p : Path) {m : Meters} (hd : m.depth > 0) :
    ((p.run m).stats.liveBlocks - m.stats.liveBlocks : Residue) =
        ((p.run m).stats.successfulAllocations - m.stats.successfulAllocations) -
          (((p.run m).stats.freeCalls - m.stats.freeCalls) -
            ((p.run m).stats.bypassFreeCalls - m.stats.bypassFreeCalls)) - p.releases ∧
      ((p.run m).stats.bypassFreeCalls - m.stats.bypassFreeCalls : Residue) =
        p.foreignFrees ∧
      ((p.run m).stats.bypassReallocCalls - m.stats.bypassReallocCalls : Residue) =
        p.foreignReallocs := by
  cases p with
  | created kind size =>
    obtain ⟨a, b, c, hk⟩ := countKind_eq kind (liveAdded size m.stats)
    have hrun : ((Path.created kind size).run m).stats =
        countSuccessful kind size (liveAdded size m.stats) := by
      simp [Path.run, Meters.capture, Meters.live, hd]
    rw [hrun]
    simp only [countSuccessful, hk]
    simp [liveAdded, releases, foreignFrees, foreignReallocs]
  | bypassedRealloc failed =>
    cases failed <;> simp [Path.run, Meters.capture, hd, countRealloc, countFailed, releases,
      foreignFrees, foreignReallocs]
  | shrunkAway old =>
    simp only [Path.run, Meters.capture, Meters.live, hd, if_true, countRealloc, liveRemoved,
      releases, foreignFrees, foreignReallocs, cast_sub, Bool.false_eq_true, if_false,
      Nat.cast_zero, Nat.cast_one, sub_self, zero_sub, sub_sub_cancel_left, and_self]
  | released size =>
    simp only [Path.run, Meters.capture, Meters.live, hd, if_true, countFree, liveRemoved,
      releases, foreignFrees, foreignReallocs, cast_sub, cast_add, Bool.false_eq_true, if_false,
      Nat.cast_zero, Nat.cast_one, sub_self, sub_zero, zero_sub, sub_sub_cancel_left,
      add_sub_cancel_left, and_self]
  | _ =>
    simp [Path.run, Meters.capture, Meters.live, hd, countFailed, countRealloc, countFree,
      liveMoved, releases, foreignFrees, foreignReallocs]

theorem Path.run_closed (p : Path) {m : Meters} (hd : ¬m.depth > 0) :
    (p.run m).stats.captured = m.stats.captured := by
  cases p with
  | bypassedRealloc failed => cases failed <;> simp [Path.run, Meters.capture, hd]
  | _ => simp [Path.run, Meters.capture, Meters.live, hd, liveAdded, liveRemoved, liveMoved,
      AoAtomicStats.captured]

def Event.path (e : Event) : Path := MockAllocator.path e.before.bootstrap e.ledger e.call e.ret

theorem create_counts (kind size ret : ℕ) : (Path.create kind size ret).releases = 0 ∧
    (Path.create kind size ret).foreignFrees = 0 ∧
    (Path.create kind size ret).foreignReallocs = 0 := by
  unfold Path.create
  split <;> exact ⟨rfl, rfl, rfl⟩

/-- The paths say what the events say. -/
theorem Event.path_counts {e : Event} (ht : Tracks (core e.before) e.ledger) :
    e.path.releases = e.isRelease.toNat ∧ e.path.foreignFrees = e.isForeignFree.toNat ∧
      e.path.foreignReallocs = e.isForeignRealloc.toNat := by
  obtain ⟨s, L, c, ans, ret⟩ := e
  have hordinary {ptr : ℕ} {v : ℕ × ℕ} (hl : L.blocks.lookup ptr = some v) :
      ptr ≠ 0 ∧ aoBootstrapContains s.bootstrap ptr = false := by
    have ho := ht.ordinary ptr (lookup_mem hl)
    exact ⟨ho.1, decide_eq_false ho.2⟩
  cases c with
  | malloc size => exact create_counts 0 size ret
  | calloc nmemb size => exact create_counts 1 (nmemb * size) ret
  | realloc ptr size =>
    simp only [Event.path, MockAllocator.path, Event.isRelease, Event.isForeignFree, Event.isForeignRealloc,
      Event.untracked, Event.tracked]
    cases hl : L.blocks.lookup ptr with
    | some old =>
      obtain ⟨hp, hb⟩ := hordinary hl
      by_cases hret : ret = 0 <;> by_cases hsize : size = 0 <;>
        simp [hp, hb, hret, hsize, Path.releases, Path.foreignFrees, Path.foreignReallocs]
    | none =>
      by_cases hb : aoBootstrapContains s.bootstrap ptr = true
      · simp [hb, Path.releases, Path.foreignFrees, Path.foreignReallocs]
      · by_cases hp : ptr = 0
        · rw [if_neg hb, if_pos hp]
          simpa [hp] using create_counts 2 size ret
        · simp [hb, hp, Path.releases, Path.foreignFrees, Path.foreignReallocs]
  | free ptr =>
    simp only [Event.path, MockAllocator.path, Event.isRelease, Event.isForeignFree, Event.isForeignRealloc,
      Event.untracked, Event.tracked]
    cases hl : L.blocks.lookup ptr with
    | some old =>
      obtain ⟨hp, hb⟩ := hordinary hl
      simp [hp, hb, Path.releases, Path.foreignFrees, Path.foreignReallocs]
    | none =>
      by_cases hp : ptr = 0
      · simp [hp, Path.releases, Path.foreignFrees, Path.foreignReallocs]
      · by_cases hb : aoBootstrapContains s.bootstrap ptr = true <;>
          simp [hp, hb, Path.releases, Path.foreignFrees, Path.foreignReallocs]
  | _ => exact ⟨rfl, rfl, rfl⟩

theorem countP_snoc (p : Event → Bool) (es : List Event) (e : Event) :
    (es ++ [e]).countP p = es.countP p + (p e).toNat := by
  rw [List.countP_append, List.countP_singleton]
  cases p e <;> rfl

theorem Balanced.snoc {es : List Event} {a : AoAtomicStats} {m : Meters} {e : Event}
    (hb : Balanced es a m.stats) (hd : m.depth > 0) (ht : Tracks (core e.before) e.ledger) :
    Balanced (es ++ [e]) a (e.path.run m).stats := by
  obtain ⟨hlive, hfree, hrealloc⟩ := e.path.run_open hd
  obtain ⟨hr, hf, hre⟩ := e.path_counts ht
  rw [hr] at hlive
  rw [hf] at hfree
  rw [hre] at hrealloc
  refine ⟨?_, ?_, ?_⟩
  · rw [countP_snoc, Nat.cast_add]
    linear_combination hb.live + hlive
  · rw [countP_snoc, Nat.cast_add]
    linear_combination hb.free + hfree
  · rw [countP_snoc, Nat.cast_add]
    linear_combination hb.realloc + hrealloc

theorem run_reachable {ld : Loader} {s s' : State} {L L' : Ledger} {es : List Event}
    (h : Reachable ld s L) (hr : Run ld s L es s' L') : Reachable ld s' L' := by
  induction hr with
  | start => exact h
  | step es s₁ s₂ L₁ c ans ret hr hc ha hans hs ih => exact .step _ _ _ c ans ret ih ha hans hs

theorem step_depth {ld : Loader} {s s' : State} {L : Ledger} {c : Call} {ans ret : ℕ}
    (ht : Tracks (core s) L) (ha : Allowed s L c) (hc : c.IsLibc)
    (h : step ld s c ans = .ret ret s') : s'.captureDepth = s.captureDepth := by
  have hm := congrArg Meters.depth (step_meters ht ha hc h)
  rw [Path.run_depth] at hm
  exact hm

theorem run_depth {ld : Loader} {s s' : State} {L L' : Ledger} {es : List Event}
    (h : Reachable ld s L) (hr : Run ld s L es s' L') : s'.captureDepth = s.captureDepth := by
  induction hr with
  | start => rfl
  | step es s₁ s₂ L₁ c ans ret hr hc ha hans hs ih =>
    exact (step_depth (tracks_run (run_reachable h hr)) ha hc hs).trans ih

theorem run_balanced {ld : Loader} {s s' : State} {L L' : Ledger} {es : List Event}
    (h : Reachable ld s L) (hr : Run ld s L es s' L') (hd : s.captureDepth > 0) :
    Balanced es s.stats s'.stats := by
  induction hr with
  | start => exact ⟨by simp, by simp, by simp⟩
  | step es s₁ s₂ L₁ c ans ret hr hc ha hans hs ih =>
    have ht := tracks_run (run_reachable h hr)
    have hm := congrArg Meters.stats (step_meters ht ha hc hs)
    have hstats : s₂.stats = ((path s₁.bootstrap L₁ c ret).run (meters s₁)).stats := hm
    rw [hstats]
    refine @Balanced.snoc es s.stats (meters s₁) ⟨s₁, L₁, c, ans, ret⟩ ih ?_ ht
    have hdepth := run_depth h hr
    simp only [meters, hdepth]
    exact hd

/-! ### Without capture -/

theorem run_captured {ld : Loader} {s s' : State} {L L' : Ledger} {es : List Event}
    (h : Reachable ld s L) (hr : Run ld s L es s' L') (hd : ¬s.captureDepth > 0) :
    s'.stats.captured = s.stats.captured := by
  induction hr with
  | start => rfl
  | step es s₁ s₂ L₁ c ans ret hr hc ha hans hs ih =>
    have ht := tracks_run (run_reachable h hr)
    have hm := congrArg Meters.stats (step_meters ht ha hc hs)
    have hstats : s₂.stats = ((path s₁.bootstrap L₁ c ret).run (meters s₁)).stats := hm
    rw [hstats, Path.run_closed]
    · exact ih
    · have hdepth := run_depth h hr
      simp only [meters, hdepth]
      exact hd

def Outcome.map {α : Type} (o : Outcome α) (f : State → State) : Outcome α :=
  match o with
  | .ret a s => .ret a (f s)
  | .exit why => .exit why

theorem Outcome.map_bind {α β : Type} (o : Outcome α) (k : α → State → Outcome β)
    (f : State → State) : (o.bind k).map f = o.bind fun a s => (k a s).map f := by
  cases o <;> rfl

theorem Outcome.bind_map {α β : Type} (o : Outcome α) (k : α → State → Outcome β)
    (f : State → State) : (o.map f).bind k = o.bind fun a s => k a (f s) := by
  cases o <;> rfl

@[simp] theorem unmetered_recordFailed (s : State) :
    (aoRecordFailedAllocation s).unmetered = s.unmetered := by
  unfold aoRecordFailedAllocation
  split <;> rfl

@[simp] theorem unmetered_recordSuccessful (s : State) (kind size : ℕ) :
    (aoRecordSuccessfulAllocation s kind size).unmetered = s.unmetered := by
  unfold aoRecordSuccessfulAllocation countKind
  split
  · rfl
  · dsimp only
    split <;> rfl

@[simp] theorem unmetered_recordFree (s : State) (bypass : Bool) :
    (aoRecordFree s bypass).unmetered = s.unmetered := by
  unfold aoRecordFree
  split
  · rfl
  · cases bypass <;> rfl

@[simp] theorem unmetered_recordRealloc (s : State) (bypass : Bool) :
    (aoRecordRealloc s bypass).unmetered = s.unmetered := by
  unfold aoRecordRealloc
  split
  · rfl
  · cases bypass <;> rfl

/-! At depth 0 the helpers do nothing. -/

@[simp] theorem recordFailed_unmetered (s : State) :
    aoRecordFailedAllocation s.unmetered = s.unmetered := rfl

@[simp] theorem recordSuccessful_unmetered (s : State) (kind size : ℕ) :
    aoRecordSuccessfulAllocation s.unmetered kind size = s.unmetered := rfl

@[simp] theorem recordFree_unmetered (s : State) (bypass : Bool) :
    aoRecordFree s.unmetered bypass = s.unmetered := rfl

@[simp] theorem recordRealloc_unmetered (s : State) (bypass : Bool) :
    aoRecordRealloc s.unmetered bypass = s.unmetered := rfl

/-! Everything else does not look at what is forgotten. -/

@[simp] theorem liveUpdate_unmetered (s : State) (old size : ℕ) :
    aoLiveUpdate s.unmetered old size = (aoLiveUpdate s old size).unmetered := by
  unfold aoLiveUpdate mapStats
  dsimp only [State.unmetered]
  split
  · rfl
  · split <;> rfl

@[simp] theorem realAlloc_unmetered (s : State) (ans : ℕ) :
    realAlloc s.unmetered ans = (realAlloc s ans).unmetered := by
  unfold realAlloc
  split <;> rfl

@[simp] theorem realRealloc_unmetered (s : State) (ptr size ans : ℕ) :
    realRealloc s.unmetered ptr size ans = (realRealloc s ptr size ans).unmetered := by
  unfold realRealloc
  split
  · split <;> rfl
  · rfl

theorem resolverCall_unmetered (s : State) (r : Request) :
    resolverCall s.unmetered r = (resolverCall s r).unmetered := by
  cases r with
  | calloc nmemb size =>
    by_cases hz : (aoBootstrapAlloc s.bootstrap (mul nmemb size)).1 = 0 <;>
      simp only [resolverCall, resolverCalloc, State.unmetered, hz, if_true, if_false] <;> rfl
  | _ => rfl

theorem resolverCalls_unmetered (rs : List Request) (s : State) :
    rs.foldl resolverCall s.unmetered = (rs.foldl resolverCall s).unmetered := by
  induction rs generalizing s with
  | nil => rfl
  | cons r rs ih => rw [List.foldl_cons, List.foldl_cons, resolverCall_unmetered, ih]

theorem ensure_unmetered (ld : Loader) (s : State) :
    aoEnsureRealFunctions ld s.unmetered = (aoEnsureRealFunctions ld s).map State.unmetered := by
  unfold aoEnsureRealFunctions aoResolveRealFunctions
  have hfold := resolverCalls_unmetered ld.requests { s with resolved := true, inResolver := true }
  by_cases hr : s.resolved = true
  · rw [if_pos hr, if_pos (show s.unmetered.resolved = true from hr)]
    rfl
  · rw [if_neg hr, if_neg (show ¬s.unmetered.resolved = true from hr)]
    change (if ld.found = true then Outcome.ret ()
      { ld.requests.foldl resolverCall
          ({ s with resolved := true, inResolver := true } : State).unmetered with
        inResolver := false } else .exit .unresolved) = _
    rw [hfold]
    split <;> rfl

theorem track_unmetered (s : State) (ptr size : ℕ) :
    aoTrackAllocationOrDie s.unmetered ptr size =
      (aoTrackAllocationOrDie s ptr size).map State.unmetered := by
  unfold aoTrackAllocationOrDie aoNextAllocationId
  dsimp only [State.unmetered]
  split <;> rfl

theorem create_unmetered (s : State) (kind size ans : ℕ) :
    ((aoTrackAllocationOrDie s.unmetered ans size).bind fun _ s =>
        .ret ans (aoRecordSuccessfulAllocation s kind size)) =
      ((aoTrackAllocationOrDie s ans size).bind fun _ s =>
        .ret ans (aoRecordSuccessfulAllocation s kind size)).map State.unmetered := by
  rw [track_unmetered, Outcome.bind_map, Outcome.map_bind]
  congr 1
  funext _ s
  simp [Outcome.map]

theorem malloc_unmetered {ld : Loader} {s : State} (hr : s.inResolver = false) (size ans : ℕ) :
    malloc ld s.unmetered size ans = (malloc ld s size ans).map State.unmetered := by
  have hout : ¬s.inResolver = true := by simp [hr]
  have hout' : ¬s.unmetered.inResolver = true := hout
  rw [malloc, malloc, if_neg hout, if_neg hout', ensure_unmetered, Outcome.bind_map,
    Outcome.map_bind]
  congr 1
  funext _ s
  dsimp only
  rw [realAlloc_unmetered]
  split
  · simp [Outcome.map]
  · exact create_unmetered _ 0 size ans

theorem calloc_unmetered {ld : Loader} {s : State} (hr : s.inResolver = false)
    (nmemb size ans : ℕ) :
    calloc ld s.unmetered nmemb size ans = (calloc ld s nmemb size ans).map State.unmetered := by
  have hout : ¬s.inResolver = true := by simp [hr]
  have hout' : ¬s.unmetered.inResolver = true := hout
  rw [calloc, calloc, if_neg hout, if_neg hout']
  split
  · exact congrArg (Outcome.ret 0) (unmetered_recordFailed { s with errno := .enomem }).symm
  · rw [ensure_unmetered, Outcome.bind_map, Outcome.map_bind]
    congr 1
    funext _ s
    dsimp only
    rw [realAlloc_unmetered]
    split
    · simp [Outcome.map]
    · exact create_unmetered _ 1 _ ans

theorem reallocNull_unmetered (s : State) (size ans : ℕ) :
    reallocNull s.unmetered size ans = (reallocNull s size ans).map State.unmetered := by
  simp only [reallocNull, realRealloc_unmetered]
  split
  · simp [Outcome.map]
  · exact create_unmetered _ 2 size ans

theorem reallocUntracked_unmetered (s : State) (ptr size ans : ℕ) :
    reallocUntracked s.unmetered ptr size ans =
      (reallocUntracked s ptr size ans).map State.unmetered := by
  have hreal : realRealloc s.unmetered ptr size ans =
      (realRealloc (aoRecordRealloc s true) ptr size ans).unmetered := by
    rw [← realRealloc_unmetered, unmetered_recordRealloc]
  simp only [reallocUntracked, recordRealloc_unmetered, hreal]
  split <;> simp [Outcome.map]

theorem reallocTracked_unmetered (s : State) (ptr size : ℕ) (old : ℕ × ℕ) (ans : ℕ) :
    reallocTracked s.unmetered ptr size old ans =
      (reallocTracked s ptr size old ans).map State.unmetered := by
  simp only [reallocTracked, realRealloc_unmetered]
  generalize realRealloc s ptr size ans = s
  by_cases hf : ans = 0 ∧ size ≠ 0
  · rw [if_pos hf, if_pos hf]
    simp [Outcome.map]
  · rw [if_neg hf, if_neg hf]
    have hrec (r : Registry) : aoRecordRealloc { s.unmetered with registry := r } false =
        (aoRecordRealloc { s with registry := r } false).unmetered :=
      (unmetered_recordRealloc { s with registry := r } false).symm
    by_cases ha : ans = 0
    · rw [if_pos ha, if_pos ha]
      exact congrArg (fun s => Outcome.ret 0 (aoLiveRemove s old.1)) (hrec _)
    · rw [if_neg ha, if_neg ha]
      by_cases hi : (aoRegistryInsertLocked (aoRegistryRemoveLocked s.registry ptr).2 ans size
          old.2).1 = false
      · have hi' : (aoRegistryInsertLocked (aoRegistryRemoveLocked s.unmetered.registry ptr).2 ans
            size old.2).1 = false := hi
        rw [if_pos hi, if_pos hi']
        rfl
      · have hi' : ¬(aoRegistryInsertLocked (aoRegistryRemoveLocked s.unmetered.registry ptr).2 ans
            size old.2).1 = false := hi
        rw [if_neg hi, if_neg hi']
        have hupdate := congrArg (fun s => Outcome.ret ans (aoLiveUpdate s old.1 size)) (hrec
          (aoRegistryInsertLocked (aoRegistryRemoveLocked s.registry ptr).2 ans size old.2).2)
        simp only [liveUpdate_unmetered] at hupdate
        exact hupdate

theorem realloc_unmetered {ld : Loader} {s : State} (hr : s.inResolver = false)
    (ptr size ans : ℕ) :
    realloc ld s.unmetered ptr size ans = (realloc ld s ptr size ans).map State.unmetered := by
  have hout : ¬s.inResolver = true := by simp [hr]
  have hout' : ¬s.unmetered.inResolver = true := hout
  rw [realloc, realloc, if_neg hout, if_neg hout']
  by_cases hb : aoBootstrapContains s.bootstrap ptr = true
  · have hb' : aoBootstrapContains s.unmetered.bootstrap ptr = true := hb
    rw [if_pos hb, if_pos hb']
    rfl
  · have hb' : ¬aoBootstrapContains s.unmetered.bootstrap ptr = true := hb
    rw [if_neg hb, if_neg hb', ensure_unmetered, Outcome.bind_map, Outcome.map_bind]
    congr 1
    funext _ s
    by_cases hp : ptr = 0
    · rw [if_pos hp, if_pos hp]
      exact reallocNull_unmetered s size ans
    · rw [if_neg hp, if_neg hp]
      have hregistry : s.unmetered.registry = s.registry := rfl
      rw [hregistry]
      cases aoRegistryLookupLocked s.registry ptr with
      | none => exact reallocUntracked_unmetered s ptr size ans
      | some old => exact reallocTracked_unmetered s ptr size old ans

theorem free_unmetered {ld : Loader} {s : State} (hr : s.inResolver = false) (ptr : ℕ) :
    free ld s.unmetered ptr = (free ld s ptr).map State.unmetered := by
  have hout : ¬s.inResolver = true := by simp [hr]
  have hout' : ¬s.unmetered.inResolver = true := hout
  rw [free, free]
  by_cases hp : ptr = 0
  · rw [if_pos hp, if_pos hp]
    rfl
  · rw [if_neg hp, if_neg hp]
    by_cases hb : aoBootstrapContains s.bootstrap ptr = true
    · have hb' : aoBootstrapContains s.unmetered.bootstrap ptr = true := hb
      rw [if_pos hb, if_pos hb']
      rfl
    · have hb' : ¬aoBootstrapContains s.unmetered.bootstrap ptr = true := hb
      rw [if_neg hb, if_neg hb', if_neg hout, if_neg hout', ensure_unmetered, Outcome.bind_map,
        Outcome.map_bind]
      congr 1
      funext _ s
      have hregistry : s.unmetered.registry = s.registry := rfl
      have hrec (r : Registry) (bypass : Bool) :
          aoRecordFree { s.unmetered with registry := r } bypass =
            (aoRecordFree { s with registry := r } bypass).unmetered :=
        (unmetered_recordFree { s with registry := r } bypass).symm
      dsimp only
      rw [hregistry, hrec]
      cases (aoRegistryRemoveLocked s.registry ptr).1 <;> rfl

theorem step_unmetered {ld : Loader} {s : State} (hr : s.inResolver = false) {c : Call}
    (hc : c.IsLibc) (ans : ℕ) :
    step ld s.unmetered c ans = (step ld s c ans).map State.unmetered := by
  cases c with
  | malloc size => exact malloc_unmetered hr size ans
  | calloc nmemb size => exact calloc_unmetered hr nmemb size ans
  | realloc ptr size => exact realloc_unmetered hr ptr size ans
  | free ptr =>
    simp only [step, free_unmetered hr, Outcome.bind_map, Outcome.map_bind]
    rfl
  | _ => exact hc.elim

/-- A step from a state that differs in what capture gates alone. -/
theorem step_alike {ld : Loader} {s s' t : State} {L : Ledger} {c : Call} {ans ret : ℕ}
    (hs : Tracks (core s) L) (ht : t.unmetered = s.unmetered) (hc : c.IsLibc)
    (h : step ld s c ans = .ret ret s') :
    ∃ t', step ld t c ans = .ret ret t' ∧ t'.unmetered = s'.unmetered := by
  have hout : s.inResolver = false := hs.outside
  have hout' : t.inResolver = false := (congrArg State.inResolver ht).trans hout
  have hmap : (step ld t c ans).map State.unmetered = .ret ret s'.unmetered := by
    rw [← step_unmetered hout' hc, ht, step_unmetered hout hc, h]
    rfl
  cases hstep : step ld t c ans with
  | ret a t' =>
    rw [hstep] at hmap
    injection hmap with ha hu
    exact ⟨t', by rw [ha], hu⟩
  | exit why =>
    rw [hstep] at hmap
    cases hmap

theorem run_alike {ld : Loader} {s s' : State} {L L' : Ledger} {es : List Event}
    (h : Reachable ld s L) (hr : Run ld s L es s' L') {t : State}
    (ht : t.unmetered = s.unmetered) :
    ∃ es' t', Run ld t L es' t' L' ∧ es'.map Event.seen = es.map Event.seen ∧
      t'.unmetered = s'.unmetered := by
  induction hr with
  | start => exact ⟨[], t, .start, rfl, ht⟩
  | step es s₁ s₂ L₁ c ans ret hr hc ha hans hs ih =>
    obtain ⟨es', t₁, hrun, hseen, ht₁⟩ := ih
    have htracks := tracks_run (run_reachable h hr)
    obtain ⟨t₂, hstep, ht₂⟩ := step_alike htracks ht₁ hc hs
    have ha' : Allowed t₁.unmetered L₁ c := by
      rw [ht₁]
      cases c <;> exact ha
    have hans' : RealAnswer t₁.unmetered c ans := by
      rw [ht₁]
      exact hans
    refine ⟨es' ++ [⟨t₁, L₁, c, ans, ret⟩], t₂, .step es' t₁ t₂ L₁ c ans ret hrun hc ?_ hans' hstep,
      ?_, ht₂⟩
    · cases c <;> exact ha'
    · rw [List.map_append, List.map_append, hseen]
      rfl

/-- Between two snapshots of a run: under capture the counters balance; without
it nine of them stand still, and the live counters end where they end in the
same run from any state that differs in the capture depth and those nine. -/
theorem capture_balances {ld : Loader} {s s' : State} {L L' : Ledger} {es : List Event}
    (h : Reachable ld s L) (hr : Run ld s L es s' L') :
    (aoCaptureEnabled s = true → Balanced es (aoMockGetStats s) (aoMockGetStats s')) ∧
    (aoCaptureEnabled s = false →
      (aoMockGetStats s').captured = (aoMockGetStats s).captured ∧
      ∀ t, t.unmetered = s.unmetered → aoCaptureEnabled t = true →
        ∃ es' t', Run ld t L es' t' L' ∧ es'.map Event.seen = es.map Event.seen ∧
          (aoMockGetStats t').liveBlocks = (aoMockGetStats s').liveBlocks ∧
          (aoMockGetStats t').liveBytes = (aoMockGetStats s').liveBytes) := by
  constructor
  · intro hon
    exact run_balanced h hr (of_decide_eq_true hon)
  · intro hoff
    refine ⟨run_captured h hr (of_decide_eq_false hoff), ?_⟩
    intro t ht _
    obtain ⟨es', t', hrun, hseen, ht'⟩ := run_alike h hr ht
    exact ⟨es', t', hrun, hseen, congrArg (fun u => u.stats.liveBlocks) ht',
      congrArg (fun u => u.stats.liveBytes) ht'⟩

/-- One block created and dropped by `realloc` to size 0, under capture. -/
theorem capture_balances_sample : ∃ s s' es, Balanced es (aoMockGetStats s) (aoMockGetStats s') ∧
    es.countP Event.isRelease = 1 := by
  have h0 : Reachable sampleLoader _ _ := .start sampleBootstrap ∅ (by simp)
  have h1 := Reachable.step _ _ _ .beginCapture 0 _ h0 trivial (Or.inl rfl) rfl
  have r0 : Run sampleLoader (aoMockBeginCapture (initState sampleBootstrap ∅))
    (ledgerStep Ledger.empty .beginCapture 0) [] _ _ := .start
  have r1 := Run.step _ _ _ _ (.malloc 8) 1048576 _ r0 trivial trivial
    (Or.inr ⟨by decide, by decide, by decide⟩) rfl
  have r2 := Run.step _ _ _ _ (.realloc 1048576 0) 0 _ r1 trivial
    (Or.inr (Or.inr (by decide))) (Or.inl rfl) rfl
  exact ⟨_, _, _, (capture_balances h1 r2).1 rfl, rfl⟩

end LibcOverride.MockAllocator

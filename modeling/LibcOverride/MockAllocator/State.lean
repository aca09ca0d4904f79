import LibcOverride.Lib.Word
import LibcOverride.MockAllocator.Registry
import Mathlib.Data.Finset.Basic

/-!
# Allocator state, counters and the bootstrap heap
(src/mock_allocator.c:25-163, 321-466)

`heap` is the only field with no variable behind it in the source: the set of
addresses the real allocator has handed out and not taken back. It changes
exactly where the source calls a real function.
-/

namespace LibcOverride.MockAllocator
open Word

structure AoAtomicStats where
  mallocCalls : ℕ
  callocCalls : ℕ
  reallocCalls : ℕ
  freeCalls : ℕ
  successfulAllocations : ℕ
  successfulAllocationBytes : ℕ
  failedAllocations : ℕ
  bypassReallocCalls : ℕ
  bypassFreeCalls : ℕ
  liveBlocks : ℕ
  liveBytes : ℕ
  deriving Repr, DecidableEq

def zeroStats : AoAtomicStats := ⟨0, 0, 0, 0, 0, 0, 0, 0, 0, 0, 0⟩

/-! ### Bootstrap heap -/

abbrev aoBootstrapHeapSize : ℕ := 64 * 1024

/-- `sizeof(ao_bootstrap_header)`: a `size_t`, padding, and a `max_align_t` of
32 bytes aligned to 16. -/
abbrev sizeofBootstrapHeader : ℕ := 48

abbrev sizeofMaxAlign : ℕ := 32

/-- `g_bootstrap_heap`, a static array and so not at address 0, with
`g_bootstrap_offset`. -/
structure Bootstrap where
  base : ℕ
  basePos : 0 < base
  memory : Bytes
  offset : ℕ

def aoAlignUp (value alignment : ℕ) : ℕ :=
  if value % alignment = 0 then value else add value (alignment - value % alignment)

/-- NULL is 0. The compare-and-swap loop of the source succeeds at once when
no other thread runs. -/
def aoBootstrapAlloc (b : Bootstrap) (size : ℕ) : ℕ × Bootstrap :=
  let total := aoAlignUp (add sizeofBootstrapHeader size) sizeofMaxAlign
  if b.offset > aoBootstrapHeapSize ∨ total > aoBootstrapHeapSize - b.offset then (0, b)
  else (b.base + b.offset + sizeofBootstrapHeader,
    { b with memory := store b.memory b.offset size 8, offset := b.offset + total })

def aoBootstrapContains (b : Bootstrap) (ptr : ℕ) : Bool :=
  decide (b.base ≤ ptr ∧ ptr < b.base + aoBootstrapHeapSize)

/-- The header of `ptr` is read after the new block was carved out. -/
def aoBootstrapRealloc (b : Bootstrap) (ptr : ℕ) (size : ℕ) : ℕ × Bootstrap :=
  if ptr = 0 then aoBootstrapAlloc b size
  else if aoBootstrapContains b ptr = false then (0, b)
  else
    let r := aoBootstrapAlloc b size
    if r.1 = 0 then (0, r.2)
    else
      let requested := load r.2.memory (ptr - b.base - sizeofBootstrapHeader) 8
      let copySize := if requested < size then requested else size
      (r.1, { r.2 with memory := copy r.2.memory (r.1 - b.base) (ptr - b.base) copySize })

@[simp] theorem aoBootstrapAlloc_base (b : Bootstrap) (size : ℕ) :
    (aoBootstrapAlloc b size).2.base = b.base := by
  unfold aoBootstrapAlloc
  dsimp only
  split <;> rfl

@[simp] theorem aoBootstrapRealloc_base (b : Bootstrap) (ptr : ℕ) (size : ℕ) :
    (aoBootstrapRealloc b ptr size).2.base = b.base := by
  unfold aoBootstrapRealloc
  dsimp only
  split
  · exact aoBootstrapAlloc_base b size
  · split
    · rfl
    · split
      · exact aoBootstrapAlloc_base b size
      · exact aoBootstrapAlloc_base b size

/-! ### State -/

inductive Errno where
  | ok
  | enomem
  deriving Repr, DecidableEq

structure State where
  resolved : Bool
  inResolver : Bool
  registry : Registry
  stats : AoAtomicStats
  captureDepth : ℤ
  nextAllocationId : ℕ
  bootstrap : Bootstrap
  errno : Errno
  heap : Finset ℕ

/-- The loader's image of the library; `heap` holds what the process had
allocated before the library was first entered. -/
def initState (bootstrap : Bootstrap) (heap : Finset ℕ) : State :=
  { resolved := false, inResolver := false, registry := emptyRegistry, stats := zeroStats,
    captureDepth := 0, nextAllocationId := 1, bootstrap := bootstrap, errno := .ok, heap := heap }

/-! ### Counters (the nine first ones move only while a capture is open) -/

def aoCaptureEnabled (s : State) : Bool := decide (s.captureDepth > 0)

def mapStats (s : State) (f : AoAtomicStats → AoAtomicStats) : State :=
  { s with stats := f s.stats }

def aoRecordFailedAllocation (s : State) : State :=
  if aoCaptureEnabled s then
    mapStats s fun c => { c with failedAllocations := add c.failedAllocations 1 }
  else s

/-- The call counter that `kind` selects. -/
def countKind (kind : ℕ) (c : AoAtomicStats) : AoAtomicStats :=
  match kind with
  | 0 => { c with mallocCalls := add c.mallocCalls 1 }
  | 1 => { c with callocCalls := add c.callocCalls 1 }
  | 2 => { c with reallocCalls := add c.reallocCalls 1 }
  | _ => c

def aoRecordSuccessfulAllocation (s : State) (kind requestedSize : ℕ) : State :=
  if aoCaptureEnabled s = false then s
  else mapStats s fun c =>
    let c := countKind kind c
    { c with
      successfulAllocations := add c.successfulAllocations 1
      successfulAllocationBytes := add c.successfulAllocationBytes requestedSize }

def aoRecordFree (s : State) (bypass : Bool) : State :=
  if aoCaptureEnabled s = false then s
  else mapStats s fun c =>
    let c := { c with freeCalls := add c.freeCalls 1 }
    if bypass then { c with bypassFreeCalls := add c.bypassFreeCalls 1 } else c

def aoRecordRealloc (s : State) (bypass : Bool) : State :=
  if aoCaptureEnabled s = false then s
  else mapStats s fun c =>
    let c := { c with reallocCalls := add c.reallocCalls 1 }
    if bypass then { c with bypassReallocCalls := add c.bypassReallocCalls 1 } else c

def aoLiveAdd (s : State) (requestedSize : ℕ) : State :=
  mapStats s fun c =>
    { c with liveBlocks := add c.liveBlocks 1, liveBytes := add c.liveBytes requestedSize }

def aoLiveUpdate (s : State) (oldSize newSize : ℕ) : State :=
  mapStats s fun c =>
    if newSize > oldSize then { c with liveBytes := add c.liveBytes (newSize - oldSize) }
    else if oldSize > newSize then { c with liveBytes := sub c.liveBytes (oldSize - newSize) }
    else c

def aoLiveRemove (s : State) (requestedSize : ℕ) : State :=
  mapStats s fun c =>
    { c with liveBlocks := sub c.liveBlocks 1, liveBytes := sub c.liveBytes requestedSize }

def aoMockReset (s : State) : State :=
  mapStats s fun c => { zeroStats with liveBlocks := c.liveBlocks, liveBytes := c.liveBytes }

/-- `g_capture_depth` is a C `int` updated by an atomic add, which wraps. -/
def aoMockBeginCapture (s : State) : State :=
  { s with captureDepth := Int.bmod (s.captureDepth + 1) (2 ^ 32) }

def aoMockEndCapture (s : State) : State :=
  if s.captureDepth > 0 then { s with captureDepth := s.captureDepth - 1 } else s

def aoMockGetStats (s : State) : AoAtomicStats := s.stats

/-! ### The part of the state that tracking is about -/

structure Core where
  registry : Registry
  liveBlocks : ℕ
  liveBytes : ℕ
  nextAllocationId : ℕ
  heap : Finset ℕ
  base : ℕ
  inResolver : Bool

def core (s : State) : Core :=
  ⟨s.registry, s.stats.liveBlocks, s.stats.liveBytes, s.nextAllocationId, s.heap,
    s.bootstrap.base, s.inResolver⟩

@[simp] theorem core_recordFailed (s : State) : core (aoRecordFailedAllocation s) = core s := by
  unfold aoRecordFailedAllocation
  split <;> rfl

@[simp] theorem core_recordSuccessful (s : State) (kind size : ℕ) :
    core (aoRecordSuccessfulAllocation s kind size) = core s := by
  unfold aoRecordSuccessfulAllocation countKind
  split
  · rfl
  · dsimp only
    split <;> rfl

@[simp] theorem core_recordFree (s : State) (bypass : Bool) :
    core (aoRecordFree s bypass) = core s := by
  unfold aoRecordFree
  split
  · rfl
  · cases bypass <;> rfl

@[simp] theorem core_recordRealloc (s : State) (bypass : Bool) :
    core (aoRecordRealloc s bypass) = core s := by
  unfold aoRecordRealloc
  split
  · rfl
  · cases bypass <;> rfl

@[simp] theorem core_reset (s : State) : core (aoMockReset s) = core s := rfl

@[simp] theorem core_begin (s : State) : core (aoMockBeginCapture s) = core s := rfl

@[simp] theorem core_end (s : State) : core (aoMockEndCapture s) = core s := by
  unfold aoMockEndCapture
  split <;> rfl

end LibcOverride.MockAllocator

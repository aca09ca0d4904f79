import LibcOverride.MockAllocator.Calls
import LibcOverride.Lib.AssocTotal

/-!
# The calls as sequences of atomic steps (src/mock_allocator.c:321-420, 499-651)

Once the real functions are resolved a call consists of calls into the real
allocator, registry sections under `g_registry_lock` and single atomic
operations on the counters. `Pc` is what a thread still has to do. The blocks
of the threads come from the real allocator and so never lie in the bootstrap
array; the tests for it are left out.
-/

namespace LibcOverride.MockAllocator
open Word AssocTotal

/-- One atomic operation on `g_stats`. -/
inductive Update where
  | kindCall (kind : ℕ)
  | successful
  | successfulBytes (requestedSize : ℕ)
  | failed
  | freeCall
  | bypassFree
  | reallocCall
  | bypassRealloc
  | blockIn
  | bytesIn (size : ℕ)
  | blockOut
  | bytesOut (size : ℕ)
  deriving Repr, DecidableEq

def Update.apply (c : AoAtomicStats) : Update → AoAtomicStats
  | .kindCall kind => countKind kind c
  | .successful => { c with successfulAllocations := add c.successfulAllocations 1 }
  | .successfulBytes n =>
    { c with successfulAllocationBytes := add c.successfulAllocationBytes n }
  | .failed => { c with failedAllocations := add c.failedAllocations 1 }
  | .freeCall => { c with freeCalls := add c.freeCalls 1 }
  | .bypassFree => { c with bypassFreeCalls := add c.bypassFreeCalls 1 }
  | .reallocCall => { c with reallocCalls := add c.reallocCalls 1 }
  | .bypassRealloc => { c with bypassReallocCalls := add c.bypassReallocCalls 1 }
  | .blockIn => { c with liveBlocks := add c.liveBlocks 1 }
  | .bytesIn n => { c with liveBytes := add c.liveBytes n }
  | .blockOut => { c with liveBlocks := sub c.liveBlocks 1 }
  | .bytesOut n => { c with liveBytes := sub c.liveBytes n }

/-- The `ao_record_*` functions: they read `g_capture_depth` first. -/
inductive Record where
  | failed
  | successful (kind requestedSize : ℕ)
  | free (bypass : Bool)
  | realloc (bypass : Bool)
  deriving Repr, DecidableEq

def Record.updates : Record → List Update
  | .failed => [.failed]
  | .successful kind size => [.kindCall kind, .successful, .successfulBytes size]
  | .free bypass => .freeCall :: if bypass then [.bypassFree] else []
  | .realloc bypass => .reallocCall :: if bypass then [.bypassRealloc] else []

def liveAddUpdates (size : ℕ) : List Update := [.blockIn, .bytesIn size]

def liveRemoveUpdates (size : ℕ) : List Update := [.blockOut, .bytesOut size]

def liveUpdateUpdates (old new : ℕ) : List Update :=
  if new > old then [.bytesIn (new - old)]
  else if old > new then [.bytesOut (old - new)]
  else []

/-! The atomic operations add up to the functions of the sequential model. -/

theorem liveAdd_updates (s : State) (size : ℕ) :
    aoLiveAdd s size = mapStats s fun c => (liveAddUpdates size).foldl Update.apply c := rfl

theorem liveRemove_updates (s : State) (size : ℕ) :
    aoLiveRemove s size = mapStats s fun c => (liveRemoveUpdates size).foldl Update.apply c := by
  have hout : ∀ c : AoAtomicStats, Update.apply c .blockOut =
      { c with liveBlocks := sub c.liveBlocks 1 } := fun _ => rfl
  have hbytes : ∀ c : AoAtomicStats, Update.apply c (.bytesOut size) =
      { c with liveBytes := sub c.liveBytes size } := fun _ => rfl
  refine congrArg (mapStats s) (funext fun c => ?_)
  rw [liveRemoveUpdates, List.foldl_cons, List.foldl_cons, List.foldl_nil, hout, hbytes]

theorem liveUpdate_updates (s : State) (old new : ℕ) :
    aoLiveUpdate s old new = mapStats s fun c =>
      (liveUpdateUpdates old new).foldl Update.apply c := by
  unfold aoLiveUpdate liveUpdateUpdates
  split
  · rfl
  · split <;> rfl

theorem recordFailed_updates (s : State) : aoRecordFailedAllocation s =
    if aoCaptureEnabled s then mapStats s fun c => Record.failed.updates.foldl Update.apply c
    else s := rfl

theorem recordSuccessful_updates (s : State) (kind size : ℕ) :
    aoRecordSuccessfulAllocation s kind size = if aoCaptureEnabled s then
      mapStats s fun c => (Record.successful kind size).updates.foldl Update.apply c else s := by
  unfold aoRecordSuccessfulAllocation
  cases aoCaptureEnabled s <;> rfl

theorem recordFree_updates (s : State) (bypass : Bool) :
    aoRecordFree s bypass = if aoCaptureEnabled s then
      mapStats s fun c => (Record.free bypass).updates.foldl Update.apply c else s := by
  unfold aoRecordFree
  cases aoCaptureEnabled s <;> cases bypass <;> rfl

theorem recordRealloc_updates (s : State) (bypass : Bool) :
    aoRecordRealloc s bypass = if aoCaptureEnabled s then
      mapStats s fun c => (Record.realloc bypass).updates.foldl Update.apply c else s := by
  unfold aoRecordRealloc
  cases aoCaptureEnabled s <;> cases bypass <;> rfl

/-! ### Threads -/

/-- What remains of a call. `was` is the size the caller last asked for, and
`counted` what the live counters still hold for a call that found the registry
full; no step depends on them. -/
inductive Pc where
  | idle
  | allocReal (kind size : ℕ)
  | track (kind size block : ℕ)
  | update (u : Update) (next : Pc)
  | record (r : Record) (next : Pc)
  | freeRemove (ptr was : ℕ)
  | freeReal (ptr : ℕ)
  | reallocLookup (ptr size was : ℕ)
  | reallocReal (ptr size was : ℕ) (old : Option (ℕ × ℕ))
  | reallocSwap (ptr size : ℕ) (old : ℕ × ℕ) (newPtr : ℕ)
  | ret (block : Option (ℕ × ℕ))
  | fatal (counted : Option ℕ)
  deriving Repr, DecidableEq

def updatesThen (us : List Update) (next : Pc) : Pc := us.foldr Pc.update next

/-- `held` is what completed calls returned and no later call has started to
release, with its holder and the size it asked for. -/
structure World (T : Type) where
  shared : State
  pc : T → Pc
  held : Assoc ℕ (T × ℕ)

variable {T : Type} [DecidableEq T]

/-- `t` has run a step that left `s` and has `next` to do. -/
def World.goto (w : World T) (t : T) (s : State) (next : Pc) : World T :=
  { w with shared := s, pc := Function.update w.pc t next }

/-- Thread `t` enters a call. A block it passes must be its own. -/
def startCall (w : World T) (t : T) (c : Request) : Option (World T) :=
  if w.pc t ≠ .idle then none
  else match c with
    | .malloc size => some (w.goto t w.shared (.allocReal 0 size))
    | .calloc nmemb size =>
      if nmemb ≠ 0 ∧ size > sizeMax / nmemb then
        some (w.goto t { w.shared with errno := .enomem } (.record .failed (.ret none)))
      else some (w.goto t w.shared (.allocReal 1 (mul nmemb size)))
    | .realloc ptr size =>
      if ptr = 0 then some (w.goto t w.shared (.allocReal 2 size))
      else match w.held.lookup ptr with
        | none => none
        | some (owner, was) =>
          if owner ≠ t then none
          else some { w.goto t w.shared (.reallocLookup ptr size was) with
            held := w.held.erase ptr }
    | .free ptr =>
      if ptr = 0 then some (w.goto t w.shared (.ret none))
      else match w.held.lookup ptr with
        | none => none
        | some (owner, was) =>
          if owner ≠ t then none
          else some { w.goto t w.shared (.freeRemove ptr was) with held := w.held.erase ptr }

/-- Thread `t` runs its next atomic step; `ans` is what the real allocator
returns in it. A full registry leads to `ao_fatal`, and the other threads run on
until it has ended the process. -/
def advance (w : World T) (t : T) (ans : ℕ) : Option (World T) :=
  let s := w.shared
  match w.pc t with
  | .idle => none
  | .allocReal kind size =>
    some (w.goto t (if kind = 2 then realRealloc s 0 size ans else realAlloc s ans)
      (if ans = 0 then .record .failed (.ret none) else .track kind size ans))
  | .track kind size block =>
    let id := aoNextAllocationId s
    let r := aoRegistryInsertLocked id.2.registry block size id.1
    some (w.goto t { id.2 with registry := r.2 } (if r.1 = false then .fatal none
      else updatesThen (liveAddUpdates size)
        (.record (.successful kind size) (.ret (some (block, size))))))
  | .update u next => some (w.goto t (mapStats s u.apply) next)
  | .record r next =>
    some (w.goto t s (if aoCaptureEnabled s then updatesThen r.updates next else next))
  | .freeRemove ptr _ =>
    let r := aoRegistryRemoveLocked s.registry ptr
    some (w.goto t { s with registry := r.2 } (.record (.free r.1.isNone)
      (match r.1 with
        | some v => updatesThen (liveRemoveUpdates v.1) (.freeReal ptr)
        | none => .freeReal ptr)))
  | .freeReal ptr => some (w.goto t (realFree s ptr) (.ret none))
  | .reallocLookup ptr size was =>
    some (w.goto t s (match aoRegistryLookupLocked s.registry ptr with
      | some old => .reallocReal ptr size was (some old)
      | none => .record (.realloc true) (.reallocReal ptr size was none)))
  | .reallocReal ptr size was old =>
    some (w.goto t (realRealloc s ptr size ans)
      (match old with
        | some old =>
          if ans = 0 ∧ size ≠ 0 then
            .record (.realloc false) (.record .failed (.ret (some (ptr, was))))
          else .reallocSwap ptr size old ans
        | none =>
          if ans = 0 then
            if size ≠ 0 then .record .failed (.ret (some (ptr, was))) else .ret none
          else .ret (some (ans, size))))
  | .reallocSwap ptr size old newPtr =>
    let t' := (aoRegistryRemoveLocked s.registry ptr).2
    if newPtr = 0 then
      some (w.goto t { s with registry := t' }
        (.record (.realloc false) (updatesThen (liveRemoveUpdates old.1) (.ret none))))
    else
      let r := aoRegistryInsertLocked t' newPtr size old.2
      some (w.goto t { s with registry := r.2 } (if r.1 = false then .fatal (some old.1)
        else .record (.realloc false)
          (updatesThen (liveUpdateUpdates old.1 size) (.ret (some (newPtr, size))))))
  | .ret none => some (w.goto t s .idle)
  | .ret (some (block, size)) =>
    some { w.goto t s .idle with held := w.held.insert block (t, size) }
  | .fatal _ => none

/-- The real allocator fails or returns an address that is not allocated; a
reallocated block counts as released. -/
def RealGives (w : World T) (t : T) (ans : ℕ) : Prop :=
  ans = 0 ∨ 2 ≤ ans ∧ ans ∉ match w.pc t with
    | .reallocReal ptr _ _ _ => w.shared.heap.erase ptr
    | _ => w.shared.heap

/-- Runs in which every step meets `ok`, from the moment the real functions
are resolved. `heap` holds blocks that do not come from these calls. -/
inductive Interleaved (ok : World T → T → Prop) : World T → Prop where
  | start (b : Bootstrap) (heap : Finset ℕ) (h : ∀ a ∈ heap, 2 ≤ a) :
      Interleaved ok ⟨{ initState b heap with resolved := true }, fun _ => .idle, ∅⟩
  | call (w w' : World T) (t : T) (c : Request) (hr : Interleaved ok w)
      (hs : startCall w t c = some w') : Interleaved ok w'
  | advance (w w' : World T) (t : T) (ans : ℕ) (hr : Interleaved ok w) (hans : RealGives w t ans)
      (hok : ok w t) (hs : advance w t ans = some w') : Interleaved ok w'

end LibcOverride.MockAllocator

import LibcOverride.MockAllocator.RegistryMap
import LibcOverride.MockAllocator.State

/-!
# malloc, calloc, realloc and free (src/mock_allocator.c:291-319, 402-420, 468-651)

Every call makes at most one call into the real allocator; `ans` is what that
call returns. The dynamic loader, which may itself allocate while the resolver
runs, is a parameter.
-/

namespace LibcOverride.MockAllocator
open Word

/-- The three places that end the process through `ao_fatal`. -/
inductive Fatal where
  | unresolved
  | exhausted
  | exhaustedRealloc
  deriving Repr, DecidableEq

def Fatal.message : Fatal → String
  | .unresolved => "mock_allocator: failed to resolve real allocation symbols\n"
  | .exhausted => "mock_allocator: allocation registry exhausted\n"
  | .exhaustedRealloc => "mock_allocator: allocation registry exhausted during realloc\n"

/-- A call returns, or ends the process with `_exit(127)`. -/
inductive Outcome (α : Type) where
  | ret (value : α) (s : State)
  | exit (why : Fatal)

def Outcome.bind {α β : Type} (o : Outcome α) (k : α → State → Outcome β) : Outcome β :=
  match o with
  | .ret a s => k a s
  | .exit why => .exit why

theorem Outcome.bind_eq_ret {α β : Type} {o : Outcome α} {k : α → State → Outcome β} {b : β}
    {s : State} (h : o.bind k = .ret b s) : ∃ a s', o = .ret a s' ∧ k a s' = .ret b s := by
  cases o with
  | ret a s' => exact ⟨a, s', rfl, h⟩
  | exit why => cases h

theorem Outcome.bind_eq_exit {α β : Type} {o : Outcome α} {k : α → State → Outcome β}
    {why : Fatal} (h : o.bind k = .exit why) :
    o = .exit why ∨ ∃ a s', o = .ret a s' ∧ k a s' = .exit why := by
  cases o with
  | ret a s' => exact Or.inr ⟨a, s', rfl, h⟩
  | exit w =>
    injection h with hw
    rw [hw]
    exact Or.inl rfl

/-! ### The real allocator -/

/-- `g_real_malloc` and `g_real_calloc`. -/
def realAlloc (s : State) (ans : ℕ) : State :=
  if ans = 0 then { s with errno := .enomem } else { s with heap := insert ans s.heap }

/-- `g_real_realloc`: a NULL answer to a request of size 0 has freed the block. -/
def realRealloc (s : State) (ptr : ℕ) (size : ℕ) (ans : ℕ) : State :=
  if ans = 0 then
    if size = 0 then { s with heap := s.heap.erase ptr } else { s with errno := .enomem }
  else { s with heap := insert ans (s.heap.erase ptr) }

def realFree (s : State) (ptr : ℕ) : State := { s with heap := s.heap.erase ptr }

/-! ### Inside the resolver -/

/-- A call the loader makes while `g_in_resolver` is set. -/
inductive Request where
  | malloc (size : ℕ)
  | calloc (nmemb size : ℕ)
  | realloc (ptr : ℕ) (size : ℕ)
  | free (ptr : ℕ)
  deriving Repr, DecidableEq

structure Loader where
  malloc : Bool
  calloc : Bool
  realloc : Bool
  free : Bool
  requests : List Request

/-- All four `dlsym` results are non-NULL. -/
def Loader.found (ld : Loader) : Bool := ld.malloc && ld.calloc && ld.realloc && ld.free

/-- NULL from the bootstrap heap comes with `errno = ENOMEM`. -/
def withBootstrap (s : State) (r : ℕ × Bootstrap) : ℕ × State :=
  (r.1, { s with bootstrap := r.2, errno := if r.1 = 0 then .enomem else s.errno })

def resolverMalloc (s : State) (size : ℕ) : ℕ × State :=
  withBootstrap s (aoBootstrapAlloc s.bootstrap size)

def resolverCalloc (s : State) (nmemb size : ℕ) : ℕ × State :=
  let requestedSize := mul nmemb size
  let r := aoBootstrapAlloc s.bootstrap requestedSize
  if r.1 = 0 then withBootstrap s r
  else withBootstrap s
    (r.1, { r.2 with memory := fill r.2.memory (r.1 - r.2.base) 0 requestedSize })

def bootstrapRealloc (s : State) (ptr : ℕ) (size : ℕ) : ℕ × State :=
  withBootstrap s (aoBootstrapRealloc s.bootstrap ptr size)

def resolverCall (s : State) : Request → State
  | .malloc size => (resolverMalloc s size).2
  | .calloc nmemb size => (resolverCalloc s nmemb size).2
  | .realloc ptr size => (bootstrapRealloc s ptr size).2
  | .free _ => s

def aoResolveRealFunctions (ld : Loader) (s : State) : Outcome Unit :=
  let s := ld.requests.foldl resolverCall { s with inResolver := true }
  let s := { s with inResolver := false }
  if ld.found then .ret () s else .exit .unresolved

def aoEnsureRealFunctions (ld : Loader) (s : State) : Outcome Unit :=
  if s.resolved then .ret () s else aoResolveRealFunctions ld { s with resolved := true }

/-! ### Tracking -/

def aoNextAllocationId (s : State) : ℕ × State :=
  (s.nextAllocationId, { s with nextAllocationId := add s.nextAllocationId 1 })

def aoTrackAllocationOrDie (s : State) (ptr : ℕ) (requestedSize : ℕ) : Outcome Unit :=
  let id := aoNextAllocationId s
  let r := aoRegistryInsertLocked id.2.registry ptr requestedSize id.1
  let s := { id.2 with registry := r.2 }
  if r.1 = false then .exit .exhausted else .ret () (aoLiveAdd s requestedSize)

/-! ### Exported functions -/

def malloc (ld : Loader) (s : State) (size : ℕ) (ans : ℕ) : Outcome ℕ :=
  if s.inResolver then
    .ret (resolverMalloc s size).1 (resolverMalloc s size).2
  else
    (aoEnsureRealFunctions ld s).bind fun _ s =>
    let s := realAlloc s ans
    if ans = 0 then .ret 0 (aoRecordFailedAllocation s)
    else (aoTrackAllocationOrDie s ans size).bind fun _ s =>
      .ret ans (aoRecordSuccessfulAllocation s 0 size)

def calloc (ld : Loader) (s : State) (nmemb size : ℕ) (ans : ℕ) : Outcome ℕ :=
  if s.inResolver then
    .ret (resolverCalloc s nmemb size).1 (resolverCalloc s nmemb size).2
  else if nmemb ≠ 0 ∧ size > sizeMax / nmemb then
    .ret 0 (aoRecordFailedAllocation { s with errno := .enomem })
  else
    let requestedSize := mul nmemb size
    (aoEnsureRealFunctions ld s).bind fun _ s =>
    let s := realAlloc s ans
    if ans = 0 then .ret 0 (aoRecordFailedAllocation s)
    else (aoTrackAllocationOrDie s ans requestedSize).bind fun _ s =>
      .ret ans (aoRecordSuccessfulAllocation s 1 requestedSize)

/-- `realloc(NULL, size)` outside the resolver. -/
def reallocNull (s : State) (size : ℕ) (ans : ℕ) : Outcome ℕ :=
  let s := realRealloc s 0 size ans
  if ans = 0 then .ret 0 (aoRecordFailedAllocation s)
  else (aoTrackAllocationOrDie s ans size).bind fun _ s =>
    .ret ans (aoRecordSuccessfulAllocation s 2 size)

/-- `realloc` of a block that the registry does not hold. -/
def reallocUntracked (s : State) (ptr : ℕ) (size : ℕ) (ans : ℕ) : Outcome ℕ :=
  let s := realRealloc (aoRecordRealloc s true) ptr size ans
  .ret ans (if ans = 0 ∧ size ≠ 0 then aoRecordFailedAllocation s else s)

/-- `realloc` of a tracked block whose entry was read before the real call. -/
def reallocTracked (s : State) (ptr : ℕ) (size : ℕ) (old : ℕ × ℕ) (ans : ℕ) :
    Outcome ℕ :=
  let s := realRealloc s ptr size ans
  if ans = 0 ∧ size ≠ 0 then
    .ret 0 (aoRecordFailedAllocation (aoRecordRealloc s false))
  else
    let s := { s with registry := (aoRegistryRemoveLocked s.registry ptr).2 }
    if ans = 0 then .ret 0 (aoLiveRemove (aoRecordRealloc s false) old.1)
    else
      let r := aoRegistryInsertLocked s.registry ans size old.2
      let s := { s with registry := r.2 }
      if r.1 = false then .exit .exhaustedRealloc
      else .ret ans (aoLiveUpdate (aoRecordRealloc s false) old.1 size)

def realloc (ld : Loader) (s : State) (ptr : ℕ) (size : ℕ) (ans : ℕ) : Outcome ℕ :=
  if s.inResolver then
    .ret (bootstrapRealloc s ptr size).1 (bootstrapRealloc s ptr size).2
  else if aoBootstrapContains s.bootstrap ptr then
    .ret (bootstrapRealloc s ptr size).1 (bootstrapRealloc s ptr size).2
  else
    (aoEnsureRealFunctions ld s).bind fun _ s =>
    if ptr = 0 then reallocNull s size ans
    else match aoRegistryLookupLocked s.registry ptr with
      | none => reallocUntracked s ptr size ans
      | some old => reallocTracked s ptr size old ans

def free (ld : Loader) (s : State) (ptr : ℕ) : Outcome Unit :=
  if ptr = 0 then .ret () s
  else if aoBootstrapContains s.bootstrap ptr then .ret () s
  else if s.inResolver then .ret () s
  else
    (aoEnsureRealFunctions ld s).bind fun _ s =>
    let r := aoRegistryRemoveLocked s.registry ptr
    let s := { s with registry := r.2 }
    let s := aoRecordFree s r.1.isNone
    let s := match r.1 with
      | some v => aoLiveRemove s v.1
      | none => s
    .ret () (realFree s ptr)

def aoMockIsTrackedAllocation (s : State) (ptr : ℕ) : Bool :=
  if ptr = 0 then false else aoRegistryContains s.registry ptr

def aoAllocBridgeOwns (s : State) (ptr : ℕ) : Bool := aoMockIsTrackedAllocation s ptr

def aoAllocBridgeLibcFree (ld : Loader) (s : State) (ptr : ℕ) : Outcome Unit :=
  if ptr = 0 then .ret () s
  else (aoEnsureRealFunctions ld s).bind fun _ s => .ret () (realFree s ptr)

def aoAllocBridgeLibcRealloc (ld : Loader) (s : State) (ptr : ℕ) (size : ℕ) (ans : ℕ) :
    Outcome ℕ :=
  (aoEnsureRealFunctions ld s).bind fun _ s => .ret ans (realRealloc s ptr size ans)

/-- One call of the program; a function without a result returns 0. -/
inductive Call where
  | malloc (size : ℕ)
  | calloc (nmemb size : ℕ)
  | realloc (ptr : ℕ) (size : ℕ)
  | free (ptr : ℕ)
  | libcFree (ptr : ℕ)
  | libcRealloc (ptr : ℕ) (size : ℕ)
  | reset
  | beginCapture
  | endCapture
  deriving Repr, DecidableEq

def step (ld : Loader) (s : State) (c : Call) (ans : ℕ) : Outcome ℕ :=
  match c with
  | .malloc size => malloc ld s size ans
  | .calloc nmemb size => calloc ld s nmemb size ans
  | .realloc ptr size => realloc ld s ptr size ans
  | .free ptr => (free ld s ptr).bind fun _ s => .ret 0 s
  | .libcFree ptr => (aoAllocBridgeLibcFree ld s ptr).bind fun _ s => .ret 0 s
  | .libcRealloc ptr size => aoAllocBridgeLibcRealloc ld s ptr size ans
  | .reset => .ret 0 (aoMockReset s)
  | .beginCapture => .ret 0 (aoMockBeginCapture s)
  | .endCapture => .ret 0 (aoMockEndCapture s)

end LibcOverride.MockAllocator

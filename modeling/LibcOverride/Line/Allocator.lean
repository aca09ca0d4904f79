import LibcOverride.Line.Partition
import LibcOverride.MockAllocator.Clients

/-!
# The line buffer on the preloaded allocator
(src/line_overrides.c:6-90, src/mock_allocator.c:552-619)

All that getdelim does to the allocator are the `realloc`s of `*s` that it records.
The buffer is the only block that it owns, whatever the calls come to.
-/

namespace LibcOverride.Line
open Clients Function
open MockAllocator (State Ledger Loader BlockMap Placement Provided Served)

/-- The caller's buffer. -/
def World.sizes (w : World) : Sizes ℕ := fun p =>
  if w.s = some p then (w.heap.read p).map List.length else none

/-- The buffer's name, and the one that the next block will have. -/
def World.names (w : World) : Option ℕ × ℕ := (w.s, w.heap.next)

def renamed (names : Option ℕ × ℕ) (r : Request) : Option ℕ × ℕ :=
  if r.granted then (some names.2, names.2 + 1) else names

/-- The requests as operations on the buffer. -/
def operations : Option ℕ × ℕ → List Request → List (Op ℕ)
  | _, [] => []
  | names, r :: rs => .realloc names.1 names.2 r.size r.granted :: operations (renamed names r) rs

theorem operations_append (names : Option ℕ × ℕ) (rs rs' : List Request) :
    operations names (rs ++ rs') = operations names rs ++ operations (rs.foldl renamed names) rs' := by
  induction rs generalizing names with
  | nil => rfl
  | cons r rs ih => exact congrArg (List.cons _) (ih _)

/-- What was asked for between the two worlds is what was done to the buffer. -/
def Allocates (w w' : World) : Prop :=
  ∃ rs, w'.asked = w.asked ++ rs ∧ Uses w.sizes (operations w.names rs) w'.sizes ∧
    w'.names = rs.foldl renamed w.names

variable {env : Env} {w w₁ w' : World} {length size : ℕ} {fallback : Bool} {r : ℤ}

theorem allocates_same (hsizes : w'.sizes = w.sizes) (hnames : w'.names = w.names)
    (hasked : w'.asked = w.asked) : Allocates w w' := by
  refine ⟨[], by rw [hasked, List.append_nil], ?_, hnames⟩
  rw [hsizes]
  exact .nil

theorem allocates_eq (hs : w'.s = w.s) (hheap : w'.heap = w.heap) (hasked : w'.asked = w.asked) :
    Allocates w w' := by
  refine allocates_same ?_ ?_ hasked
  · unfold World.sizes
    rw [hs, hheap]
  · unfold World.names
    rw [hs, hheap]

theorem Allocates.trans (h : Allocates w w₁) (h' : Allocates w₁ w') : Allocates w w' := by
  obtain ⟨rs, hasked, huses, hnames⟩ := h
  obtain ⟨rs', hasked', huses', hnames'⟩ := h'
  refine ⟨rs ++ rs', by rw [hasked', hasked, List.append_assoc], ?_, ?_⟩
  · rw [operations_append, ← hnames]
    exact huses.append huses'
  · rw [List.foldl_append, ← hnames, hnames']

/-! ### The requests -/

theorem fresh_sizes (w : World) : w.sizes w.heap.next = none := by
  unfold World.sizes
  split
  · cases hread : w.heap.read w.heap.next with
    | none => rfl
    | some b => exact absurd (Heap.lt_next_of_read hread) (Nat.lt_irrefl _)
  · rfl

theorem sizes_drop (w : World) : w.sizes.drop w.s = fun _ => none := by
  funext q
  unfold World.sizes
  cases w.s with
  | none => rfl
  | some p =>
    by_cases hq : q = p
    · rw [hq, Sizes.drop, update_self]
    · rw [Sizes.drop, update_of_ne hq, if_neg fun heq => hq (Option.some.inj heq).symm]

/-- The heap of a request: the buffer was live. -/
theorem request_live {res : Option ℕ} (h : request env w size fallback = some (res, w₁)) :
    (∀ p ∈ w.s, w.sizes p ≠ none) ∧ ∃ heap,
      w.heap.resize w.s size size (env w.asked.length) = some (res, heap) ∧
      w₁ = { w with heap, asked := w.asked ++ [⟨size, fallback, res.isSome⟩] } := by
  obtain ⟨⟨res', heap⟩, hresize, heq⟩ := Option.map_eq_some_iff.mp h
  cases heq
  refine ⟨fun p hp => ?_, heap, hresize, rfl⟩
  have hs : w.s = some p := hp
  rw [hs] at hresize
  obtain ⟨b, hread, -⟩ := Option.map_eq_some_iff.mp hresize
  rw [World.sizes, if_pos hs, hread]
  exact Option.some_ne_none _

theorem resize_some {heap : Heap (List UInt8)} {a : Heap.Answer UInt8} {p : ℕ}
    (h : w.heap.resize w.s size size a = some (some p, heap)) :
    p = w.heap.next ∧ heap.next = w.heap.next + 1 ∧
      (heap.read p).map List.length = some size := by
  have hnew (h₀ : Heap (List UInt8)) (b : List UInt8) (hnext : h₀.next = w.heap.next) :
      (h₀.alloc (Heap.resized b size a.junk)).next = w.heap.next + 1 ∧
      ((h₀.alloc (Heap.resized b size a.junk)).read w.heap.next).map List.length = some size := by
    rw [Heap.next_alloc, hnext, Heap.read_alloc, if_pos hnext.symm, Option.map_some,
      Heap.length_resized]
    exact ⟨rfl, rfl⟩
  cases hs : w.s with
  | none =>
    rw [hs] at h
    dsimp only [Heap.resize, Heap.malloc] at h
    split at h <;> cases h
    exact ⟨rfl, hnew w.heap [] rfl⟩
  | some q =>
    rw [hs] at h
    obtain ⟨b, hread, hres⟩ := Option.map_eq_some_iff.mp h
    split at hres <;> cases hres
    exact ⟨rfl, hnew _ b (Heap.next_release ..)⟩

theorem resize_none {heap : Heap (List UInt8)} {a : Heap.Answer UInt8}
    (h : w.heap.resize w.s size size a = some (none, heap)) : heap = w.heap := by
  cases hs : w.s with
  | none =>
    rw [hs] at h
    dsimp only [Heap.resize, Heap.malloc] at h
    split at h <;> cases h
    rfl
  | some q =>
    rw [hs] at h
    obtain ⟨b, hread, hres⟩ := Option.map_eq_some_iff.mp h
    split at hres <;> cases hres
    rfl

/-- A request that is granted moves the buffer. -/
theorem request_granted {p n : ℕ} (h : request env w size fallback = some (some p, w₁)) :
    Allocates w { w₁ with s := some p, n } := by
  obtain ⟨hlive, heap, hresize, rfl⟩ := request_live h
  obtain ⟨rfl, hnext, hnew⟩ := resize_some hresize
  refine ⟨[⟨size, fallback, true⟩], rfl, .one ?_, congrArg (Prod.mk _) hnext⟩
  have hafter : World.sizes
      { w with heap, s := some w.heap.next, n, asked := w.asked ++ [⟨size, fallback, true⟩] } =
      update (w.sizes.drop w.s) w.heap.next (some size) := by
    funext q
    rw [sizes_drop, World.sizes]
    by_cases hq : q = w.heap.next
    · rw [hq, if_pos rfl, update_self, hnew]
    · rw [if_neg fun heq => hq (Option.some.inj heq).symm, update_of_ne hq]
  have hstep : Step w.sizes (.realloc w.s w.heap.next size true) _ :=
    .realloc hlive (fresh_sizes w)
  rwa [← hafter] at hstep

theorem request_refused (hsize : size ≠ 0) (h : request env w size fallback = some (none, w₁)) :
    Allocates w w₁ := by
  obtain ⟨hlive, heap, hresize, rfl⟩ := request_live h
  obtain rfl := resize_none hresize
  exact ⟨[⟨size, fallback, false⟩], rfl, .one (.noRealloc hlive hsize), rfl⟩

/-! ### A call -/

theorem grow_allocates {ok : Bool} (h : aoGrowLineBuffer env w length = some (ok, w')) :
    Allocates w w' := by
  have hmin : minCapacity length ≠ 0 := Nat.succ_ne_zero _
  have hnew : newCapacity length ≠ 0 := by
    unfold newCapacity
    split <;> omega
  unfold aoGrowLineBuffer at h
  split at h
  · cases h
    exact allocates_eq rfl rfl rfl
  · obtain ⟨⟨res, w₁⟩, hfirst, h⟩ := Option.bind_eq_some_iff.mp h
    cases res with
    | some p =>
      cases h
      exact request_granted hfirst
    | none =>
      have hrefused := request_refused hnew hfirst
      obtain ⟨⟨res, w₂⟩, hsecond, h⟩ := Option.bind_eq_some_iff.mp h
      cases res with
      | some p =>
        cases h
        exact hrefused.trans (request_granted hsecond)
      | none =>
        cases h
        exact (hrefused.trans (request_refused hmin hsecond)).trans (allocates_eq rfl rfl rfl)

theorem store_allocates {i : ℕ} {c : UInt8} (h : store w i c = some w') : Allocates w w' := by
  obtain ⟨p, hs, h⟩ := Option.bind_eq_some_iff.mp h
  obtain ⟨heap, hcopy, rfl⟩ := Option.map_eq_some_iff.mp h
  refine allocates_same ?_ (congrArg (Prod.mk w.s) (Heap.next_copyIn hcopy)) rfl
  funext q
  unfold World.sizes
  dsimp only
  rw [Heap.copyIn_lengths hcopy]

theorem makeRoom_allocates {ok : Bool} (h : makeRoom env w length = some (ok, w')) :
    Allocates w w' := by
  unfold makeRoom at h
  split at h
  · exact grow_allocates h
  · cases h
    exact allocates_eq rfl rfl rfl

theorem getc_allocates (w : World) : Allocates w (getcUnlocked w).2 := by
  unfold getcUnlocked
  split <;> exact allocates_eq rfl rfl rfl

theorem finish_allocates (h : finish w length = some (r, w')) : Allocates w w' := by
  obtain ⟨w₁, hstore, heq⟩ := Option.map_eq_some_iff.mp h
  rw [← (Prod.mk.inj heq).2]
  exact (store_allocates hstore).trans (allocates_eq rfl rfl rfl)

theorem readLoop_allocates {delim : ℤ} {fuel : ℕ}
    (h : readLoop env delim fuel w length = some (r, w')) : Allocates w w' := by
  induction fuel generalizing w length with
  | zero => cases h
  | succ fuel ih =>
    obtain ⟨⟨ok, w₁⟩, hroom, h⟩ := Option.bind_eq_some_iff.mp h
    refine (makeRoom_allocates hroom).trans ?_
    cases ok with
    | false =>
      cases h
      exact allocates_eq rfl rfl rfl
    | true =>
      have hread := getc_allocates w₁
      dsimp only at h
      generalize getcUnlocked w₁ = read at h hread
      obtain ⟨c, w₂⟩ := read
      refine hread.trans ?_
      cases c with
      | none =>
        dsimp only at h
        split at h
        · cases h
          exact allocates_eq rfl rfl rfl
        · exact finish_allocates h
      | some c =>
        obtain ⟨w₃, hstore, h⟩ := Option.bind_eq_some_iff.mp h
        refine (store_allocates hstore).trans ?_
        split at h
        · exact finish_allocates h
        · exact ih h

theorem getdelim_allocates {given : Bool} {delim : ℤ}
    (h : getdelim env given delim w = some (r, w')) : Allocates w w' := by
  unfold getdelim at h
  split at h
  · cases h
    exact allocates_eq rfl rfl rfl
  · refine Allocates.trans (allocates_eq ?_ ?_ ?_) (readLoop_allocates h) <;> unfold flockfile <;>
      split <;> rfl

/-! ### Calls one after the other -/

/-- Calls of getdelim and getline on one buffer, from any streams. -/
inductive Session (env : Env) (w : World) : World → Prop where
  | start : Session env w w
  | turn {w₁ : World} (h : Session env w w₁) (file : File) : Session env w { w₁ with file }
  | call {w₁ w₂ : World} {given : Bool} {delim r : ℤ} (h : Session env w w₁)
    (hrun : getdelim env given delim w₁ = some (r, w₂)) : Session env w w₂

theorem session_allocates (h : Session env w w') : Allocates w w' := by
  induction h with
  | start => exact allocates_eq rfl rfl rfl
  | turn h file ih => exact ih.trans (allocates_eq rfl rfl rfl)
  | call h hrun ih => exact ih.trans (getdelim_allocates hrun)

theorem getdelim_ready {given : Bool} {delim : ℤ} (hw : w.Ready)
    (h : getdelim env given delim w = some (r, w')) : w'.Ready := by
  cases given with
  | false =>
    cases h
    exact hw
  | true =>
    obtain ⟨r', w'', hrun, ho⟩ := getdelim_spec hw env delim
    rw [h] at hrun
    cases hrun
    cases ho with
    | returned _ b hf => exact hf.buffered.held.ready
    | ended _ b hf => exact hf.buffered.held.ready
    | refused _ b hf => exact hf.buffered.held.ready

theorem session_ready (hw : w.Ready) (h : Session env w w') : w'.Ready := by
  induction h with
  | start => exact hw
  | turn h file ih => exact ih
  | call h hrun ih => exact getdelim_ready ih hrun

/-- The allocator serves the requests of all calls, and then it has, beside the blocks
of others, the buffer at `*s` with at least `*n` bytes and nothing else. -/
theorem getdelim_served {ld : Loader} (P : Placement) {others : BlockMap} {place : ℕ → ℕ}
    {s : State} {L : Ledger} (hp : Provided others w.sizes place s L) (hw : w.Ready)
    (hc : Session env w w') :
    ∃ rs, w'.asked = w.asked ++ rs ∧
      ∃ out, Served ld P place s L (operations w.names rs) out ∧
      ∀ place' s' L', out = some (place', s', L') →
        Provided others w'.sizes place' s' L' ∧
        ∀ p, w'.s = some p → ∃ size id, L'.blocks.lookup (place' p) = some (size, id) ∧
          w'.n ≤ size := by
  obtain ⟨rs, hasked, huses, -⟩ := session_allocates hc
  obtain ⟨out, hserved, hout⟩ := MockAllocator.uses_served ld P hp huses
  refine ⟨rs, hasked, out, hserved, fun place' s' L' heq => ?_⟩
  have hp' := hout place' s' L' heq
  refine ⟨hp', fun p hs => ?_⟩
  obtain ⟨b, hread, hn, -⟩ := session_ready hw hc p hs
  have hsize : w'.sizes p = some b.length := by
    rw [World.sizes, if_pos hs, hread, Option.map_some]
  obtain ⟨⟨size, id⟩, hlookup, hlen⟩ := Option.map_eq_some_iff.mp (hp'.laid.mine p _ hsize).2
  exact ⟨size, id, hlookup, by rw [← hlen] at hn; exact hn⟩

/-- Each call after the other. -/
theorem session_calls {delim : ℤ} {cs : List (ℤ × World)} (h : Calls env delim w cs w') :
    Session env w w' := by
  have hgo {w₀ : World} (h₀ : Session env w₀ w) : Session env w₀ w' := by
    induction h with
    | last w w' hrun => exact h₀.call hrun
    | call w w₁ w' r cs hrun hr hrest ih => exact ih (h₀.call hrun)
  exact hgo .start

/-- Three lines with a refused request. -/
theorem getdelim_served_threeLines : ∃ w' out, Session refusesThird threeLines w' ∧
    Served MockAllocator.sampleLoader MockAllocator.Placement.behind (fun _ : ℕ => 0)
      (MockAllocator.initState MockAllocator.sampleBootstrap ∅) Ledger.empty
      [.realloc none 0 3 true, .realloc (some 0) 1 6 true, .realloc (some 1) 2 10 false,
        .realloc (some 1) 2 7 true] out := by
  obtain ⟨cs, w', hcalls, -, hasked⟩ := threeLines_calls
  have hp := MockAllocator.provided_nothing
    (MockAllocator.tracks_start MockAllocator.sampleBootstrap ∅ (by simp)) (fun _ : ℕ => 0)
  obtain ⟨rs, hrs, out, hserved, -⟩ := getdelim_served MockAllocator.Placement.behind hp
    threeLines_ready (session_calls hcalls)
  obtain rfl := hasked.symm.trans hrs
  exact ⟨w', out, session_calls hcalls, hserved⟩

end LibcOverride.Line

import LibcOverride.Lib.Clients
import LibcOverride.MockAllocator.Sessions
import Mathlib.Algebra.Order.BigOperators.Group.Finset

/-!
# Clients of the preloaded allocator
(src/mock_allocator.c:402-420, 498-651)

Whatever a part of the library does to its blocks through `malloc`, `realloc` and
`free`, and wherever the real allocator puts them: the allocator's blocks are those
that the client owns, with the sizes it asked for, and those it has nothing to do
with.
-/

namespace LibcOverride.MockAllocator
open AssocTotal Clients Function

variable {K : Type} [DecidableEq K]

/-- Where the real allocator puts the blocks that it grants. -/
structure Placement where
  pick : State → Call → ℕ
  valid : ∀ s c, pick s c ≠ 0 ∧ RealAnswer s c (pick s c)

/-- The call that an operation makes. -/
def callOf (place : K → ℕ) : Op K → Call
  | .malloc _ size _ => .malloc size
  | .realloc old _ size _ => .realloc (old.elim 0 place) size
  | .free old => .free (place old)

def Placement.answer (P : Placement) (s : State) (place : K → ℕ) : Op K → ℕ
  | .malloc new size granted =>
    if granted then P.pick s (callOf place (.malloc new size granted)) else 0
  | .realloc old new size granted =>
    if granted then P.pick s (callOf place (.realloc old new size granted)) else 0
  | .free _ => 0

/-- The places after an operation for which the allocator returned `ret`. -/
def placed (place : K → ℕ) (ret : ℕ) : Op K → K → ℕ
  | .malloc new _ true => update place new ret
  | .realloc _ new _ true => update place new ret
  | _ => place

/-- The allocator takes every call, and either ends the process in one or comes to
the end of them. -/
inductive Served (ld : Loader) (P : Placement) :
    (K → ℕ) → State → Ledger → List (Op K) → Option ((K → ℕ) × State × Ledger) → Prop
  | done {place : K → ℕ} {s : State} {L : Ledger} : Served ld P place s L [] (some (place, s, L))
  | exit {place : K → ℕ} {s : State} {L : Ledger} {op : Op K} {ops : List (Op K)} {why : Fatal}
      (ha : Allowed s L (callOf place op))
      (hs : step ld s (callOf place op) (P.answer s place op) = .exit why) :
      Served ld P place s L (op :: ops) none
  | call {place : K → ℕ} {s s' : State} {L : Ledger} {op : Op K} {ops : List (Op K)} {ret : ℕ}
      {out : Option ((K → ℕ) × State × Ledger)} (ha : Allowed s L (callOf place op))
      (hs : step ld s (callOf place op) (P.answer s place op) = .ret ret s')
      (h : Served ld P (placed place ret op) s' (ledgerStep L (callOf place op) ret) ops out) :
      Served ld P place s L (op :: ops) out

/-- The client's blocks beside those of others. -/
structure Provided (others : BlockMap) (σ : Sizes K) (place : K → ℕ) (s : State) (L : Ledger) :
    Prop where
  tracks : Tracks (core s) L
  laid : Laid others σ place L.map

/-- The operations are served, and lead to `σ` beside the blocks of others. -/
def ServedTo (ld : Loader) (P : Placement) (others : BlockMap) (place : K → ℕ) (s : State)
    (L : Ledger) (ops : List (Op K)) (σ : Sizes K) : Prop :=
  ∃ out, Served ld P place s L ops out ∧
    ∀ place' s' L', out = some (place', s', L') → Provided others σ place' s' L'

omit [DecidableEq K] in
/-- Who owns nothing leaves all blocks to others. -/
theorem provided_nothing {s : State} {L : Ledger} (h : Tracks (core s) L) (place : K → ℕ) :
    Provided L.map (fun _ => none) place s L :=
  ⟨h, fun _ _ hk => (nomatch hk), fun _ _ hj => (hj rfl).elim, fun _ _ => rfl⟩

/-- Behind all that there is. -/
def behind (s : State) : ℕ := (∑ a ∈ s.heap, a) + s.bootstrap.base + aoBootstrapHeapSize + 2

def Placement.behind : Placement where
  pick s _ := MockAllocator.behind s
  valid s c := by
    have hheap : MockAllocator.behind s ∉ s.heap := fun hmem => by
      have hle : MockAllocator.behind s ≤ ∑ a ∈ s.heap, a :=
        Finset.single_le_sum (f := id) (fun _ _ => Nat.zero_le _) hmem
      unfold MockAllocator.behind at hle
      omega
    refine ⟨Nat.succ_ne_zero _, Or.inr ⟨Nat.le_add_left _ _, ?_, ?_⟩⟩
    · refine decide_eq_false fun hin => ?_
      have hlt := hin.2
      unfold MockAllocator.behind at hlt
      omega
    · exact fun hmem => hheap (Finset.mem_of_mem_erase hmem)

/-! ### One operation -/

theorem malloc_value {ld : Loader} {s s' : State} {size ans ret : ℕ} (hr : s.inResolver = false)
    (h : malloc ld s size ans = .ret ret s') : ret = ans := by
  simp only [malloc, hr, Bool.false_eq_true, ite_false] at h
  obtain ⟨u, s₁, _, hk⟩ := Outcome.bind_eq_ret h
  split at hk
  · rename_i hz
    cases hk
    exact hz.symm
  · obtain ⟨v, s₂, _, hret⟩ := Outcome.bind_eq_ret hk
    cases hret
    rfl

theorem reallocNull_value {s s' : State} {size ans ret : ℕ}
    (h : reallocNull s size ans = .ret ret s') : ret = ans := by
  unfold reallocNull at h
  dsimp only at h
  split at h
  · rename_i hz
    cases h
    exact hz.symm
  · obtain ⟨v, s₂, _, hret⟩ := Outcome.bind_eq_ret h
    cases hret
    rfl

theorem reallocTracked_value {s s' : State} {ptr size ans ret : ℕ} {old : ℕ × ℕ}
    (h : reallocTracked s ptr size old ans = .ret ret s') : ret = ans := by
  unfold reallocTracked at h
  dsimp only at h
  split at h
  · rename_i hz
    cases h
    exact hz.1.symm
  · split at h
    · rename_i hz
      cases h
      exact hz.symm
    · split at h
      · cases h
      · cases h
        rfl

theorem realloc_value {ld : Loader} {s s' : State} {ptr size ans ret : ℕ}
    (hr : s.inResolver = false) (hb : aoBootstrapContains s.bootstrap ptr = false)
    (h : realloc ld s ptr size ans = .ret ret s') : ret = ans := by
  simp only [realloc, hr, hb, Bool.false_eq_true, ite_false] at h
  obtain ⟨u, s₁, _, hk⟩ := Outcome.bind_eq_ret h
  split at hk
  · exact reallocNull_value hk
  · split at hk
    · cases hk
      rfl
    · exact reallocTracked_value hk

section
variable {ld : Loader} {P : Placement} {others : BlockMap} {σ σ' : Sizes K} {place : K → ℕ}
  {s s' : State} {L : Ledger} {op : Op K} {ops : List (Op K)} {k : K} {p size : ℕ}

theorem create_map (L : Ledger) (hp : p ≠ 0) (size : ℕ) :
    (L.create p size).map = update L.map p (some (size, (1 + L.created) % 2 ^ 64)) := by
  unfold Ledger.create
  rw [if_neg hp]
  exact lookup_insert_update L.blocks p _

theorem drop_map (L : Ledger) (p : ℕ) : (L.drop p).map = update L.map p none :=
  lookup_erase_update L.blocks p

omit [DecidableEq K] in
theorem Provided.mem (h : Provided others σ place s L) (hk : σ k ≠ none) : place k ∈ L.blocks :=
  lookup_ne_none.mp (h.laid.live hk)

omit [DecidableEq K] in
theorem Provided.place_ne_zero (h : Provided others σ place s L) (hk : σ k ≠ none) :
    place k ≠ 0 := by
  have hge := h.tracks.noMarker _ (h.tracks.allocated _ (h.mem hk))
  omega

omit [DecidableEq K] in
theorem Provided.allowed (h : Provided others σ place s L) {old : Option K}
    (hold : ∀ k ∈ old, σ k ≠ none) : Allowed s L (.realloc (old.elim 0 place) size) := by
  cases old with
  | none => exact Or.inl rfl
  | some k => exact Or.inr (Or.inr (h.tracks.allocated _ (h.mem (hold k rfl))))

omit [DecidableEq K] in
/-- Nothing of the client's lies in the bootstrap heap. -/
theorem Provided.outside (h : Provided others σ place s L) {old : Option K}
    (hold : ∀ k ∈ old, σ k ≠ none) : aoBootstrapContains s.bootstrap (old.elim 0 place) = false := by
  cases old with
  | none =>
    have hpos := s.bootstrap.basePos
    exact decide_eq_false fun hin => by
      have hle : s.bootstrap.base ≤ 0 := hin.1
      omega
  | some k => exact decide_eq_false (h.tracks.ordinary _ (h.mem (hold k rfl))).2

theorem fresh_map (h : Tracks (core s) L) {ans : ℕ} (hnew : ans ∉ s.heap) : L.map ans = none :=
  AList.lookup_eq_none.mpr fun hmem => hnew (h.allocated ans hmem)

/-- A block that `realloc` moved is where it was put, with its new size. -/
theorem Provided.moved (h : Provided others σ place s L) {old : Option K} {ans : ℕ}
    (hold : ∀ k ∈ old, σ k ≠ none) (hk : σ k = none) (hans : ans ≠ 0)
    (hreal : RealAnswer s (.realloc (old.elim 0 place) size) ans) :
    Laid others (update (σ.drop old) k (some size)) (update place k ans)
      (ledgerStep L (.realloc (old.elim 0 place) size) ans).map := by
  obtain ⟨hge, -, hnew⟩ := hreal.resolve_left hans
  cases old with
  | none =>
    have h0 : 0 ∉ s.heap := mark_null h.tracks.noMarker
    have hnew : ans ∉ s.heap.erase 0 := hnew
    rw [Finset.erase_eq_of_notMem h0] at hnew
    have hstep : ledgerStep L (.realloc 0 size) ans = L.create ans size := by
      simp only [ledgerStep, ite_true]
    rw [Option.elim_none, hstep, create_map L hans]
    exact h.laid.add (fresh_map h.tracks hnew) hk
  | some j =>
    have hj := hold j rfl
    have hnew : ans ∉ s.heap.erase (place j) := hnew
    have hplace := h.place_ne_zero hj
    obtain ⟨entry, hentry⟩ := Option.ne_none_iff_exists'.mp (h.laid.live hj)
    have hlookup : L.blocks.lookup (place j) = some entry := hentry
    have hstep : ledgerStep L (.realloc (place j) size) ans =
        { L with blocks := (L.blocks.erase (place j)).insert ans (size, entry.2) } := by
      simp only [ledgerStep, hplace, ite_false, hlookup, Ledger.resize, hans]
    have hmap : (ledgerStep L (.realloc (place j) size) ans).map =
        update (update L.map (place j) none) ans (some (size, entry.2)) := by
      rw [hstep, ← drop_map]
      exact lookup_insert_update (L.blocks.erase (place j)) ans _
    have hgone : update L.map (place j) none ans = none := by
      by_cases heq : ans = place j
      · rw [heq, update_self]
      · rw [update_of_ne heq]
        exact fresh_map h.tracks fun hmem => hnew (Finset.mem_erase.mpr ⟨heq, hmem⟩)
    have hkj : update σ j none k = none := by
      by_cases heq : k = j
      · rw [heq, update_self]
      · rw [update_of_ne heq, hk]
    rw [Option.elim_some, hmap]
    exact (h.laid.drop hj).add hgone hkj

/-- A block that `realloc` freed is gone. -/
theorem Provided.dropped (h : Provided others σ place s L) {old : Option K}
    (hold : ∀ k ∈ old, σ k ≠ none) :
    Laid others (σ.drop old) place (ledgerStep L (.realloc (old.elim 0 place) 0) 0).map := by
  cases old with
  | none => exact h.laid
  | some j =>
    have hj := hold j rfl
    have hplace := h.place_ne_zero hj
    obtain ⟨entry, hentry⟩ := Option.ne_none_iff_exists'.mp (h.laid.live hj)
    have hlookup : L.blocks.lookup (place j) = some entry := hentry
    have hstep : ledgerStep L (.realloc (place j) 0) 0 = L.drop (place j) := by
      simp only [ledgerStep, hplace, ite_false, hlookup, Ledger.resize, ite_true]
    rw [Option.elim_some, hstep, drop_map]
    exact h.laid.drop hj

omit [DecidableEq K] in
/-- The state follows the ledger in every call that returns, so only the client's part
is to be shown. -/
theorem Provided.returns (h : Provided others σ place s L) {c : Call} {ans : ℕ}
    (after : ℕ → K → ℕ) (ha : Allowed s L c) (hans : RealAnswer s c ans)
    (hlaid : ∀ ret s', step ld s c ans = .ret ret s' →
      Laid others σ' (after ret) (ledgerStep L c ret).map) :
    (∃ why, step ld s c ans = .exit why) ∨ ∃ ret s', step ld s c ans = .ret ret s' ∧
      Provided others σ' (after ret) s' (ledgerStep L c ret) := by
  cases hstep : step ld s c ans with
  | exit why => exact Or.inl ⟨why, rfl⟩
  | ret ret s' =>
    exact Or.inr ⟨ret, s', rfl, tracks_step h.tracks ha hans hstep, hlaid ret s' hstep⟩

/-- The allocator takes each operation and answers it as the client is to have it. -/
theorem provided_step (ld : Loader) (P : Placement) (h : Provided others σ place s L)
    (hs : Clients.Step σ op σ') :
    Allowed s L (callOf place op) ∧
      ((∃ why, step ld s (callOf place op) (P.answer s place op) = .exit why) ∨
        ∃ ret s', step ld s (callOf place op) (P.answer s place op) = .ret ret s' ∧
          Provided others σ' (placed place ret op) s' (ledgerStep L (callOf place op) ret)) := by
  have hr : s.inResolver = false := h.tracks.outside
  cases hs with
  | @malloc k size hk =>
    obtain ⟨hne, hreal⟩ := P.valid s (.malloc size)
    refine ⟨trivial, h.returns (fun ret => update place k ret) trivial hreal ?_⟩
    intro ret s' hstep
    obtain rfl := malloc_value hr hstep
    obtain ⟨-, -, hnew⟩ := hreal.resolve_left hne
    have h0 : 0 ∉ s.heap := mark_null h.tracks.noMarker
    rw [gives_of_creates rfl, Finset.erase_eq_of_notMem h0] at hnew
    change Laid others _ _ (L.create (P.pick s (.malloc size)) size).map
    rw [create_map L hne]
    exact h.laid.add (fresh_map h.tracks hnew) hk
  | @noMalloc k size =>
    refine ⟨trivial, h.returns (fun _ => place) trivial (Or.inl rfl) ?_⟩
    intro ret s' hstep
    obtain rfl := malloc_value hr hstep
    exact h.laid
  | @realloc old k size hold hk =>
    obtain ⟨hne, hreal⟩ := P.valid s (.realloc (old.elim 0 place) size)
    have ha : Allowed s L (.realloc (old.elim 0 place) size) := h.allowed hold
    refine ⟨ha, h.returns (fun ret => update place k ret) ha hreal ?_⟩
    intro ret s' hstep
    obtain rfl := realloc_value hr (h.outside hold) hstep
    exact h.moved hold hk hne hreal
  | @noRealloc old k size hold hs =>
    have ha : Allowed s L (.realloc (old.elim 0 place) size) := h.allowed hold
    refine ⟨ha, h.returns (fun _ => place) ha (Or.inl rfl) ?_⟩
    intro ret s' hstep
    obtain rfl := realloc_value hr (h.outside hold) hstep
    have hsame : ledgerStep L (.realloc (old.elim 0 place) size) 0 = L := by
      simp only [ledgerStep, Ledger.create, Ledger.resize, hs, ite_true, ite_false]
      split
      · rfl
      · split <;> rfl
    change Laid others σ place (ledgerStep L (.realloc (old.elim 0 place) size) 0).map
    rw [hsame]
    exact h.laid
  | @released old k hold =>
    have ha : Allowed s L (.realloc (old.elim 0 place) 0) := h.allowed hold
    refine ⟨ha, h.returns (fun _ => place) ha (Or.inl rfl) ?_⟩
    intro ret s' hstep
    obtain rfl := realloc_value hr (h.outside hold) hstep
    exact h.dropped hold
  | @free k hk =>
    have ha : Allowed s L (.free (place k)) :=
      Or.inr (Or.inr (h.tracks.allocated _ (h.mem hk)))
    refine ⟨ha, h.returns (fun _ => place) ha (Or.inl rfl) ?_⟩
    intro ret s' hstep
    change Laid others _ place (L.drop (place k)).map
    rw [drop_map]
    exact h.laid.drop hk

/-- The answers leave no choice. -/
theorem served_unique {out out' : Option ((K → ℕ) × State × Ledger)}
    (h : Served ld P place s L ops out) (h' : Served ld P place s L ops out') : out = out' := by
  induction h with
  | done =>
    cases h'
    rfl
  | exit ha hs =>
    cases h' with
    | exit ha' hs' => rfl
    | call ha' hs' h' =>
      rw [hs] at hs'
      cases hs'
  | call ha hs h ih =>
    cases h' with
    | exit ha' hs' =>
      rw [hs] at hs'
      cases hs'
    | call ha' hs' h' =>
      rw [hs] at hs'
      cases hs'
      exact ih h'

/-- What a client does to its blocks the allocator serves, and what the client then
owns the allocator has. -/
theorem uses_served (ld : Loader) (P : Placement) (h : Provided others σ place s L)
    (hu : Uses σ ops σ') : ServedTo ld P others place s L ops σ' := by
  induction hu generalizing place s L with
  | nil =>
    refine ⟨_, .done, fun place' s' L' heq => ?_⟩
    obtain ⟨rfl, rfl, rfl⟩ := heq
    exact h
  | cons hstep hs ih =>
    obtain ⟨ha, ⟨why, hexit⟩ | ⟨ret, s₁, hret, h₁⟩⟩ := provided_step ld P h hstep
    · exact ⟨none, .exit ha hexit, fun _ _ _ heq => by cases heq⟩
    · obtain ⟨out, hserved, hout⟩ := ih h₁
      exact ⟨out, .call ha hret hserved, hout⟩

theorem served_provided {place' : K → ℕ} {s' : State} {L' : Ledger}
    (h : Provided others σ place s L) (hu : Uses σ ops σ')
    (hs : Served ld P place s L ops (some (place', s', L'))) : Provided others σ' place' s' L' := by
  obtain ⟨out, hserved, hout⟩ := uses_served ld P h hu
  exact hout place' s' L' (served_unique hserved hs)

end

end LibcOverride.MockAllocator

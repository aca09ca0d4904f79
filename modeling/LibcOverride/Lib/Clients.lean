import LibcOverride.Lib.Heap
import Mathlib.Data.Sum.Basic

/-!
# Clients of an allocator

What a part of a program does to the blocks it owns. A block has a name, which no
other has while it lives, and the size that was asked for.
-/

namespace LibcOverride.Clients
open Function

variable {K J : Type}

abbrev Sizes (K : Type) := K → Option ℕ

/-- `granted` is the answer to a request, `new` the block's name if it was granted. -/
inductive Op (K : Type) where
  | malloc (new : K) (size : ℕ) (granted : Bool)
  | realloc (old : Option K) (new : K) (size : ℕ) (granted : Bool)
  | free (old : K)
  deriving Repr, DecidableEq

/-- Nothing was refused. -/
def Op.granted : Op K → Bool
  | .malloc _ _ granted => granted
  | .realloc _ _ _ granted => granted
  | .free _ => true

/-- The size of the block that a request was granted. -/
def Op.gives : Op K → Option ℕ
  | .malloc _ size granted => if granted then some size else none
  | .realloc _ _ size granted => if granted then some size else none
  | .free _ => none

def Op.map (f : K → J) : Op K → Op J
  | .malloc new size granted => .malloc (f new) size granted
  | .realloc old new size granted => .realloc (old.map f) (f new) size granted
  | .free old => .free (f old)

section
variable [DecidableEq K]

def Sizes.drop (σ : Sizes K) : Option K → Sizes K
  | none => σ
  | some k => update σ k none

/-- A `realloc` to no bytes that returns a null pointer has freed the block. -/
inductive Step : Sizes K → Op K → Sizes K → Prop
  | malloc {σ : Sizes K} {k : K} {size : ℕ} (hk : σ k = none) :
      Step σ (.malloc k size true) (update σ k (some size))
  | noMalloc {σ : Sizes K} {k : K} {size : ℕ} : Step σ (.malloc k size false) σ
  | realloc {σ : Sizes K} {old : Option K} {k : K} {size : ℕ} (hold : ∀ j ∈ old, σ j ≠ none)
      (hk : σ k = none) : Step σ (.realloc old k size true) (update (σ.drop old) k (some size))
  | noRealloc {σ : Sizes K} {old : Option K} {k : K} {size : ℕ} (hold : ∀ j ∈ old, σ j ≠ none)
      (hs : size ≠ 0) : Step σ (.realloc old k size false) σ
  | released {σ : Sizes K} {old : Option K} {k : K} (hold : ∀ j ∈ old, σ j ≠ none) :
      Step σ (.realloc old k 0 false) (σ.drop old)
  | free {σ : Sizes K} {k : K} (hk : σ k ≠ none) : Step σ (.free k) (update σ k none)

inductive Uses : Sizes K → List (Op K) → Sizes K → Prop
  | nil {σ : Sizes K} : Uses σ [] σ
  | cons {σ σ' τ : Sizes K} {op : Op K} {ops : List (Op K)} (h : Step σ op σ')
      (hs : Uses σ' ops τ) : Uses σ (op :: ops) τ

theorem Uses.one {σ σ' : Sizes K} {op : Op K} (h : Step σ op σ') : Uses σ [op] σ' := .cons h .nil

theorem Uses.append {σ σ' τ : Sizes K} {ops ops' : List (Op K)} (h : Uses σ ops σ')
    (h' : Uses σ' ops' τ) : Uses σ (ops ++ ops') τ := by
  induction h with
  | nil => exact h'
  | cons hstep hs ih => exact .cons hstep (ih h')

/-! ### A client among others -/

variable [DecidableEq J] {f : K → J} {σ σ' : Sizes K} {ρ ρ' : Sizes J} {op : Op K}

omit [DecidableEq K] [DecidableEq J] in
theorem eq_along (hσ : ρ' ∘ f = ρ ∘ f) (hrest : ∀ j, j ∉ Set.range f → ρ' j = ρ j) : ρ' = ρ := by
  funext j
  by_cases hj : j ∈ Set.range f
  · obtain ⟨i, rfl⟩ := hj
    exact congrFun hσ i
  · exact hrest j hj

theorem update_along (hf : Injective f) {k : K} {size : Option ℕ} (hσ : ρ ∘ f = σ)
    (hσ' : ρ' ∘ f = update σ k size) (hrest : ∀ j, j ∉ Set.range f → ρ' j = ρ j) :
    ρ' = update ρ (f k) size := by
  funext j
  by_cases hj : j ∈ Set.range f
  · obtain ⟨i, rfl⟩ := hj
    have hi : ρ' (f i) = update σ k size i := congrFun hσ' i
    rw [hi, ← hσ, ← update_comp_eq_of_injective ρ hf k size]
    rfl
  · have hne : j ≠ f k := fun heq => hj (heq ▸ Set.mem_range_self k)
    rw [update_of_ne hne, hrest j hj]

theorem drop_along (hf : Injective f) (hσ : ρ ∘ f = σ) (old : Option K) :
    ρ.drop (old.map f) ∘ f = σ.drop old ∧ ∀ j, j ∉ Set.range f → ρ.drop (old.map f) j = ρ j := by
  cases old with
  | none => exact ⟨hσ, fun _ _ => rfl⟩
  | some k =>
    refine ⟨?_, fun j hj => update_of_ne (fun heq => hj ⟨k, heq.symm⟩) _ _⟩
    rw [← hσ]
    exact update_comp_eq_of_injective ρ hf k none

/-- The same step where `f` tells the client's blocks from those of others. -/
theorem Step.along (hf : Injective f) (h : Step σ op σ') (hσ : ρ ∘ f = σ) (hσ' : ρ' ∘ f = σ')
    (hrest : ∀ j, j ∉ Set.range f → ρ' j = ρ j) : Step ρ (op.map f) ρ' := by
  have hat (k : K) : ρ (f k) = σ k := congrFun hσ k
  have hsame (heq : σ' = σ) : ρ' = ρ := eq_along (hσ'.trans (heq.trans hσ.symm)) hrest
  cases h with
  | @malloc k size hk =>
    rw [update_along hf hσ hσ' hrest]
    exact .malloc ((hat k).trans hk)
  | noMalloc =>
    rw [hsame rfl]
    exact .noMalloc
  | @realloc old k size hold hk =>
    obtain ⟨hdrop, hrest'⟩ := drop_along hf hσ old
    rw [update_along hf hdrop hσ' fun j hj => (hrest j hj).trans (hrest' j hj).symm]
    exact .realloc (by simpa [hat] using hold) ((hat k).trans hk)
  | noRealloc hold hs =>
    rw [hsame rfl]
    exact .noRealloc (by simpa [hat] using hold) hs
  | @released old k hold =>
    obtain ⟨hdrop, hrest'⟩ := drop_along hf hσ old
    have hgone : ρ' = ρ.drop (old.map f) := eq_along (hσ'.trans hdrop.symm) fun j hj =>
      (hrest j hj).trans (hrest' j hj).symm
    rw [hgone]
    exact .released (by simpa [hat] using hold)
  | @free k hk =>
    rw [update_along hf hσ hσ' hrest]
    exact .free (by rwa [hat])

theorem Step.left (h : Step σ op σ') (τ : Sizes J) :
    Step (Sum.elim σ τ) (op.map Sum.inl) (Sum.elim σ' τ) := by
  refine h.along Sum.inl_injective (Sum.elim_comp_inl ..) (Sum.elim_comp_inl ..) fun j hj => ?_
  cases j with
  | inl k => exact (hj (Set.mem_range_self k)).elim
  | inr k => rfl

theorem Step.right (h : Step σ op σ') (τ : Sizes J) :
    Step (Sum.elim τ σ) (op.map Sum.inr) (Sum.elim τ σ') := by
  refine h.along Sum.inr_injective (Sum.elim_comp_inr ..) (Sum.elim_comp_inr ..) fun j hj => ?_
  cases j with
  | inl k => rfl
  | inr k => exact (hj (Set.mem_range_self k)).elim

end

/-! ### The parts of a program -/

section
variable [DecidableEq K] [DecidableEq J]

theorem Uses.along {f : K → J} (hf : Injective f) {σ σ' : Sizes K} {ops : List (Op K)}
    (h : Uses σ ops σ') {ρ ρ' : Sizes J} (hσ : ρ ∘ f = σ) (hσ' : ρ' ∘ f = σ')
    (hrest : ∀ j, j ∉ Set.range f → ρ' j = ρ j) : Uses ρ (ops.map (Op.map f)) ρ' := by
  induction h generalizing ρ with
  | nil =>
    rw [eq_along (hσ'.trans hσ.symm) hrest]
    exact .nil
  | @cons σ σ₁ σ' op ops hstep hs ih =>
    have hin : extend f σ₁ ρ ∘ f = σ₁ := extend_comp hf σ₁ ρ
    have hout (j : J) (hj : j ∉ Set.range f) : extend f σ₁ ρ j = ρ j :=
      extend_apply' σ₁ ρ j fun ⟨k, hk⟩ => hj ⟨k, hk⟩
    exact .cons (hstep.along hf hσ hin hout)
      (ih hin hσ' fun j hj => (hrest j hj).trans (hout j hj).symm)

end

/-- A part of a program. Each of its steps says what it does to its blocks. -/
structure Component (K : Type) [DecidableEq K] where
  State : Type
  sizes : State → Sizes K
  step : State → List (Op K) → State → Prop
  uses : ∀ {w w' : State} {ops : List (Op K)}, step w ops w' → Uses (sizes w) ops (sizes w')

section
variable {ι : Type} [DecidableEq ι] {K : ι → Type} [∀ i, DecidableEq (K i)]

/-- Steps of the parts in any order, and what they do one after the other. -/
inductive Interleaved (parts : ∀ i, Component (K i)) (w : ∀ i, (parts i).State) :
    List (Op (Sigma K)) → (∀ i, (parts i).State) → Prop
  | start : Interleaved parts w [] w
  | turn {ops : List (Op (Sigma K))} {w₁ : ∀ i, (parts i).State} (h : Interleaved parts w ops w₁)
      (i : ι) {own : List (Op (K i))} {u : (parts i).State} (hstep : (parts i).step (w₁ i) own u) :
      Interleaved parts w (ops ++ own.map (Op.map (Sigma.mk i))) (update w₁ i u)

/-- The blocks of all parts. -/
def allSizes (parts : ∀ i, Component (K i)) (w : ∀ i, (parts i).State) : Sizes (Sigma K) := fun k =>
  (parts k.1).sizes (w k.1) k.2

variable {parts : ∀ i, Component (K i)} {w w' : ∀ i, (parts i).State} {ops : List (Op (Sigma K))}

/-- What the parts do in turns is what one client does. -/
theorem interleaved_uses (h : Interleaved parts w ops w') :
    Uses (allSizes parts w) ops (allSizes parts w') := by
  induction h with
  | start => exact .nil
  | @turn ops w₁ h i own u hstep ih =>
    refine ih.append (((parts i).uses hstep).along sigma_mk_injective rfl ?_ fun j hj => ?_)
    · funext k
      change (parts i).sizes (update w₁ i u i) k = _
      rw [update_self]
    · have hne : j.1 ≠ i := fun heq => hj ⟨heq ▸ j.2, by cases heq; rfl⟩
      unfold allSizes
      rw [update_of_ne hne]

end

/-! ### A heap of blocks as a client -/

section
variable {α : Type} {width size n p : ℕ} {h h' : Heap (List α)} {a : Heap.Answer α}
  {res : Option ℕ}

/-- Elements of `width` bytes. -/
def sizes (width : ℕ) (h : Heap (List α)) : Sizes ℕ := fun p =>
  (h.read p).map fun b => b.length * width

theorem sizes_next (width : ℕ) (h : Heap (List α)) : sizes width h h.next = none := by
  unfold sizes
  cases hread : h.read h.next with
  | none => rfl
  | some b => exact absurd (Heap.lt_next_of_read hread) (Nat.lt_irrefl _)

theorem sizes_alloc (width : ℕ) (h : Heap (List α)) (b : List α) :
    sizes width (h.alloc b) = update (sizes width h) h.next (some (b.length * width)) := by
  funext q
  rw [sizes, Heap.read_alloc]
  by_cases hq : q = h.next
  · rw [if_pos hq, hq, update_self, Option.map_some]
  · rw [if_neg hq, update_of_ne hq, sizes]

theorem sizes_release (width : ℕ) (h : Heap (List α)) (p : ℕ) :
    sizes width (h.release p) = update (sizes width h) p none := by
  funext q
  rw [sizes, Heap.read_release]
  by_cases hq : q = p
  · rw [if_pos hq, hq, update_self, Option.map_none]
  · rw [if_neg hq, update_of_ne hq, sizes]

theorem sizes_copyIn {i : ℕ} {v : List α} (hc : h.copyIn p i v = some h') :
    sizes width h' = sizes width h := by
  funext q
  have hlength := congrArg (Option.map (· * width)) (Heap.copyIn_lengths hc q)
  rw [Option.map_map, Option.map_map] at hlength
  exact hlength

theorem malloc_step (hsize : size = n * width) (hm : h.malloc size n a = (res, h')) :
    Step (sizes width h) (.malloc h.next size res.isSome) (sizes width h') := by
  unfold Heap.malloc at hm
  split at hm <;> cases hm
  · rw [sizes_alloc, Heap.length_resized, ← hsize]
    exact .malloc (sizes_next width h)
  · exact .noMalloc

theorem realloc_step (hsize : size = n * width) (hne : size ≠ 0)
    (hr : h.realloc p size n a = some (res, h')) :
    Step (sizes width h) (.realloc (some p) h.next size res.isSome) (sizes width h') := by
  obtain ⟨b, hread, hres⟩ := Option.map_eq_some_iff.mp hr
  have hlive : ∀ q ∈ some p, sizes width h q ≠ none := by
    intro q hq
    obtain rfl := Option.some.inj hq
    rw [sizes, hread]
    exact Option.some_ne_none _
  split at hres <;> cases hres
  · rw [sizes_alloc, Heap.length_resized, Heap.next_release, sizes_release, ← hsize]
    exact .realloc hlive (sizes_next width h)
  · exact .noRealloc hlive hne

theorem resize_step {q : Option ℕ} (hsize : size = n * width) (hne : size ≠ 0)
    (hr : h.resize q size n a = some (res, h')) :
    Step (sizes width h) (.realloc q h.next size res.isSome) (sizes width h') := by
  cases q with
  | some p => exact realloc_step hsize hne hr
  | none =>
    have hm : h.malloc size n a = (res, h') := Option.some.inj hr
    have hlive : ∀ q ∈ (none : Option ℕ), sizes width h q ≠ none := fun q hq => nomatch hq
    unfold Heap.malloc at hm
    split at hm <;> cases hm
    · rw [sizes_alloc, Heap.length_resized, ← hsize]
      exact .realloc hlive (sizes_next width h)
    · exact .noRealloc hlive hne

theorem free_step (hf : h.free p = some h') :
    Step (sizes width h) (.free p) (sizes width h') := by
  obtain ⟨b, hread, rfl⟩ := Option.map_eq_some_iff.mp hf
  rw [sizes_release]
  refine .free ?_
  rw [sizes, hread]
  exact Option.some_ne_none _

/-- Of a heap's blocks, those in `live` are new and the others are what they were. -/
theorem since_sizes {live : List ℕ} (width : ℕ) (hs : Heap.Since h h' live) (p : ℕ) :
    (p ∈ live → sizes width h p = none ∧ sizes width h' p ≠ none) ∧
      (p ∉ live → sizes width h' p = sizes width h p) := by
  unfold sizes
  refine ⟨fun hp => ?_, fun hp => by rw [hs.read_rest hp]⟩
  obtain ⟨hge, hlive⟩ := hs.fresh p hp
  refine ⟨?_, by simpa using hlive⟩
  cases hread : h.read p with
  | none => rfl
  | some b => exact absurd (Heap.lt_next_of_read hread) (Nat.not_lt.mpr hge)

end

/-! ### Where an allocator has put the blocks -/

/-- The allocator's blocks `m` are the client's, each with the size it asked for, and
those of others. -/
structure Laid (others : ℕ → Option (ℕ × ℕ)) (σ : Sizes K) (place : K → ℕ)
    (m : ℕ → Option (ℕ × ℕ)) : Prop where
  mine : ∀ k n, σ k = some n → others (place k) = none ∧ (m (place k)).map Prod.fst = some n
  apart : ∀ j k, σ j ≠ none → σ k ≠ none → place j = place k → j = k
  rest : ∀ q, (∀ k, σ k ≠ none → place k ≠ q) → m q = others q

variable {others m : ℕ → Option (ℕ × ℕ)} {σ : Sizes K} {place : K → ℕ} {k : K}

theorem Laid.live (h : Laid others σ place m) (hk : σ k ≠ none) : m (place k) ≠ none := by
  obtain ⟨n, hn⟩ := Option.ne_none_iff_exists'.mp hk
  intro hnone
  have hsize := (h.mine k n hn).2
  rw [hnone] at hsize
  cases hsize

section
variable [DecidableEq K]

theorem Laid.add (h : Laid others σ place m) {p size id : ℕ} (hp : m p = none) (hk : σ k = none) :
    Laid others (update σ k (some size)) (update place k p) (update m p (some (size, id))) := by
  have hlive (j : K) (hj : σ j ≠ none) : place j ≠ p := fun heq => h.live hj (heq ▸ hp)
  have hold (j : K) (hj : update σ k (some size) j ≠ none) (hne : j ≠ k) : σ j ≠ none := by
    rwa [update_of_ne hne] at hj
  refine ⟨fun j n hj => ?_, fun i j hi hj heq => ?_, fun q hq => ?_⟩
  · by_cases hjk : j = k
    · rw [hjk, update_self] at hj
      rw [hjk, update_self, update_self, ← h.rest p hlive]
      exact ⟨hp, hj⟩
    · rw [update_of_ne hjk] at hj
      rw [update_of_ne hjk, update_of_ne (hlive j (by rw [hj]; exact Option.some_ne_none n))]
      exact h.mine j n hj
  · by_cases hik : i = k <;> by_cases hjk : j = k
    · rw [hik, hjk]
    · rw [hik, update_self, update_of_ne hjk] at heq
      exact (hlive j (hold j hj hjk) heq.symm).elim
    · rw [hjk, update_self, update_of_ne hik] at heq
      exact (hlive i (hold i hi hik) heq).elim
    · rw [update_of_ne hik, update_of_ne hjk] at heq
      exact h.apart i j (hold i hi hik) (hold j hj hjk) heq
  · have hqp : q ≠ p := by
      have hne := hq k (by rw [update_self]; exact Option.some_ne_none size)
      rw [update_self] at hne
      exact hne.symm
    rw [update_of_ne hqp]
    apply h.rest
    intro j hj
    have hjk : j ≠ k := fun heq => hj (heq ▸ hk)
    have hne := hq j (by rwa [update_of_ne hjk])
    rwa [update_of_ne hjk] at hne

theorem Laid.drop (h : Laid others σ place m) (hk : σ k ≠ none) :
    Laid others (update σ k none) place (update m (place k) none) := by
  have hold (j : K) (hj : update σ k none j ≠ none) : j ≠ k ∧ σ j ≠ none := by
    by_cases hjk : j = k
    · rw [hjk, update_self] at hj
      exact (hj rfl).elim
    · rw [update_of_ne hjk] at hj
      exact ⟨hjk, hj⟩
  have haway (j : K) (hjk : j ≠ k) (hj : σ j ≠ none) : place j ≠ place k := fun heq =>
    hjk (h.apart j k hj hk heq)
  refine ⟨fun j n hj => ?_, fun i j hi hj heq => ?_, fun q hq => ?_⟩
  · obtain ⟨hjk, hlive⟩ := hold j (by rw [hj]; exact Option.some_ne_none n)
    rw [update_of_ne hjk] at hj
    rw [update_of_ne (haway j hjk hlive)]
    exact h.mine j n hj
  · exact h.apart i j (hold i hi).2 (hold j hj).2 heq
  · by_cases hqk : q = place k
    · obtain ⟨n, hn⟩ := Option.ne_none_iff_exists'.mp hk
      rw [hqk, update_self, (h.mine k n hn).1]
    · rw [update_of_ne hqk]
      apply h.rest
      intro j hj
      by_cases hjk : j = k
      · rw [hjk]
        exact Ne.symm hqk
      · exact hq j (by rwa [update_of_ne hjk])

end

end LibcOverride.Clients

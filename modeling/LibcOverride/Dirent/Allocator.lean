import LibcOverride.Dirent.Listing
import LibcOverride.MockAllocator.Clients

/-!
# Listings on the preloaded allocator
(src/dirent_overrides.c:11-134, src/mock_allocator.c:498-651)

The vectors and the records of all calls are the client's blocks, until the caller
frees them.
-/

namespace LibcOverride.Dirent
open Clients (Sizes Uses Step)
open MockAllocator (State Ledger Loader BlockMap Placement Provided ServedTo)

/-- Pointers on the left and bytes on the right. -/
def World.sizes (w : World) : Sizes (ℕ ⊕ ℕ) :=
  Sum.elim (Clients.sizes 8 w.vectors) (Clients.sizes 1 w.records)

/-- What is recorded between the two worlds is what was done to the blocks. -/
def Allocates (w w' : World) : Prop :=
  ∃ ops, w'.asked = w.asked ++ ops ∧ Uses w.sizes ops w'.sizes

variable {env : Env} {sel : Option Selector} {w w₁ w' : World} {v v' : Vars} {ok : Bool}

theorem allocates_same (hsizes : w'.sizes = w.sizes) (hasked : w'.asked = w.asked) :
    Allocates w w' := by
  refine ⟨[], by rw [hasked, List.append_nil], ?_⟩
  rw [hsizes]
  exact .nil

theorem Allocates.trans (h : Allocates w w₁) (h' : Allocates w₁ w') : Allocates w w' := by
  obtain ⟨ops, hasked, huses⟩ := h
  obtain ⟨ops', hasked', huses'⟩ := h'
  exact ⟨ops ++ ops', by rw [hasked', hasked, List.append_assoc], huses.append huses'⟩

theorem allocates_vectors {op : Clients.Op ℕ} {vectors : Heap (List (Option ℕ))}
    (hstep : Step (Clients.sizes 8 w.vectors) op (Clients.sizes 8 vectors))
    (hvectors : w'.vectors = vectors) (hrecords : w'.records = w.records)
    (hasked : w'.asked = w.asked ++ [op.map Sum.inl]) : Allocates w w' := by
  refine ⟨[op.map Sum.inl], hasked, ?_⟩
  have hleft := hstep.left (Clients.sizes 1 w.records)
  unfold World.sizes
  rw [hvectors, hrecords]
  exact .one hleft

theorem allocates_records {op : Clients.Op ℕ} {records : Heap (List UInt8)}
    (hstep : Step (Clients.sizes 1 w.records) op (Clients.sizes 1 records))
    (hvectors : w'.vectors = w.vectors) (hrecords : w'.records = records)
    (hasked : w'.asked = w.asked ++ [op.map Sum.inr]) : Allocates w w' := by
  refine ⟨[op.map Sum.inr], hasked, ?_⟩
  have hright := hstep.right (Clients.sizes 8 w.vectors)
  unfold World.sizes
  rw [hvectors, hrecords]
  exact .one hright

theorem allocates_eq (hvectors : w'.vectors = w.vectors) (hrecords : w'.records = w.records)
    (hasked : w'.asked = w.asked) : Allocates w w' := by
  refine allocates_same ?_ hasked
  unfold World.sizes
  rw [hvectors, hrecords]

/-- Stores into the vectors leave the sizes. -/
theorem allocates_stored {p i : ℕ} {u : List (Option ℕ)} {vectors : Heap (List (Option ℕ))}
    (hcopy : w.vectors.copyIn p i u = some vectors) : Allocates w { w with vectors } := by
  refine allocates_same ?_ rfl
  unfold World.sizes
  rw [Clients.sizes_copyIn hcopy]

/-! ### The loop -/

theorem capacity_ne_zero (capacity : ℕ) : Word.add (Word.mul 2 capacity) 1 ≠ 0 := by
  simp only [Word.add, Word.mul]
  omega

theorem reallocNames_allocates {res : Option ℕ} (hne : v.capacity ≠ 0)
    (hsmall : v.capacity ≤ Word.sizeMax / 8) (h : reallocNames env w v = some (res, w')) :
    Allocates w w' := by
  obtain ⟨⟨res', vectors⟩, hresize, heq⟩ := Option.map_eq_some_iff.mp h
  cases heq
  have hmul : Word.mul v.capacity 8 = v.capacity * 8 := by
    apply Nat.mod_eq_of_lt
    simp only [Word.sizeMax] at hsmall
    omega
  exact allocates_vectors (Clients.resize_step hmul (by omega) hresize) rfl rfl rfl

theorem makeRoom_allocates (h : makeRoom env w v = some (ok, w', v')) : Allocates w w' := by
  unfold makeRoom at h
  split at h
  · dsimp only at h
    split at h
    · cases h
      exact allocates_eq rfl rfl rfl
    · rename_i hsmall
      obtain ⟨⟨res, w₁⟩, hrealloc, heq⟩ := Option.map_eq_some_iff.mp h
      have hallocates := reallocNames_allocates (capacity_ne_zero v.capacity)
        (Nat.le_of_not_lt hsmall) hrealloc
      cases res <;> cases heq <;> exact hallocates
  · cases h
    exact allocates_eq rfl rfl rfl

theorem mallocEntry_allocates (env : Env) (w : World) (e : Entry) :
    Allocates w (mallocEntry env w e).2 :=
  allocates_records (Clients.malloc_step (Nat.mul_one _).symm rfl) rfl rfl rfl

theorem copyEntry_allocates {e : Entry} (h : copyEntry env w v e = some (ok, w', v')) :
    Allocates w w' := by
  have hmalloc := mallocEntry_allocates env w e
  unfold copyEntry at h
  generalize mallocEntry env w e = made at h hmalloc
  obtain ⟨q, w₁⟩ := made
  obtain ⟨p, -, h⟩ := Option.bind_eq_some_iff.mp h
  obtain ⟨vectors, hcopy, h⟩ := Option.bind_eq_some_iff.mp h
  have hstored := hmalloc.trans (allocates_stored hcopy)
  cases q with
  | none =>
    cases h
    exact hstored
  | some q =>
    obtain ⟨records, hrecords, h⟩ := Option.bind_eq_some_iff.mp h
    cases h
    refine hstored.trans (allocates_same ?_ rfl)
    unfold World.sizes
    dsimp only
    rw [Clients.sizes_copyIn hrecords]

theorem readLoop_allocates {failure : Option Failure} {i : ℕ} {reads : List Read}
    (h : readLoop env sel failure i reads w v = some (w', v')) : Allocates w w' := by
  induction reads generalizing i w v with
  | nil =>
    cases h
    exact allocates_eq rfl rfl rfl
  | cons r rest ih =>
    unfold readLoop at h
    split at h
    · have hrest := ih h
      exact (allocates_eq rfl rfl rfl).trans hrest
    · obtain ⟨⟨ok, w₁, v₁⟩, hroom, h⟩ := Option.bind_eq_some_iff.mp h
      have hfirst := (allocates_eq rfl rfl rfl).trans (makeRoom_allocates hroom)
      cases ok with
      | false =>
        cases h
        exact hfirst
      | true =>
        obtain ⟨⟨ok, w₂, v₂⟩, hcopy, h⟩ := Option.bind_eq_some_iff.mp h
        have hsecond := hfirst.trans (copyEntry_allocates hcopy)
        cases ok with
        | false =>
          cases h
          exact hsecond
        | true => exact hsecond.trans (ih h)

/-! ### The end -/

theorem free_record {q : ℕ} {records : Heap (List UInt8)} (h : w.records.free q = some records) :
    Allocates w { w with records, asked := w.asked ++ [.free (.inr q)] } :=
  allocates_records (Clients.free_step h) rfl rfl rfl

theorem free_vector {p : ℕ} {vectors : Heap (List (Option ℕ))}
    (h : w.vectors.free p = some vectors) :
    Allocates w { w with vectors, asked := w.asked ++ [.free (.inl p)] } :=
  allocates_vectors (Clients.free_step h) rfl rfl rfl

theorem freeEntries_allocates {names : Option ℕ} {count : ℕ}
    (h : freeEntries names count w = some w') : Allocates w w' := by
  induction count generalizing w with
  | zero =>
    cases h
    exact allocates_eq rfl rfl rfl
  | succ count ih =>
    unfold freeEntries at h
    obtain ⟨p, -, h⟩ := Option.bind_eq_some_iff.mp h
    obtain ⟨vector, -, h⟩ := Option.bind_eq_some_iff.mp h
    obtain ⟨q, -, h⟩ := Option.bind_eq_some_iff.mp h
    cases q with
    | none => exact ih h
    | some q =>
      obtain ⟨records, hfree, h⟩ := Option.bind_eq_some_iff.mp h
      exact (free_record hfree).trans (ih h)

theorem freeNames_allocates {names : Option ℕ} (h : freeNames names w = some w') :
    Allocates w w' := by
  cases names with
  | none =>
    cases h
    exact allocates_eq rfl rfl rfl
  | some p =>
    obtain ⟨vectors, hfree, rfl⟩ := Option.map_eq_some_iff.mp h
    exact free_vector hfree

theorem sortNames_allocates {q : Qsort} {cmp : Comparator} (h : sortNames q cmp v w = some w') :
    Allocates w w' := by
  unfold sortNames at h
  split at h
  · cases h
    exact allocates_eq rfl rfl rfl
  · obtain ⟨p, -, h⟩ := Option.bind_eq_some_iff.mp h
    obtain ⟨all, -, h⟩ := Option.bind_eq_some_iff.mp h
    obtain ⟨vector, -, h⟩ := Option.bind_eq_some_iff.mp h
    obtain ⟨ptrs, -, h⟩ := Option.bind_eq_some_iff.mp h
    obtain ⟨_, -, h⟩ := Option.bind_eq_some_iff.mp h
    obtain ⟨vectors, hcopy, h⟩ := Option.bind_eq_some_iff.mp h
    cases h
    exact allocates_stored hcopy

/-- Lines 55-71. -/
theorem end_allocates {q : Qsort} {cmp : Option Comparator} {errno : ℕ}
    (h : cmp.elim (some { w with errno })
      (fun cmp => sortNames q cmp v { w with errno }) = some w') : Allocates w w' := by
  cases cmp with
  | none =>
    cases h
    exact allocates_eq rfl rfl rfl
  | some cmp =>
    have hsort : sortNames q cmp v { w with errno } = some w' := h
    have hsame : Allocates w { w with errno } := allocates_eq rfl rfl rfl
    exact hsame.trans (sortNames_allocates hsort)

theorem scan_allocates {q : Qsort} {cmp : Option Comparator} {dir : Option Listing} {errno : ℕ}
    {r : ℤ} (h : scan q env sel cmp dir errno w = some (r, w')) : Allocates w w' := by
  cases dir with
  | none =>
    cases h
    exact allocates_eq rfl rfl rfl
  | some listing =>
    obtain ⟨⟨w₁, v⟩, hloop, h⟩ := Option.bind_eq_some_iff.mp h
    have hread : Allocates w (closedir w₁) :=
      ((allocates_eq rfl rfl rfl).trans (readLoop_allocates hloop)).trans (allocates_eq rfl rfl rfl)
    refine hread.trans ?_
    dsimp only at h
    split at h
    · obtain ⟨w₂, hentries, h⟩ := Option.bind_eq_some_iff.mp h
      obtain ⟨w₃, hnames, h⟩ := Option.bind_eq_some_iff.mp h
      cases h
      exact (freeEntries_allocates hentries).trans (freeNames_allocates hnames)
    · obtain ⟨w₂, hsort, h⟩ := Option.bind_eq_some_iff.mp h
      rw [← (Prod.mk.inj (Option.some.inj h)).2]
      exact (end_allocates hsort).trans (allocates_eq rfl rfl rfl)

/-! ### Calls one after the other -/

/-- The vector that a call returned. -/
def World.vectorOf (w : World) (r : ℤ) : List ℕ := if r = -1 then [] else w.res.toList

/-- The records that a call returned. -/
def World.recordsOf (w : World) (r : ℤ) : List ℕ :=
  if r = -1 then []
  else (((w.res.bind w.vectors.read).getD []).take r.toNat).filterMap id

/-- Calls of both functions on any directories. Between them the caller frees blocks
that it was given, in any order; `vs` and `rs` are the vectors and the records that
it has not freed yet. -/
inductive Session (env : Env) (w : World) : List ℕ → List ℕ → World → Prop where
  | start : Session env w [] [] w
  | call {vs rs : List ℕ} {w₁ w₂ : World} {r : ℤ} (h : Session env w vs rs w₁) (q : Qsort)
      (sel : Option Selector) (cmp : Option Comparator) (o : Opendir) (large : Bool)
      (hmax : ∀ d, o.dir = some d → (selected sel 0 d.readdir.reads).length ≤ intMax ∧
        (selected sel 0 d.readdir64.reads).length ≤ intMax)
      (hrun : (if large then scandir64 else scandir) q env sel cmp o w₁ = some (r, w₂)) :
      Session env w (w₂.vectorOf r ++ vs) (w₂.recordsOf r ++ rs) w₂
  | freeVector {p : ℕ} {vs vs' rs : List ℕ} {w₁ : World} {vectors : Heap (List (Option ℕ))}
      (h : Session env w vs rs w₁) (hp : vs.Perm (p :: vs'))
      (hfree : w₁.vectors.free p = some vectors) :
      Session env w vs' rs { w₁ with vectors, asked := w₁.asked ++ [.free (.inl p)] }
  | freeRecord {p : ℕ} {vs rs rs' : List ℕ} {w₁ : World} {records : Heap (List UInt8)}
      (h : Session env w vs rs w₁) (hp : rs.Perm (p :: rs'))
      (hfree : w₁.records.free p = some records) :
      Session env w vs rs' { w₁ with records, asked := w₁.asked ++ [.free (.inr p)] }

variable {vs rs : List ℕ}

theorem session_allocates (h : Session env w vs rs w') : Allocates w w' := by
  induction h with
  | start => exact allocates_eq rfl rfl rfl
  | call h q sel cmp o large hmax hrun ih =>
    cases large with
    | false => exact ih.trans (scan_allocates hrun)
    | true => exact ih.trans (scan_allocates hrun)
  | freeVector h hp hfree ih => exact ih.trans (free_vector hfree)
  | freeRecord h hp hfree ih => exact ih.trans (free_record hfree)

/-- What the caller has is what is left of the calls. -/
structure Left (w w' : World) (vs rs : List ℕ) : Prop where
  vectors : Heap.Since w.vectors w'.vectors vs
  records : Heap.Since w.records w'.records rs
  vectorsApart : vs.Nodup
  recordsApart : rs.Nodup

/-- The blocks that the caller has. -/
def owned (vs rs : List ℕ) : List (ℕ ⊕ ℕ) := vs.map Sum.inl ++ rs.map Sum.inr

end LibcOverride.Dirent

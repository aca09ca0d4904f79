import LibcOverride.Lib.Spans
import LibcOverride.MockAllocator.Effects

/-!
# The bootstrap heap under threads
(src/mock_allocator.c:92-163, 499-564)

A call made while the resolver runs, as the steps between which others can run:
the load of the offset, the compare-and-swap, the store of the header and what
the caller does to the new block.
-/

namespace LibcOverride.MockAllocator.Resolver
open Word

/-- The bytes a call asks for, before any of the code's arithmetic. -/
def wanted : Request → ℕ
  | .malloc size => size
  | .calloc nmemb size => nmemb * size
  | .realloc _ size => size
  | .free _ => 0

/-- The arguments are `size_t` values. -/
def InRange : Request → Prop
  | .malloc size => size < 2 ^ 64
  | .calloc nmemb size => nmemb < 2 ^ 64 ∧ size < 2 ^ 64
  | .realloc ptr size => ptr < 2 ^ 64 ∧ size < 2 ^ 64
  | .free ptr => ptr < 2 ^ 64

instance : DecidablePred InRange := fun r =>
  match r with
  | .malloc size => inferInstanceAs (Decidable (size < 2 ^ 64))
  | .calloc nmemb size => inferInstanceAs (Decidable (nmemb < 2 ^ 64 ∧ size < 2 ^ 64))
  | .realloc ptr size => inferInstanceAs (Decidable (ptr < 2 ^ 64 ∧ size < 2 ^ 64))
  | .free ptr => inferInstanceAs (Decidable (ptr < 2 ^ 64))

/-- `total` in `ao_bootstrap_alloc`. -/
def total (size : ℕ) : ℕ := aoAlignUp (add sizeofBootstrapHeader size) sizeofMaxAlign

/-- What the caller of `ao_bootstrap_alloc` does to the new block. -/
inductive Use where
  | nothing
  | zero
  | copy (ptr : ℕ)
  deriving Repr, DecidableEq

/-- What remains of a call; `asked` is what it was made for. -/
inductive Pc where
  | idle
  | load (size asked : ℕ) (use : Use)
  | swap (size asked : ℕ) (use : Use) (current : ℕ)
  | header (size : ℕ) (use : Use) (current : ℕ)
  | fill (size : ℕ) (use : Use) (ptr : ℕ)
  | ret (ptr : ℕ)
  deriving Repr, DecidableEq

/-- A block that was carved out: where its header starts, and what for. -/
structure Block where
  start : ℕ
  asked : ℕ
  deriving Repr, DecidableEq

/-- `calls` and `blocks` record what was called and what was carved out. -/
structure World (T : Type) where
  heap : Bootstrap
  pc : T → Pc
  calls : List Request
  blocks : List Block

variable {T : Type}

def World.goto [DecidableEq T] (w : World T) (t : T) (next : Pc) : World T :=
  { w with pc := Function.update w.pc t next }

def World.enter (w : World T) (r : Request) : World T := { w with calls := w.calls ++ [r] }

/-- Thread `t` enters `malloc`, `calloc` or `realloc`. -/
def startCall [DecidableEq T] (w : World T) (t : T) (r : Request) : Option (World T) :=
  if w.pc t ≠ .idle then none
  else match r with
    | .malloc size => some ((w.enter r).goto t (.load size (wanted r) .nothing))
    | .calloc nmemb size => some ((w.enter r).goto t (.load (mul nmemb size) (wanted r) .zero))
    | .realloc ptr size =>
      if ptr = 0 then some ((w.enter r).goto t (.load size (wanted r) .nothing))
      else if aoBootstrapContains w.heap ptr = false then some ((w.enter r).goto t (.ret 0))
      else some ((w.enter r).goto t (.load size (wanted r) (.copy ptr)))
    | .free _ => none

/-- The block at `ptr` after the caller's use of it. -/
def used (b : Bootstrap) (size ptr : ℕ) : Use → Bootstrap
  | .nothing => b
  | .zero => { b with memory := Word.fill b.memory (ptr - b.base) 0 size }
  | .copy old =>
    let requested := load b.memory (old - b.base - sizeofBootstrapHeader) 8
    let copySize := if requested < size then requested else size
    { b with memory := copy b.memory (ptr - b.base) (old - b.base) copySize }

/-- Thread `t` runs its next step. A weak compare-and-swap may fail for no
reason; that is `spurious`. -/
def advance [DecidableEq T] (w : World T) (t : T) (spurious : Bool) : Option (World T) :=
  match w.pc t with
  | .idle => none
  | .load size asked use =>
    if w.heap.offset > aoBootstrapHeapSize ∨ total size > aoBootstrapHeapSize - w.heap.offset then
      some (w.goto t (.ret 0))
    else some (w.goto t (.swap size asked use w.heap.offset))
  | .swap size asked use current =>
    if spurious = false ∧ w.heap.offset = current then
      some { w.goto t (.header size use current) with
        heap := { w.heap with offset := current + total size }
        blocks := w.blocks ++ [⟨current, asked⟩] }
    else some (w.goto t (.load size asked use))
  | .header size use current =>
    some { w.goto t (.fill size use (w.heap.base + current + sizeofBootstrapHeader)) with
      heap := { w.heap with memory := store w.heap.memory current size 8 } }
  | .fill size use ptr => some { w.goto t (.ret ptr) with heap := used w.heap size ptr use }
  | .ret _ => some (w.goto t .idle)

/-- The worlds that any order of the threads' steps reaches. -/
inductive Reach [DecidableEq T] (b : Bootstrap) : World T → Prop where
  | start (h : b.offset = 0) : Reach b ⟨b, fun _ => .idle, [], []⟩
  | call (w w' : World T) (t : T) (r : Request) (hw : Reach b w) (hr : InRange r)
      (hs : startCall w t r = some w') : Reach b w'
  | advance (w w' : World T) (t : T) (spurious : Bool) (hw : Reach b w)
      (hs : advance w t spurious = some w') : Reach b w'

/-! ### What a returned block is promised -/

/-- The pointer a block is returned as, from the start of the heap. -/
def Block.ptr (k : Block) : ℕ := k.start + sizeofBootstrapHeader

/-- Header and requested bytes. -/
def Block.span (k : Block) : Span := ⟨k.start, sizeofBootstrapHeader + k.asked⟩

/-- The requested bytes. -/
def Block.bytes (k : Block) : Span := ⟨k.ptr, k.asked⟩

structure Sound (w : World T) : Prop where
  inside : ∀ k ∈ w.blocks, k.bytes.top ≤ aoBootstrapHeapSize
  apart : ∀ (i j : ℕ) (k l : Block), w.blocks[i]? = some k → w.blocks[j]? = some l → i ≠ j →
    k.bytes.Apart l.span
  aligned : ∀ k ∈ w.blocks, 16 ∣ k.ptr
  contained : ∀ k ∈ w.blocks, aoBootstrapContains w.heap (w.heap.base + k.ptr) = true
  returned : ∀ t ptr, w.pc t = .ret ptr → ptr = 0 ∨ ∃ k ∈ w.blocks, ptr = w.heap.base + k.ptr

/-! ### The invariant -/

/-- Header, size and rounding together are a `size_t`. -/
def Fits (asked : ℕ) : Prop := sizeofBootstrapHeader + asked + (sizeofMaxAlign - 1) ≤ sizeMax

instance : DecidablePred Fits := fun _ => inferInstanceAs (Decidable (_ ≤ _))

theorem Fits.lt {size : ℕ} (h : Fits size) : size < 2 ^ 64 := by
  simp only [Fits, sizeMax, sizeofMaxAlign, sizeofBootstrapHeader] at h
  omega

theorem total_dvd (size : ℕ) : sizeofMaxAlign ∣ total size := by
  unfold total aoAlignUp add
  dsimp only [sizeofMaxAlign, sizeofBootstrapHeader]
  split <;> omega

/-- What fits is carved out in full. -/
theorem total_ge {asked : ℕ} (h : Fits asked) :
    sizeofBootstrapHeader + asked ≤ total (asked % 2 ^ 64) := by
  simp only [Fits, sizeMax, sizeofMaxAlign, sizeofBootstrapHeader] at h
  unfold total aoAlignUp add
  dsimp only [sizeofMaxAlign, sizeofBootstrapHeader]
  split <;> omega

/-- `ptr` is the result for a block that was carved out. -/
def World.Made (w : World T) (ptr : ℕ) : Prop := ∃ k ∈ w.blocks, ptr = w.heap.base + k.ptr

/-- A call was made for `asked` bytes. -/
def World.Asked (w : World T) (asked : ℕ) : Prop := ∃ r ∈ w.calls, asked = wanted r

def World.PcOk (w : World T) : Pc → Prop
  | .idle => True
  | .load size asked _ => size = asked % 2 ^ 64 ∧ w.Asked asked
  | .swap size asked _ current => (size = asked % 2 ^ 64 ∧ w.Asked asked) ∧
      current ≤ aoBootstrapHeapSize ∧ total size ≤ aoBootstrapHeapSize - current
  | .header _ _ current => w.Made (w.heap.base + current + sizeofBootstrapHeader)
  | .fill _ _ ptr => w.Made ptr
  | .ret ptr => ptr = 0 ∨ w.Made ptr

structure Inv (w : World T) : Prop where
  offset : w.heap.offset ≤ aoBootstrapHeapSize
  offsetAligned : sizeofMaxAlign ∣ w.heap.offset
  starts : ∀ k ∈ w.blocks, sizeofMaxAlign ∣ k.start
  asked : ∀ k ∈ w.blocks, w.Asked k.asked
  packed : (∀ k ∈ w.blocks, Fits k.asked) → Span.Packed (w.blocks.map Block.span) w.heap.offset
  pcs : ∀ t, w.PcOk (w.pc t)

theorem inv_start {b : Bootstrap} (h : b.offset = 0) :
    Inv (⟨b, fun _ => .idle, [], []⟩ : World T) := by
  refine ⟨?_, ?_, by simp, by simp, fun _ => Span.packed_nil _, fun _ => trivial⟩
  · rw [h]
    exact Nat.zero_le _
  · rw [h]
    exact Nat.dvd_zero _

/-- Calls, blocks and offset are what the threads' positions depend on. -/
theorem World.PcOk.mono {w w' : World T} {pc : Pc} (h : w.PcOk pc) (hcalls : w.calls ⊆ w'.calls)
    (hblocks : w.blocks ⊆ w'.blocks) (hbase : w'.heap.base = w.heap.base) : w'.PcOk pc := by
  have hasked {asked : ℕ} (ha : w.Asked asked) : w'.Asked asked := by
    obtain ⟨r, hr, heq⟩ := ha
    exact ⟨r, hcalls hr, heq⟩
  have hmade {ptr : ℕ} (hm : w.Made ptr) : w'.Made ptr := by
    obtain ⟨k, hk, heq⟩ := hm
    exact ⟨k, hblocks hk, by rw [heq, hbase]⟩
  cases pc with
  | idle => trivial
  | load size asked use => exact ⟨h.1, hasked h.2⟩
  | swap size asked use current => exact ⟨⟨h.1.1, hasked h.1.2⟩, h.2⟩
  | header size use current =>
    have hm := hmade h
    rw [← hbase] at hm
    exact hm
  | fill size use ptr => exact hmade h
  | ret ptr => exact h.imp id hmade

/-- A step that leaves offset and blocks alone. -/
theorem Inv.goto [DecidableEq T] {w w' : World T} (h : Inv w) {t : T} {next : Pc}
    (hn : w'.PcOk next) (hpc : w'.pc = Function.update w.pc t next)
    (hcalls : w.calls ⊆ w'.calls) (hblocks : w'.blocks = w.blocks)
    (hoffset : w'.heap.offset = w.heap.offset) (hbase : w'.heap.base = w.heap.base) : Inv w' := by
  refine ⟨?_, ?_, ?_, ?_, ?_, ?_⟩
  · rw [hoffset]
    exact h.offset
  · rw [hoffset]
    exact h.offsetAligned
  · rw [hblocks]
    exact h.starts
  · rw [hblocks]
    intro k hk
    obtain ⟨r, hr, heq⟩ := h.asked k hk
    exact ⟨r, hcalls hr, heq⟩
  · rw [hblocks, hoffset]
    exact h.packed
  · intro u
    rw [hpc]
    by_cases hu : u = t
    · rw [hu, Function.update_self]
      exact hn
    · rw [Function.update_of_ne hu]
      exact (h.pcs u).mono hcalls (by rw [hblocks]; exact List.Subset.refl _) hbase

theorem inv_call [DecidableEq T] {w w' : World T} (h : Inv w) {t : T} {r : Request}
    (hr : InRange r) (hs : startCall w t r = some w') : Inv w' := by
  have hcalls : w.calls ⊆ (w.enter r).calls := List.subset_append_left _ _
  have hasked : (w.enter r).Asked (wanted r) := ⟨r, by simp [World.enter], rfl⟩
  have hload {size : ℕ} (use : Use) (hsize : size = wanted r % 2 ^ 64) :
      Inv ((w.enter r).goto t (.load size (wanted r) use)) := by
    have hok : ((w.enter r).goto t (.load size (wanted r) use)).PcOk
        (.load size (wanted r) use) := ⟨hsize, hasked⟩
    exact h.goto hok rfl hcalls rfl rfl rfl
  unfold startCall at hs
  split at hs
  · cases hs
  · cases r with
    | malloc size =>
      cases hs
      exact hload .nothing (Nat.mod_eq_of_lt hr).symm
    | calloc nmemb size =>
      cases hs
      exact hload .zero rfl
    | realloc ptr size =>
      have hsize : size = size % 2 ^ 64 := (Nat.mod_eq_of_lt hr.2).symm
      dsimp only at hs
      split at hs
      · cases hs
        exact hload .nothing hsize
      · split at hs
        · cases hs
          have hok : ((w.enter (.realloc ptr size)).goto t (.ret 0)).PcOk (.ret 0) := Or.inl rfl
          exact h.goto hok rfl hcalls rfl rfl rfl
        · cases hs
          exact hload (.copy ptr) hsize
    | free ptr => cases hs

theorem used_offset (b : Bootstrap) (size ptr : ℕ) (use : Use) :
    (used b size ptr use).offset = b.offset ∧ (used b size ptr use).base = b.base := by
  cases use <;> exact ⟨rfl, rfl⟩

/-- A compare-and-swap that wins. -/
theorem inv_carve [DecidableEq T] {w : World T} (h : Inv w) {t : T} {size asked : ℕ} {use : Use}
    (hp : w.PcOk (.swap size asked use w.heap.offset)) :
    Inv { w.goto t (.header size use w.heap.offset) with
      heap := { w.heap with offset := w.heap.offset + total size }
      blocks := w.blocks ++ [⟨w.heap.offset, asked⟩] } := by
  obtain ⟨⟨hsize, hasked⟩, hle, hfree⟩ := hp
  have hdvd := total_dvd size
  refine ⟨?_, (Nat.dvd_add_right h.offsetAligned).mpr hdvd, ?_, ?_, ?_, ?_⟩
  · dsimp only
    omega
  · exact List.forall_mem_append.mpr ⟨h.starts, by simpa using h.offsetAligned⟩
  · exact List.forall_mem_append.mpr ⟨h.asked, List.forall_mem_singleton.mpr hasked⟩
  · intro hall
    obtain ⟨hold, hnew⟩ := List.forall_mem_append.mp hall
    have hge := total_ge (hnew _ (List.mem_singleton_self _))
    dsimp only at hge
    rw [← hsize] at hge
    rw [List.map_append]
    refine (h.packed hold).push le_rfl ?_
    dsimp only [Span.top, Block.span]
    omega
  · intro u
    dsimp only [World.goto]
    by_cases hu : u = t
    · rw [hu, Function.update_self]
      exact ⟨⟨w.heap.offset, asked⟩, by simp, Nat.add_assoc _ _ _⟩
    · rw [Function.update_of_ne hu]
      exact (h.pcs u).mono (List.Subset.refl _) (List.subset_append_left _ _) rfl

theorem inv_advance [DecidableEq T] {w w' : World T} (h : Inv w) {t : T} {spurious : Bool}
    (hs : advance w t spurious = some w') : Inv w' := by
  have hpc := h.pcs t
  have hgoto {next : Pc} (hok : w.PcOk next) : Inv (w.goto t next) := by
    have hok' : (w.goto t next).PcOk next :=
      hok.mono (List.Subset.refl _) (List.Subset.refl _) rfl
    exact h.goto hok' rfl (List.Subset.refl _) rfl rfl rfl
  unfold advance at hs
  split at hs
  · cases hs
  · rename_i size asked use hc
    rw [hc] at hpc
    split at hs
    · cases hs
      exact hgoto (Or.inl rfl)
    · rename_i hroom
      cases hs
      have hok : w.PcOk (.swap size asked use w.heap.offset) := ⟨hpc, h.offset, by omega⟩
      exact hgoto hok
  · rename_i size asked use current hc
    rw [hc] at hpc
    split at hs
    · rename_i hwin
      obtain ⟨-, rfl⟩ := hwin
      cases hs
      exact inv_carve h hpc
    · cases hs
      have hok : w.PcOk (.load size asked use) := hpc.1
      exact hgoto hok
  · rename_i size use current hc
    rw [hc] at hpc
    cases hs
    have hok : w.PcOk (.fill size use (w.heap.base + current + sizeofBootstrapHeader)) := hpc
    exact h.goto (hok.mono (List.Subset.refl _) (List.Subset.refl _) rfl) rfl
      (List.Subset.refl _) rfl rfl rfl
  · rename_i size use ptr hc
    rw [hc] at hpc
    cases hs
    have hok : w.PcOk (.ret ptr) := Or.inr hpc
    obtain ⟨hoffset, hbase⟩ := used_offset w.heap size ptr use
    exact h.goto (hok.mono (List.Subset.refl _) (List.Subset.refl _) hbase) rfl
      (List.Subset.refl _) rfl hoffset hbase
  · cases hs
    exact hgoto trivial

theorem inv_run [DecidableEq T] {b : Bootstrap} {w : World T} (h : Reach b w) : Inv w := by
  induction h with
  | start hb => exact inv_start hb
  | call w w' t r _ hr hs ih => exact inv_call ih hr hs
  | advance w w' t spurious _ hs ih => exact inv_advance ih hs

def emptyHeap : Bootstrap := ⟨4096, by decide, fun _ => 0, 0⟩

/-- A step of a schedule: a thread's call, or its next step. -/
inductive Turn (T : Type) where
  | call (t : T) (r : Request)
  | step (t : T) (spurious : Bool)

def Turn.Ok : Turn T → Prop
  | .call _ r => InRange r
  | .step _ _ => True

instance : DecidablePred (Turn.Ok (T := T)) := fun turn =>
  match turn with
  | .call _ r => inferInstanceAs (Decidable (InRange r))
  | .step _ _ => inferInstanceAs (Decidable True)

def Turn.take [DecidableEq T] (w : World T) : Turn T → Option (World T)
  | .call t r => startCall w t r
  | .step t spurious => advance w t spurious

/-- A whole schedule. -/
def play [DecidableEq T] (w : World T) : List (Turn T) → Option (World T)
  | [] => some w
  | turn :: turns => (turn.take w).bind fun w' => play w' turns

theorem play_cons [DecidableEq T] {w w' : World T} {turn : Turn T} {turns : List (Turn T)}
    (h : play w (turn :: turns) = some w') : ∃ v, turn.take w = some v ∧ play v turns = some w' :=
  Option.bind_eq_some_iff.mp h

/-- Two threads' first calls: the second one's compare-and-swap comes between the
load and the compare-and-swap of the first, which loads again. -/
def crossed : List (Turn Bool) :=
  [.call false (.malloc 100), .step false false,
    .call true (.calloc 3 5), .step true false, .step true true, .step true false, .step true false,
    .step false false, .step false false, .step true false, .step false false, .step true false,
    .step true false, .step false false, .step false false]

/-- Then the second thread has its block moved. -/
def moved : List (Turn Bool) :=
  [.call true (.realloc (4096 + 48) 40), .step true false, .step true false, .step true false,
    .step true false]

/-- A thread that runs alone does what `aoBootstrapAlloc` does. -/
theorem alone [DecidableEq T] {w : World T} {t : T} {size asked : ℕ} {use : Use}
    (hpc : w.pc t = .load size asked use) :
    if (aoBootstrapAlloc w.heap size).1 = 0 then
      ∃ w₁, advance w t false = some w₁ ∧ w₁.pc t = .ret 0 ∧
        w₁.heap = (aoBootstrapAlloc w.heap size).2
    else ∃ w₁ w₂ w₃, advance w t false = some w₁ ∧ advance w₁ t false = some w₂ ∧
      advance w₂ t false = some w₃ ∧ w₃.heap = (aoBootstrapAlloc w.heap size).2 ∧
      w₃.pc t = .fill size use (aoBootstrapAlloc w.heap size).1 := by
  have hself (w : World T) (next : Pc) : (w.goto t next).pc t = next := Function.update_self ..
  by_cases hfull : w.heap.offset > aoBootstrapHeapSize ∨
      total size > aoBootstrapHeapSize - w.heap.offset
  · have halloc : aoBootstrapAlloc w.heap size = (0, w.heap) := if_pos hfull
    rw [halloc, if_pos rfl]
    refine ⟨w.goto t (.ret 0), ?_, hself w _, rfl⟩
    simp only [advance, hpc]
    rw [if_pos hfull]
  · have halloc : aoBootstrapAlloc w.heap size =
        (w.heap.base + w.heap.offset + sizeofBootstrapHeader,
          { w.heap with
            memory := store w.heap.memory w.heap.offset size 8
            offset := w.heap.offset + total size }) := if_neg hfull
    have hne : w.heap.base + w.heap.offset + sizeofBootstrapHeader ≠ 0 := by
      have hpos := w.heap.basePos
      omega
    rw [halloc, if_neg hne]
    have hload : advance w t false = some (w.goto t (.swap size asked use w.heap.offset)) := by
      simp only [advance, hpc]
      rw [if_neg hfull]
    obtain ⟨w₂, hw₂⟩ : ∃ w₂ : World T, w₂ = { w.goto t (.header size use w.heap.offset) with
      heap := { w.heap with offset := w.heap.offset + total size }
      blocks := w.blocks ++ [(⟨w.heap.offset, asked⟩ : Block)] } := ⟨_, rfl⟩
    have hswap : advance (w.goto t (.swap size asked use w.heap.offset)) t false = some w₂ := by
      simp only [advance, hself]
      rw [if_pos ⟨trivial, rfl⟩, hw₂]
      simp only [World.goto, Function.update_idem]
    have hpc₂ : w₂.pc t = .header size use w.heap.offset := by
      rw [hw₂]
      exact hself w _
    have hheader : advance w₂ t false = some { w₂.goto t (.fill size use
          (w₂.heap.base + w.heap.offset + sizeofBootstrapHeader)) with
        heap := { w₂.heap with memory := store w₂.heap.memory w.heap.offset size 8 } } := by
      simp only [advance, hpc₂]
    refine ⟨_, w₂, _, hload, hswap, hheader, ?_, ?_⟩
    · rw [hw₂]
    · rw [hw₂]
      exact hself _ _

end LibcOverride.MockAllocator.Resolver

import LibcOverride.Lib.SparseFile
import LibcOverride.MockAllocator.Bootstrap

/-!
# What the bootstrap heap keeps for its clients
(src/mock_allocator.c:47-50, 92-163)

Allocations and reallocations of one thread, with the client's own writes
between them. The headers lie in the array the client writes to.
-/

namespace LibcOverride.MockAllocator.Resolver
open Word

def Block.header (k : Block) : Span := ⟨k.start, sizeofBootstrapHeader⟩

/-- `requested_size` in the header of `k`. -/
def Block.requestedSize (k : Block) (m : Bytes) : ℕ := load m k.start 8

/-- `blocks` records every block handed out and what for. -/
structure Client where
  heap : Bootstrap
  blocks : List Block

inductive Op where
  | alloc (size : ℕ)
  | realloc (ptr size : ℕ)
  | write (k : Block) (i : ℕ) (v : List UInt8)
  deriving Repr, DecidableEq

/-- A client passes what pointer it likes to `realloc`, and writes to the bytes
it asked for. -/
def Op.Allowed (c : Client) : Op → Prop
  | .alloc size => Fits size
  | .realloc _ size => Fits size
  | .write k i v => k ∈ c.blocks ∧ i + v.length ≤ k.asked

/-- The block is recorded from the pointer that came back; NULL is none. -/
def Client.answered (c : Client) (size : ℕ) (r : ℕ × Bootstrap) : Client :=
  if r.1 = 0 then { c with heap := r.2 }
  else ⟨r.2, c.blocks ++ [⟨r.1 - c.heap.base - sizeofBootstrapHeader, size⟩]⟩

def Client.step (c : Client) : Op → Client
  | .alloc size => c.answered size (aoBootstrapAlloc c.heap size)
  | .realloc ptr size => c.answered size (aoBootstrapRealloc c.heap ptr size)
  | .write k i v =>
    { c with heap := { c.heap with memory := SparseFile.patched c.heap.memory (k.ptr + i) v } }

/-- The array starts out with any bytes. -/
inductive Client.Reach (b : Bootstrap) : Client → Prop where
  | start (h : b.offset = 0) : Reach b ⟨b, []⟩
  | step (c : Client) (op : Op) (hc : Reach b c) (ho : op.Allowed c) : Reach b (c.step op)

/-- The call that answered `r` moved the bytes of `k` to `new`. -/
structure Moved (c : Client) (k : Block) (r : ℕ × Bootstrap) (new : Block) : Prop where
  ptr : r.1 = c.heap.base + new.ptr
  size : new.requestedSize r.2.memory = new.asked
  copied : ∀ i < min k.asked new.asked,
    r.2.memory (new.ptr + i) = c.heap.memory (k.ptr + i)
  fresh : ∀ l ∈ c.blocks, new.span.Apart l.span
  others : ∀ l ∈ c.blocks, l.span.Keeps c.heap.memory r.2.memory
  frame : new.span.Confines c.heap.memory r.2.memory
  -- any other size wraps `total`, and the copy may run past the end of the array
  inside : Fits new.asked → new.span.top ≤ aoBootstrapHeapSize

/-! ### What one call does to the array -/

/-- The call that answered `r` carved out `new`. -/
structure Carves (b : Bootstrap) (r : ℕ × Bootstrap) (new : Block) : Prop where
  ptr : r.1 = b.base + new.ptr
  start : new.start = b.offset
  offset : r.2.offset = b.offset + total new.asked
  room : r.2.offset ≤ aoBootstrapHeapSize
  size : new.requestedSize r.2.memory = new.asked
  frame : new.span.Confines b.memory r.2.memory

theorem Carves.not_null {b : Bootstrap} {r : ℕ × Bootstrap} {new : Block} (h : Carves b r new) :
    r.1 ≠ 0 := by
  have hpos := b.basePos
  rw [h.ptr]
  omega

theorem requestedSize_kept {k : Block} {m m' : Bytes} (h : k.header.Keeps m m') :
    k.requestedSize m' = k.requestedSize m := by
  apply load_congr
  intro i hi
  apply h
  · exact Nat.le_add_right _ _
  · dsimp only [Span.top, Block.header, sizeofBootstrapHeader]
    omega

theorem alloc_carves (b : Bootstrap) {size : ℕ} (hsize : size < 2 ^ 64) :
    aoBootstrapAlloc b size = (0, b) ∨ Carves b (aoBootstrapAlloc b size) ⟨b.offset, size⟩ := by
  by_cases hfull : b.offset > aoBootstrapHeapSize ∨ total size > aoBootstrapHeapSize - b.offset
  · left
    exact if_pos hfull
  · right
    have halloc : aoBootstrapAlloc b size = (b.base + b.offset + sizeofBootstrapHeader,
        { b with memory := store b.memory b.offset size 8, offset := b.offset + total size }) :=
      if_neg hfull
    rw [halloc]
    have hroom : b.offset + total size ≤ aoBootstrapHeapSize := by omega
    have hload : load (store b.memory b.offset size 8) b.offset 8 = size := load_store _ _ hsize
    have hframe : (Block.span ⟨b.offset, size⟩).Confines b.memory
        (store b.memory b.offset size 8) := by
      intro i hi
      apply store_outside
      dsimp only [Span.top, Block.span, sizeofBootstrapHeader] at hi
      omega
    exact ⟨Nat.add_assoc _ _ _, rfl, rfl, hroom, hload, hframe⟩

/-- A `memcpy` into the requested bytes of the new block. -/
theorem Carves.copied {b : Bootstrap} {r : ℕ × Bootstrap} {new : Block} (h : Carves b r new)
    {src n : ℕ} (hn : n ≤ new.asked) :
    Carves b (r.1, { r.2 with memory := copy r.2.memory new.ptr src n }) new := by
  have hinto : (Span.mk new.ptr new.asked).Confines r.2.memory
      (copy r.2.memory new.ptr src n) := by
    intro i hi
    apply copy_outside
    dsimp only [Span.top] at hi
    omega
  have hsize : new.requestedSize (copy r.2.memory new.ptr src n) = new.asked := by
    rw [← h.size]
    apply requestedSize_kept
    apply hinto.keeps
    right
    exact le_rfl
  have hspan : new.span.Confines r.2.memory (copy r.2.memory new.ptr src n) := by
    apply hinto.mono
    · exact Nat.le_add_right _ _
    · exact (Nat.add_assoc _ _ _).le
  exact ⟨h.ptr, h.start, h.offset, h.room, hsize, h.frame.trans hspan⟩

/-- NULL is a plain allocation, and a `memcpy` follows any other. -/
theorem realloc_cases (b : Bootstrap) (ptr : ℕ) {size : ℕ} (hsize : size < 2 ^ 64) :
    let a := aoBootstrapAlloc b size
    let new : Block := ⟨b.offset, size⟩
    let requested := load a.2.memory (ptr - b.base - sizeofBootstrapHeader) 8
    aoBootstrapRealloc b ptr size = (0, b) ∨ Carves b a new ∧
      aoBootstrapRealloc b ptr size = if ptr = 0 then a else
        (a.1, { a.2 with memory := copy a.2.memory new.ptr (ptr - b.base) (min requested size) }) := by
  intro a new requested
  unfold aoBootstrapRealloc
  rcases alloc_carves b hsize with halloc | hcarves
  · left
    rw [halloc]
    simp
  · by_cases hptr : ptr = 0
    · right
      rw [if_pos hptr, if_pos hptr]
      exact ⟨hcarves, rfl⟩
    · rw [if_neg hptr, if_neg hptr]
      by_cases hin : aoBootstrapContains b ptr = false
      · left
        exact if_pos hin
      · right
        have hdst : a.1 - b.base = new.ptr := by rw [hcarves.ptr, Nat.add_sub_cancel_left]
        have hmin : (if requested < size then requested else size) = min requested size := by
          split <;> omega
        rw [if_neg hin]
        dsimp only
        rw [if_neg hcarves.not_null, hdst, hmin]
        exact ⟨hcarves, rfl⟩

theorem realloc_carves (b : Bootstrap) (ptr : ℕ) {size : ℕ} (hsize : size < 2 ^ 64) :
    aoBootstrapRealloc b ptr size = (0, b) ∨
      Carves b (aoBootstrapRealloc b ptr size) ⟨b.offset, size⟩ := by
  rcases realloc_cases b ptr hsize with hnull | ⟨hcarves, heq⟩
  · left
    exact hnull
  · right
    rw [heq]
    split
    · exact hcarves
    · apply hcarves.copied
      exact Nat.min_le_right _ _

/-! ### The invariant -/

structure Client.Intact (c : Client) : Prop where
  room : c.heap.offset ≤ aoBootstrapHeapSize
  packed : Span.Packed (c.blocks.map Block.span) c.heap.offset
  sizes : ∀ k ∈ c.blocks, k.requestedSize c.heap.memory = k.asked

theorem Client.intact_start {b : Bootstrap} (h : b.offset = 0) : Client.Intact ⟨b, []⟩ := by
  refine ⟨?_, Span.packed_nil _, by simp⟩
  rw [h]
  exact Nat.zero_le _

theorem Client.Intact.below {c : Client} (h : c.Intact) {k : Block} (hk : k ∈ c.blocks) :
    k.span.top ≤ c.heap.offset :=
  h.packed.below k.span (List.mem_map_of_mem hk)

/-- Headers and requested bytes do not meet, whichever blocks they belong to. -/
theorem Client.Intact.bytes_apart {c : Client} (h : c.Intact) {k l : Block} (hk : k ∈ c.blocks)
    (hl : l ∈ c.blocks) : k.bytes.Apart l.header := by
  have hspans := h.packed.eq_or_apart (List.mem_map_of_mem hk) (List.mem_map_of_mem hl)
  dsimp only [Span.Apart, Span.top, Block.span, Block.bytes, Block.header, Block.ptr] at *
  rcases hspans with heq | hapart
  · have hstart : k.start = l.start := congrArg Span.start heq
    omega
  · omega

/-- A block that is carved out lies above the blocks there are. -/
theorem Carves.apart {c : Client} {r : ℕ × Bootstrap} {new l : Block} (h : Carves c.heap r new)
    (hc : c.Intact) (hl : l ∈ c.blocks) : new.span.Apart l.span := by
  right
  have hbelow := hc.below hl
  have hstart : new.span.start = c.heap.offset := h.start
  omega

theorem Carves.keeps {c : Client} {r : ℕ × Bootstrap} {new l : Block} (h : Carves c.heap r new)
    (hc : c.Intact) (hl : l ∈ c.blocks) : l.span.Keeps c.heap.memory r.2.memory :=
  h.frame.keeps (h.apart hc hl)

theorem Carves.sizes {c : Client} {r : ℕ × Bootstrap} {new l : Block} (h : Carves c.heap r new)
    (hc : c.Intact) (hl : l ∈ c.blocks) : l.requestedSize r.2.memory = l.asked := by
  rw [← hc.sizes l hl]
  apply requestedSize_kept
  intro i hlow hhigh
  apply h.keeps hc hl i hlow
  dsimp only [Span.top, Block.header, Block.span] at *
  omega

theorem Carves.inside {b : Bootstrap} {r : ℕ × Bootstrap} {new : Block} (h : Carves b r new)
    (hfits : Fits new.asked) : new.span.top ≤ r.2.offset := by
  have hge := total_ge hfits
  rw [Nat.mod_eq_of_lt hfits.lt] at hge
  have hoffset := h.offset
  have hstart := h.start
  dsimp only [Span.top, Block.span]
  omega

theorem Client.Intact.answered {c : Client} (h : c.Intact) {size : ℕ} {r : ℕ × Bootstrap}
    (hr : r = (0, c.heap) ∨ Carves c.heap r ⟨c.heap.offset, size⟩) (hfits : Fits size) :
    (c.answered size r).Intact := by
  unfold Client.answered
  rcases hr with hnull | hcarves
  · rw [if_pos (by rw [hnull]), hnull]
    exact h
  · have hstart : r.1 - c.heap.base - sizeofBootstrapHeader = c.heap.offset := by
      rw [hcarves.ptr, Nat.add_sub_cancel_left]
      exact Nat.add_sub_cancel _ _
    rw [if_neg hcarves.not_null, hstart]
    refine ⟨hcarves.room, ?_, ?_⟩
    · rw [List.map_append]
      apply h.packed.push
      · exact le_rfl
      · exact hcarves.inside hfits
    · intro l hl
      rcases List.mem_append.mp hl with hold | hnew
      · exact hcarves.sizes h hold
      · rw [List.mem_singleton.mp hnew]
        exact hcarves.size

/-- The client cannot reach a header. -/
theorem Client.Intact.write {c : Client} (h : c.Intact) {k : Block} {i : ℕ} {v : List UInt8}
    (hk : k ∈ c.blocks) (hi : i + v.length ≤ k.asked) : (c.step (.write k i v)).Intact := by
  have hinto : k.bytes.Confines c.heap.memory
      (SparseFile.patched c.heap.memory (k.ptr + i) v) := by
    intro j hj
    apply SparseFile.patched_outside
    dsimp only [Span.top, Block.bytes] at hj
    omega
  refine ⟨h.room, h.packed, ?_⟩
  intro l hl
  rw [← h.sizes l hl]
  apply requestedSize_kept
  exact hinto.keeps (h.bytes_apart hk hl)

theorem Client.Intact.step {c : Client} (h : c.Intact) {op : Op} (ho : op.Allowed c) :
    (c.step op).Intact := by
  cases op with
  | alloc size => exact h.answered (alloc_carves c.heap (Fits.lt ho)) ho
  | realloc ptr size => exact h.answered (realloc_carves c.heap ptr (Fits.lt ho)) ho
  | write k i v => exact h.write ho.1 ho.2

theorem Client.Reach.intact {b : Bootstrap} {c : Client} (h : Client.Reach b c) : c.Intact := by
  induction h with
  | start hb => exact Client.intact_start hb
  | step c op _ ho ih => exact ih.step ho

/-! ### Reallocation -/

/-- The header is read after the new block was carved out, and still holds what
`k` was asked for. -/
theorem realloc_copies {c : Client} (h : c.Intact) {k : Block} (hk : k ∈ c.blocks) {size : ℕ}
    (hsize : size < 2 ^ 64) {r : ℕ × Bootstrap}
    (hr : r = aoBootstrapRealloc c.heap (c.heap.base + k.ptr) size) (hret : r.1 ≠ 0) {i : ℕ}
    (hi : i < min k.asked size) :
    r.2.memory (c.heap.offset + sizeofBootstrapHeader + i) = c.heap.memory (k.ptr + i) := by
  rcases realloc_cases c.heap (c.heap.base + k.ptr) hsize with hnull | ⟨hcarves, heq⟩
  · rw [hr, hnull] at hret
    exact absurd rfl hret
  · have hptr : c.heap.base + k.ptr ≠ 0 := by
      have hpos := c.heap.basePos
      omega
    have hsrc : c.heap.base + k.ptr - c.heap.base = k.ptr := Nat.add_sub_cancel_left _ _
    have hhead : k.ptr - sizeofBootstrapHeader = k.start := Nat.add_sub_cancel _ _
    have hrequested : load (aoBootstrapAlloc c.heap size).2.memory k.start 8 = k.asked :=
      hcarves.sizes h hk
    rw [if_neg hptr, hsrc, hhead, hrequested] at heq
    rw [hr, heq]
    dsimp only [Block.ptr]
    rw [copy_inside _ hi]
    apply hcarves.keeps h hk
    · dsimp only [Block.span, Block.ptr]
      omega
    · dsimp only [Span.top, Block.span, Block.ptr]
      omega

/-- Every header holds what its block was asked for, and a reallocation to any
`size_t` fails with nothing changed or moves the bytes to a fresh block. -/
theorem realloc_preserves {b : Bootstrap} {c : Client} (h : Client.Reach b c) :
    (∀ k ∈ c.blocks, k.requestedSize c.heap.memory = k.asked) ∧
      ∀ k ∈ c.blocks, ∀ size < 2 ^ 64,
        let r := aoBootstrapRealloc c.heap (c.heap.base + k.ptr) size
        r = (0, c.heap) ∨ ∃ new : Block, new.asked = size ∧ Moved c k r new := by
  have hc := h.intact
  refine ⟨hc.sizes, ?_⟩
  intro k hk size hsize r
  rcases realloc_carves c.heap (c.heap.base + k.ptr) hsize with hnull | hcarves
  · left
    exact hnull
  · right
    refine ⟨⟨c.heap.offset, size⟩, rfl, hcarves.ptr, hcarves.size, ?_, ?_, ?_, hcarves.frame, ?_⟩
    · intro i hi
      exact realloc_copies hc hk hsize rfl hcarves.not_null hi
    · intro l hl
      exact hcarves.apart hc hl
    · intro l hl
      exact hcarves.keeps hc hl
    · intro hfits
      exact (hcarves.inside hfits).trans hcarves.room

/-- Four bytes, written by the client and then moved to a block of six. -/
theorem realloc_preserves_four : ∃ c : Client, Client.Reach emptyHeap c ∧
    c.blocks = [⟨0, 4⟩] ∧ c.heap.memory 50 = 3 ∧
    ∃ new : Block, new.ptr = 112 ∧ new.asked = 6 ∧
      Moved c ⟨0, 4⟩ (aoBootstrapRealloc c.heap (4096 + 48) 6) new := by
  have hstart : Client.Reach emptyHeap ⟨emptyHeap, []⟩ := .start rfl
  have halloc : Client.Reach emptyHeap (Client.step ⟨emptyHeap, []⟩ (.alloc 4)) := by
    apply hstart.step
    show 48 + 4 + 31 ≤ sizeMax
    decide
  have hwrite := halloc.step _ (.write ⟨0, 4⟩ 0 [1, 2, 3, 4])
    ⟨List.mem_singleton_self _, by decide⟩
  refine ⟨_, hwrite, rfl, rfl, ?_⟩
  rcases (realloc_preserves hwrite).2 ⟨0, 4⟩ (List.mem_singleton_self _) 6 (by decide) with
    hnull | ⟨new, hasked, hmoved⟩
  · have hptr := congrArg Prod.fst hnull
    exact absurd hptr (by decide)
  · have hptr : 4096 + 112 = 4096 + new.ptr := hmoved.ptr
    exact ⟨new, (Nat.add_left_cancel hptr).symm, hasked, hmoved⟩

end LibcOverride.MockAllocator.Resolver

import LibcOverride.Lib.Objects
import LibcOverride.MockAllocator.Preservation

/-!
# The bootstrap heap as separate objects
(src/mock_allocator.c:92-163, 499-564)

Threads allocate, reallocate and write to what they were given, in any order. To
them the one array is a set of separate objects.
-/

namespace LibcOverride.MockAllocator.Resolver
open Word Buffer Objects

variable {T : Type}

/-- The requested bytes. -/
def Block.contents (k : Block) (m : Bytes) : List UInt8 :=
  (List.range k.asked).map fun i => m (k.ptr + i)

/-! ### Steps -/

/-- The block is still being made here. -/
def Pc.Makes (base : ℕ) (k : Block) : Pc → Prop
  | .header _ _ current => current = k.start
  | .fill _ _ ptr => ptr = base + k.ptr
  | _ => False

/-- The block's header is still to be stored here. -/
def Pc.Stores (k : Block) : Pc → Prop
  | .header _ _ current => current = k.start
  | _ => False

/-- The block was made. -/
def World.Settled (w : World T) (k : Block) : Prop :=
  k ∈ w.blocks ∧ ∀ t, ¬(w.pc t).Makes w.heap.base k

abbrev Shown := Objects.Event Block Use UInt8

/-- What a step shows outside: a block that was made, or a client's write to one.
Who makes no call can write to any block that was made. -/
inductive Move [DecidableEq T] (w : World T) : Shown → World T → Prop
  | call {w' : World T} {t : T} {r : Request} (hr : InRange r) (hs : startCall w t r = some w') :
      Move w .silent w'
  | quiet {w' : World T} {t : T} {spurious : Bool}
      (hpc : ∀ size use ptr, w.pc t ≠ .fill size use ptr) (hs : advance w t spurious = some w') :
      Move w .silent w'
  | fill {w' : World T} {t : T} {spurious : Bool} {size ptr : ℕ} {use : Use} {k : Block}
      (hpc : w.pc t = .fill size use ptr) (hk : k ∈ w.blocks) (hptr : ptr = w.heap.base + k.ptr)
      (hs : advance w t spurious = some w') :
      Move w (.made k use (k.contents w'.heap.memory)) w'
  | write {t : T} {k : Block} {i : ℕ} {v : List UInt8} (hpc : w.pc t = .idle) (hk : w.Settled k)
      (hi : i + v.length ≤ k.asked) :
      Move w (.wrote k i v)
        { w with heap := { w.heap with memory := SparseFile.patched w.heap.memory (k.ptr + i) v } }

/-- The runs from an empty heap, with what they showed. -/
inductive Runs [DecidableEq T] (b : Bootstrap) : List Shown → World T → Prop
  | start (h : b.offset = 0) : Runs b [] ⟨b, fun _ => .idle, [], []⟩
  | move {es : List Shown} {e : Shown} {w w' : World T}
      (h : Runs b es w) (hm : Move w e w') : Runs b (es ++ [e]) w'

/-- Every step of a thread is a move. -/
theorem advance_move [DecidableEq T] {w w' : World T} (h : Inv w) {t : T} {spurious : Bool}
    (hs : advance w t spurious = some w') : ∃ e, Move w e w' ∧ ∀ k, e.writeTo k = none := by
  by_cases hpc : ∃ size use ptr, w.pc t = .fill size use ptr
  · obtain ⟨size, use, ptr, hpc⟩ := hpc
    have hmade := h.pcs t
    rw [hpc] at hmade
    obtain ⟨k, hk, hptr⟩ := hmade
    exact ⟨_, .fill hpc hk hptr hs, fun _ => rfl⟩
  · exact ⟨_, .quiet (fun size use ptr heq => hpc ⟨size, use, ptr, heq⟩) hs, fun _ => rfl⟩

theorem move_inv [DecidableEq T] {w w' : World T} {e : Shown} (h : Inv w)
    (hm : Move w e w') : Inv w' := by
  cases hm with
  | call hr hs => exact inv_call h hr hs
  | quiet hpc hs => exact inv_advance h hs
  | fill hpc hk hptr hs => exact inv_advance h hs
  | write hpc hk hi => exact ⟨h.offset, h.offsetAligned, h.starts, h.asked, h.packed, h.pcs⟩

/-! ### Contents -/

theorem length_contents (k : Block) (m : Bytes) : (k.contents m).length = k.asked := by
  rw [Block.contents, List.length_map, List.length_range]

theorem getElem?_contents (k : Block) (m : Bytes) (i : ℕ) :
    (k.contents m)[i]? = if i < k.asked then some (m (k.ptr + i)) else none := by
  rw [Block.contents, List.getElem?_map]
  split
  · rename_i hi
    rw [List.getElem?_range hi]
    rfl
  · rename_i hi
    rw [List.getElem?_eq_none (by rw [List.length_range]; omega)]
    rfl

theorem contents_congr {k : Block} {m m' : Bytes} (h : ∀ i < k.asked, m' (k.ptr + i) = m (k.ptr + i)) :
    k.contents m' = k.contents m := by
  apply List.ext_getElem?
  intro i
  rw [getElem?_contents, getElem?_contents]
  split
  · rename_i hi
    rw [h i hi]
  · rfl

theorem contents_kept {k : Block} {m m' : Bytes} (h : k.span.Keeps m m') :
    k.contents m' = k.contents m := by
  apply contents_congr
  intro i hi
  apply h
  · dsimp only [Block.span, Block.ptr]
    omega
  · dsimp only [Span.top, Block.span, Block.ptr]
    omega

theorem contents_patched (k : Block) (m : Bytes) {i : ℕ} {v : List UInt8}
    (hi : i + v.length ≤ k.asked) :
    k.contents (SparseFile.patched m (k.ptr + i) v) = overwritten (k.contents m) i v := by
  apply List.ext_getElem?
  intro j
  rw [getElem?_overwritten (by rw [length_contents]; exact hi), getElem?_contents, getElem?_contents]
  by_cases hj : i ≤ j ∧ j < i + v.length
  · have hsplit : k.ptr + j = k.ptr + i + (j - i) := by omega
    have hlt : j - i < v.length := by omega
    rw [if_pos hj, if_pos (by omega), hsplit, SparseFile.patched_at m _ hlt,
      List.getElem?_eq_getElem hlt]
  · rw [if_neg hj, SparseFile.patched_outside m (by omega)]

theorem contents_filled (k : Block) (m : Bytes) :
    k.contents (fill m k.ptr 0 k.asked) = List.replicate k.asked 0 := by
  apply List.ext_getElem?
  intro i
  rw [getElem?_contents, List.getElem?_replicate]
  split
  · rw [fill, if_pos (by omega)]
  · rfl

/-- A `memcpy` of as much as both have. -/
theorem contents_copied {k old : Block} (m : Bytes) :
    (k.contents (copy m k.ptr old.ptr (min old.asked k.asked))).take old.asked =
      (old.contents m).take k.asked := by
  apply List.ext_getElem?
  intro i
  rw [List.getElem?_take, List.getElem?_take, getElem?_contents, getElem?_contents]
  by_cases hi : i < min old.asked k.asked
  · rw [copy_inside m hi, if_pos (by omega), if_pos (by omega), if_pos (by omega),
      if_pos (by omega)]
  · split_ifs <;> first | rfl | omega

/-! ### The invariant -/

/-- A thread that makes a block knows its size. -/
def World.MakesOk (w : World T) : Pc → Prop
  | .header size _ current => ⟨current, size⟩ ∈ w.blocks
  | .fill size _ ptr => ∃ k ∈ w.blocks, k.asked = size ∧ ptr = w.heap.base + k.ptr
  | _ => True

structure Neat (w : World T) : Prop where
  inv : Inv w
  fits : ∀ k ∈ w.blocks, Fits k.asked
  making : ∀ t, w.MakesOk (w.pc t)
  single : ∀ k ∈ w.blocks, ∀ t u, (w.pc t).Makes w.heap.base k → (w.pc u).Makes w.heap.base k → t = u
  headers : ∀ k ∈ w.blocks, (∀ t, ¬(w.pc t).Stores k) → k.requestedSize w.heap.memory = k.asked

/-- No block is being made here. -/
def Pc.Quiet : Pc → Prop
  | .header _ _ _ => False
  | .fill _ _ _ => False
  | _ => True

theorem Pc.Quiet.not_makes {pc : Pc} (h : pc.Quiet) (base : ℕ) (k : Block) : ¬pc.Makes base k := by
  cases pc <;> first | exact id | exact h.elim

theorem Pc.Stores.makes {pc : Pc} {k : Block} (h : pc.Stores k) (base : ℕ) : pc.Makes base k := by
  cases pc with
  | header size use current => exact h
  | _ => exact h.elim

theorem Pc.Quiet.makesOk {pc : Pc} (h : pc.Quiet) (w : World T) : w.MakesOk pc := by
  cases pc <;> trivial

theorem World.MakesOk.mono {w w' : World T} {pc : Pc} (h : w.MakesOk pc)
    (hblocks : w.blocks ⊆ w'.blocks) (hbase : w'.heap.base = w.heap.base) : w'.MakesOk pc := by
  cases pc with
  | header size use current => exact hblocks h
  | fill size use ptr =>
    obtain ⟨k, hk, hasked, hptr⟩ := h
    exact ⟨k, hblocks hk, hasked, by rw [hbase, hptr]⟩
  | idle => trivial
  | load size asked use => trivial
  | swap size asked use current => trivial
  | ret ptr => trivial

/-- What is being made has its start among the blocks. -/
theorem World.MakesOk.start {w : World T} {pc : Pc} {k : Block} (h : w.MakesOk pc)
    (hk : pc.Makes w.heap.base k) : ∃ l ∈ w.blocks, l.start = k.start := by
  cases pc with
  | header size use current => exact ⟨_, h, hk⟩
  | fill size use ptr =>
    obtain ⟨l, hl, _, hptr⟩ := h
    have hsum : w.heap.base + l.ptr = w.heap.base + k.ptr := hptr.symm.trans hk
    exact ⟨l, hl, Nat.add_right_cancel (Nat.add_left_cancel hsum)⟩
  | idle => exact hk.elim
  | load size asked use => exact hk.elim
  | swap size asked use current => exact hk.elim
  | ret ptr => exact hk.elim

section
variable {w w' : World T} {k l : Block}

theorem Neat.apart (h : Neat w) (hk : k ∈ w.blocks) (hl : l ∈ w.blocks) (hne : k ≠ l) :
    k.span.Apart l.span := by
  have hpacked := h.inv.packed h.fits
  rcases hpacked.eq_or_apart (List.mem_map_of_mem hk) (List.mem_map_of_mem hl) with heq | hapart
  · have hstart : k.start = l.start := congrArg Span.start heq
    have hlen : sizeofBootstrapHeader + k.asked = sizeofBootstrapHeader + l.asked :=
      congrArg Span.len heq
    obtain ⟨start, asked⟩ := k
    obtain ⟨start', asked'⟩ := l
    dsimp only at hstart hlen
    exact (hne (by rw [hstart, Nat.add_left_cancel hlen])).elim
  · exact hapart

/-- A block is known by where it starts. -/
theorem Neat.start_inj (h : Neat w) (hk : k ∈ w.blocks) (hl : l ∈ w.blocks)
    (hstart : k.start = l.start) : k = l := by
  by_contra hne
  have hapart := h.apart hk hl hne
  dsimp only [Span.Apart, Span.top, Block.span, sizeofBootstrapHeader] at hapart
  omega

theorem Neat.below (h : Neat w) (hk : k ∈ w.blocks) : k.span.top ≤ w.heap.offset :=
  (h.inv.packed h.fits).below k.span (List.mem_map_of_mem hk)

/-- What changes in one block only leaves the others' contents and headers. -/
theorem Neat.other (h : Neat w) (hk : k ∈ w.blocks) (hl : l ∈ w.blocks) (hne : l ≠ k) {m : Bytes}
    (hm : k.span.Confines w.heap.memory m) :
    l.contents m = l.contents w.heap.memory ∧
      l.requestedSize m = l.requestedSize w.heap.memory := by
  have hkeeps : l.span.Keeps w.heap.memory m := hm.keeps (h.apart hk hl hne.symm)
  refine ⟨contents_kept hkeeps, requestedSize_kept fun i hlow hhigh => hkeeps i hlow ?_⟩
  dsimp only [Span.top, Block.header, Block.span] at hhigh ⊢
  omega

/-! ### Objects -/

open Classical in
/-- The contents of each block that was made. -/
noncomputable def World.objects (w : World T) : Store Block UInt8 :=
  fun k => if w.Settled k then some (k.contents w.heap.memory) else none

theorem objects_settled (h : w.Settled k) : w.objects k = some (k.contents w.heap.memory) := if_pos h

theorem objects_unsettled (h : ¬w.Settled k) : w.objects k = none := if_neg h

theorem objects_some {c : List UInt8} (h : w.objects k = some c) :
    w.Settled k ∧ c = k.contents w.heap.memory := by
  by_cases hk : w.Settled k
  · rw [objects_settled hk] at h
    exact ⟨hk, (Option.some.inj h).symm⟩
  · rw [objects_unsettled hk] at h
    cases h

theorem objects_eq (hs : ∀ k, w'.Settled k ↔ w.Settled k)
    (hc : ∀ k, w.Settled k → k.contents w'.heap.memory = k.contents w.heap.memory) :
    w'.objects = w.objects := by
  funext k
  by_cases hk : w.Settled k
  · rw [objects_settled hk, objects_settled ((hs k).mpr hk), hc k hk]
  · rw [objects_unsettled hk, objects_unsettled (mt (hs k).mp hk)]

/-- One object changes or is new. -/
theorem objects_update {c : List UInt8} (hk : w'.objects k = some c)
    (hs : ∀ l, l ≠ k → (w'.Settled l ↔ w.Settled l))
    (hc : ∀ l, l ≠ k → w.Settled l → l.contents w'.heap.memory = l.contents w.heap.memory) :
    w'.objects = Function.update w.objects k (some c) := by
  funext l
  by_cases hl : l = k
  · rw [hl, Function.update_self, hk]
  · rw [Function.update_of_ne hl]
    by_cases hsettled : w.Settled l
    · rw [objects_settled hsettled, objects_settled ((hs l hl).mpr hsettled), hc l hl hsettled]
    · rw [objects_unsettled hsettled, objects_unsettled (mt (hs l hl).mp hsettled)]

end

/-! ### Steps on the objects -/

/-- What a new block starts out with: zeros from `calloc`, and from `realloc` the
old block's contents, as much as both hold. -/
def Initial (base : ℕ) (o : Store Block UInt8) (k : Block) (use : Use) (c : List UInt8) : Prop :=
  c.length = k.asked ∧
    match use with
    | .nothing => True
    | .zero => c = List.replicate k.asked 0
    | .copy ptr => ∀ old d, o old = some d → ptr = base + old.ptr →
        c.take old.asked = d.take k.asked

section
variable {w w' : World T} {k : Block}

/-- What the caller does to a new block stays inside. -/
theorem used_confines (b : Bootstrap) (k : Block) (use : Use) :
    k.bytes.Confines b.memory (used b k.asked (b.base + k.ptr) use).memory := by
  have hdst : b.base + k.ptr - b.base = k.ptr := Nat.add_sub_cancel_left _ _
  intro i hi
  dsimp only [Span.top, Block.bytes] at hi
  cases use with
  | nothing => rfl
  | zero =>
    dsimp only [used, fill]
    rw [hdst, if_neg (by omega)]
  | copy old =>
    dsimp only [used]
    rw [hdst]
    apply copy_outside
    split <;> omega

theorem bytes_confines {m m' : Bytes} (h : k.bytes.Confines m m') : k.span.Confines m m' := by
  apply h.mono
  · exact Nat.le_add_right _ _
  · exact (Nat.add_assoc _ _ _).le

theorem header_kept {m m' : Bytes} (h : k.bytes.Confines m m') :
    k.requestedSize m' = k.requestedSize m := by
  apply requestedSize_kept
  apply h.keeps
  right
  exact le_rfl

theorem used_initial (h : Neat w) (k : Block) (use : Use) :
    Initial w.heap.base w.objects k use
      (k.contents (used w.heap k.asked (w.heap.base + k.ptr) use).memory) := by
  have hdst : w.heap.base + k.ptr - w.heap.base = k.ptr := Nat.add_sub_cancel_left _ _
  refine ⟨length_contents _ _, ?_⟩
  cases use with
  | nothing => trivial
  | zero =>
    dsimp only [used]
    rw [hdst, contents_filled]
  | copy ptr =>
    intro old d hold hptr
    obtain ⟨hsettled, rfl⟩ := objects_some hold
    have hsrc : ptr - w.heap.base = old.ptr := by rw [hptr, Nat.add_sub_cancel_left]
    have hhead : old.ptr - sizeofBootstrapHeader = old.start := Nat.add_sub_cancel _ _
    have hrequested : load w.heap.memory old.start 8 = old.asked :=
      h.headers old hsettled.1 fun u hu => hsettled.2 u (hu.makes _)
    have hmin : (if old.asked < k.asked then old.asked else k.asked) = min old.asked k.asked := by
      split <;> omega
    dsimp only [used]
    rw [hdst, hsrc, hhead, hrequested, hmin]
    exact contents_copied w.heap.memory

/-- A client's write. -/
theorem write_step (h : Neat w) {i : ℕ} {v : List UInt8} (hk : w.Settled k)
    (hi : i + v.length ≤ k.asked)
    (hw' : w' = { w with heap := { w.heap with
      memory := SparseFile.patched w.heap.memory (k.ptr + i) v } }) :
    Neat w' ∧ Step (Initial w.heap.base) w.objects (.wrote k i v) w'.objects := by
  subst hw'
  have hconfines : k.bytes.Confines w.heap.memory
      (SparseFile.patched w.heap.memory (k.ptr + i) v) := by
    intro j hj
    apply SparseFile.patched_outside
    dsimp only [Span.top, Block.bytes] at hj
    omega
  have hother (l : Block) (hl : l ∈ w.blocks) (hne : l ≠ k) :=
    h.other hk.1 hl hne (bytes_confines hconfines)
  have hinv : Inv { w with heap := { w.heap with
      memory := SparseFile.patched w.heap.memory (k.ptr + i) v } } :=
    ⟨h.inv.offset, h.inv.offsetAligned, h.inv.starts, h.inv.asked, h.inv.packed, h.inv.pcs⟩
  refine ⟨⟨hinv, h.fits, h.making, h.single, fun l hl hno => ?_⟩, ?_⟩
  · rw [← h.headers l hl hno]
    by_cases hne : l = k
    · rw [hne]
      exact header_kept hconfines
    · exact (hother l hl hne).2
  · have hsettled : World.Settled { w with heap := { w.heap with
        memory := SparseFile.patched w.heap.memory (k.ptr + i) v } } k := hk
    rw [objects_update (w := w) (objects_settled hsettled) (fun l _ => Iff.rfl) fun l hne hl =>
      (hother l hl.1 hne).1]
    dsimp only
    rw [contents_patched k _ hi]
    refine .wrote (objects_settled hk) ?_
    rw [length_contents]
    exact hi

theorem neat_start {b : Bootstrap} (hb : b.offset = 0) :
    Neat (⟨b, fun _ => .idle, [], []⟩ : World T) :=
  ⟨inv_start hb, by simp, fun _ => trivial, by simp, by simp⟩

end

section
variable [DecidableEq T] {w w' : World T} {t : T} {next : Pc} {k l : Block}

/-- One thread's position changes, and what is made elsewhere stays so. -/
theorem makes_update (hpc : w'.pc = Function.update w.pc t next)
    (hbase : w'.heap.base = w.heap.base)
    (hsame : next.Makes w.heap.base k ↔ (w.pc t).Makes w.heap.base k) (u : T) :
    (w'.pc u).Makes w'.heap.base k ↔ (w.pc u).Makes w.heap.base k := by
  rw [hpc, hbase]
  by_cases hu : u = t
  · rw [hu, Function.update_self]
    exact hsame
  · rw [Function.update_of_ne hu]

theorem settled_update (hpc : w'.pc = Function.update w.pc t next)
    (hbase : w'.heap.base = w.heap.base) (hblocks : k ∈ w'.blocks ↔ k ∈ w.blocks)
    (hsame : next.Makes w.heap.base k ↔ (w.pc t).Makes w.heap.base k) :
    w'.Settled k ↔ w.Settled k := by
  unfold World.Settled
  exact and_congr hblocks
    (forall_congr' fun u => not_congr (makes_update hpc hbase hsame u))

theorem making_update (h : Neat w) (hpc : w'.pc = Function.update w.pc t next)
    (hblocks : w.blocks ⊆ w'.blocks) (hbase : w'.heap.base = w.heap.base) (hok : w'.MakesOk next)
    (u : T) : w'.MakesOk (w'.pc u) := by
  rw [hpc]
  by_cases hu : u = t
  · rw [hu, Function.update_self]
    exact hok
  · rw [Function.update_of_ne hu]
    exact (h.making u).mono hblocks hbase

/-- Headers in memory, for a step that stores none. -/
theorem headers_update (h : Neat w) (hpc : w'.pc = Function.update w.pc t next)
    (hblocks : w'.blocks = w.blocks) (hold : ∀ k, ¬(w.pc t).Stores k)
    (hm : ∀ k ∈ w.blocks, k.requestedSize w'.heap.memory = k.requestedSize w.heap.memory)
    (k : Block) (hk : k ∈ w'.blocks) (hno : ∀ u, ¬(w'.pc u).Stores k) :
    k.requestedSize w'.heap.memory = k.asked := by
  rw [hblocks] at hk
  rw [hm k hk]
  refine h.headers k hk fun u hu => ?_
  by_cases hut : u = t
  · rw [hut] at hu
    exact hold k hu
  · refine hno u ?_
    rw [hpc, Function.update_of_ne hut]
    exact hu

/-- A step between the loads, the compare-and-swaps that fail and the returns. -/
theorem quiet_step (h : Neat w) (hinv : Inv w') (hpc : w'.pc = Function.update w.pc t next)
    (hblocks : w'.blocks = w.blocks) (hheap : w'.heap = w.heap) (hold : (w.pc t).Quiet)
    (hnew : next.Quiet) : Neat w' ∧ w'.objects = w.objects := by
  have hbase : w'.heap.base = w.heap.base := by rw [hheap]
  have hsame (k : Block) : next.Makes w.heap.base k ↔ (w.pc t).Makes w.heap.base k :=
    iff_of_false (hnew.not_makes _ k) (hold.not_makes _ k)
  have hmakes (k : Block) := makes_update hpc hbase (hsame k)
  refine ⟨⟨hinv, ?_, ?_, ?_, ?_⟩, ?_⟩
  · rw [hblocks]
    exact h.fits
  · exact making_update h hpc (by rw [hblocks]; exact List.Subset.refl _) hbase (hnew.makesOk w')
  · intro k hk u v hu hv
    rw [hblocks] at hk
    exact h.single k hk u v ((hmakes k u).mp hu) ((hmakes k v).mp hv)
  · refine headers_update h hpc hblocks (fun k hk => hold.not_makes w.heap.base k (hk.makes _)) ?_
    intro k _
    rw [hheap]
  · refine objects_eq (fun k => settled_update hpc hbase (by rw [hblocks]) (hsame k)) fun k _ => ?_
    rw [hheap]

/-- A compare-and-swap that wins: the new block is nobody's object yet. -/
theorem carve_step (h : Neat w) (hinv : Inv w') {size : ℕ} {use : Use}
    (hfits : ∀ k ∈ w'.blocks, Fits k.asked) (hold : (w.pc t).Quiet)
    (hpc : w'.pc = Function.update w.pc t (.header size use w.heap.offset))
    (hblocks : w'.blocks = w.blocks ++ [⟨w.heap.offset, size⟩])
    (hmem : w'.heap.memory = w.heap.memory) (hbase : w'.heap.base = w.heap.base) :
    Neat w' ∧ w'.objects = w.objects := by
  have hnew (l : Block) (hl : l ∈ w.blocks) : l.start ≠ w.heap.offset := by
    have hbelow := h.below hl
    dsimp only [Span.top, Block.span, sizeofBootstrapHeader] at hbelow
    omega
  have hmem' {k : Block} : k ∈ w'.blocks ↔ k ∈ w.blocks ∨ k = ⟨w.heap.offset, size⟩ := by
    rw [hblocks, List.mem_append, List.mem_singleton]
  have hold' (k : Block) (hk : k ∈ w.blocks) (u : T) :
      (w'.pc u).Makes w'.heap.base k ↔ (w.pc u).Makes w.heap.base k :=
    makes_update hpc hbase
      (iff_of_false (fun heq => hnew k hk heq.symm) (hold.not_makes _ k)) u
  have hfresh (u : T) (hu : (w'.pc u).Makes w'.heap.base ⟨w.heap.offset, size⟩) : u = t := by
    by_contra hut
    rw [hpc, Function.update_of_ne hut, hbase] at hu
    obtain ⟨l, hl, hstart⟩ := (h.making u).start hu
    exact hnew l hl hstart
  have hsubset : w.blocks ⊆ w'.blocks := fun k hk => hmem'.mpr (Or.inl hk)
  refine ⟨⟨hinv, hfits, ?_, ?_, ?_⟩, ?_⟩
  · exact making_update h hpc hsubset hbase (hmem'.mpr (Or.inr rfl))
  · intro k hk u v hu hv
    rcases hmem'.mp hk with hk | rfl
    · exact h.single k hk u v ((hold' k hk u).mp hu) ((hold' k hk v).mp hv)
    · rw [hfresh u hu, hfresh v hv]
  · intro k hk hno
    rcases hmem'.mp hk with hk | rfl
    · rw [hmem]
      refine h.headers k hk fun u hu => hno u ?_
      have hut : u ≠ t := by
        rintro rfl
        exact hold.not_makes w.heap.base k (hu.makes _)
      rw [hpc, Function.update_of_ne hut]
      exact hu
    · refine (hno t ?_).elim
      rw [hpc, Function.update_self]
      rfl
  · refine objects_eq (fun k => ?_) fun k _ => by rw [hmem]
    unfold World.Settled
    rw [hmem']
    constructor
    · rintro ⟨hk | rfl, hno⟩
      · exact ⟨hk, fun u hu => hno u ((hold' k hk u).mpr hu)⟩
      · refine (hno t ?_).elim
        rw [hpc, Function.update_self]
        rfl
    · rintro ⟨hk, hno⟩
      exact ⟨Or.inl hk, fun u hu => hno u ((hold' k hk u).mp hu)⟩

/-- The store of a header. -/
theorem header_step (h : Neat w) (hinv : Inv w') {size current : ℕ} {use : Use}
    (ht : w.pc t = .header size use current)
    (hpc : w'.pc = Function.update w.pc t
      (.fill size use (w.heap.base + current + sizeofBootstrapHeader)))
    (hblocks : w'.blocks = w.blocks)
    (hmem : w'.heap.memory = store w.heap.memory current size 8)
    (hbase : w'.heap.base = w.heap.base) : Neat w' ∧ w'.objects = w.objects := by
  have hk : (⟨current, size⟩ : Block) ∈ w.blocks := by
    have hmaking := h.making t
    rw [ht] at hmaking
    exact hmaking
  have hconfines : (Block.span ⟨current, size⟩).Confines w.heap.memory
      (store w.heap.memory current size 8) := by
    intro i hi
    apply store_outside
    dsimp only [Span.top, Block.span, sizeofBootstrapHeader] at hi
    omega
  have hsame (k : Block) : (Pc.fill size use (w.heap.base + current + sizeofBootstrapHeader)).Makes
      w.heap.base k ↔ (w.pc t).Makes w.heap.base k := by
    rw [ht]
    dsimp only [Pc.Makes, Block.ptr]
    omega
  have hmakes (k : Block) := makes_update hpc hbase (hsame k)
  refine ⟨⟨hinv, ?_, ?_, ?_, ?_⟩, ?_⟩
  · rw [hblocks]
    exact h.fits
  · refine making_update h hpc (by rw [hblocks]; exact List.Subset.refl _) hbase ?_
    exact ⟨_, by rw [hblocks]; exact hk, rfl, by rw [hbase]; exact Nat.add_assoc _ _ _⟩
  · intro k hk u v hu hv
    rw [hblocks] at hk
    exact h.single k hk u v ((hmakes k u).mp hu) ((hmakes k v).mp hv)
  · intro l hl hno
    rw [hblocks] at hl
    rw [hmem]
    by_cases hlk : l = ⟨current, size⟩
    · rw [hlk]
      exact load_store _ _ (Fits.lt (h.fits _ hk))
    · rw [(h.other hk hl hlk hconfines).2]
      refine h.headers l hl fun u hu => ?_
      by_cases hut : u = t
      · rw [hut, ht] at hu
        exact hlk (h.start_inj hl hk hu.symm)
      · refine hno u ?_
        rw [hpc, Function.update_of_ne hut]
        exact hu
  · refine objects_eq (fun k => settled_update hpc hbase (by rw [hblocks]) (hsame k)) ?_
    intro l hl
    have hlk : l ≠ ⟨current, size⟩ := by
      rintro rfl
      refine hl.2 t ?_
      rw [ht]
      rfl
    rw [hmem]
    exact (h.other hk hl.1 hlk hconfines).1

/-- The last step before the return. -/
theorem fill_step (h : Neat w) (hinv : Inv w') {size ptr : ℕ} {use : Use} (hk : k ∈ w.blocks)
    (hptr : ptr = w.heap.base + k.ptr) (ht : w.pc t = .fill size use ptr)
    (hpc : w'.pc = Function.update w.pc t (.ret ptr)) (hblocks : w'.blocks = w.blocks)
    (hheap : w'.heap = used w.heap size ptr use) :
    Neat w' ∧ Step (Initial w.heap.base) w.objects (.made k use (k.contents w'.heap.memory))
      w'.objects := by
  have hbase : w'.heap.base = w.heap.base := by
    rw [hheap]
    exact (used_offset _ _ _ _).2
  have hsize : size = k.asked := by
    have hmaking := h.making t
    rw [ht] at hmaking
    obtain ⟨l, hl, hasked, hptr'⟩ := hmaking
    have hsum : w.heap.base + l.ptr = w.heap.base + k.ptr := hptr'.symm.trans hptr
    rw [← hasked, h.start_inj hl hk (Nat.add_right_cancel (Nat.add_left_cancel hsum))]
  subst hsize hptr
  have hmakesK : (w.pc t).Makes w.heap.base k := by
    rw [ht]
    rfl
  have hopen : ¬w.Settled k := fun hsettled => hsettled.2 t hmakesK
  have hconfines : k.bytes.Confines w.heap.memory w'.heap.memory := by
    rw [hheap]
    exact used_confines w.heap k use
  have hother (l : Block) (hl : l ∈ w.blocks) (hne : l ≠ k) :=
    h.other hk hl hne (bytes_confines hconfines)
  have hsame (l : Block) (hl : l ∈ w.blocks) (hne : l ≠ k) :
      (Pc.ret (w.heap.base + k.ptr)).Makes w.heap.base l ↔ (w.pc t).Makes w.heap.base l := by
    refine iff_of_false id ?_
    rw [ht]
    intro heq
    exact hne (h.start_inj hl hk (Nat.add_right_cancel (Nat.add_left_cancel heq.symm)))
  have hdone (u : T) : ¬(w'.pc u).Makes w'.heap.base k := by
    rw [hpc, hbase]
    by_cases hut : u = t
    · rw [hut, Function.update_self]
      exact id
    · rw [Function.update_of_ne hut]
      exact fun hu => hut (h.single k hk u t hu hmakesK)
  refine ⟨⟨hinv, ?_, ?_, ?_, ?_⟩, ?_⟩
  · rw [hblocks]
    exact h.fits
  · exact making_update h hpc (by rw [hblocks]; exact List.Subset.refl _) hbase trivial
  · intro l hl u v hu hv
    rw [hblocks] at hl
    by_cases hne : l = k
    · rw [hne] at hu
      exact (hdone u hu).elim
    · have hmakes := makes_update hpc hbase (hsame l hl hne)
      exact h.single l hl u v ((hmakes u).mp hu) ((hmakes v).mp hv)
  · refine headers_update h hpc hblocks (fun l hl => ?_) fun l hl => ?_
    · rw [ht] at hl
      exact hl
    · by_cases hne : l = k
      · rw [hne]
        exact header_kept hconfines
      · exact (hother l hl hne).2
  · have hsettled : w'.Settled k := ⟨by rw [hblocks]; exact hk, hdone⟩
    rw [objects_update (objects_settled hsettled) (fun l hne => ?_) fun l hne hl =>
      (hother l hl.1 hne).1]
    · refine .made (objects_unsettled hopen) ?_
      rw [hheap]
      exact used_initial h k use
    · by_cases hl : l ∈ w.blocks
      · exact settled_update hpc hbase (by rw [hblocks]) (hsame l hl hne)
      · refine iff_of_false (fun hs => hl ?_) fun hs => hl hs.1
        rw [← hblocks]
        exact hs.1

/-! ### Runs -/

theorem startCall_quiet {r : Request} (hs : startCall w t r = some w') :
    ∃ next : Pc, next.Quiet ∧ (w.pc t).Quiet ∧ w' = (w.enter r).goto t next := by
  unfold startCall at hs
  split at hs
  · cases hs
  · rename_i hidle
    have hquiet : (w.pc t).Quiet := by
      rw [not_not.mp hidle]
      trivial
    cases r with
    | malloc size =>
      cases hs
      refine ⟨_, ?_, hquiet, rfl⟩
      trivial
    | calloc nmemb size =>
      cases hs
      refine ⟨_, ?_, hquiet, rfl⟩
      trivial
    | realloc ptr size =>
      dsimp only at hs
      split_ifs at hs <;> cases hs
      all_goals
        refine ⟨_, ?_, hquiet, rfl⟩
        trivial
    | free ptr => cases hs

theorem advance_step (h : Neat w) {spurious : Bool} (hfits : ∀ k ∈ w'.blocks, Fits k.asked)
    (hpc : ∀ size use ptr, w.pc t ≠ .fill size use ptr) (hs : advance w t spurious = some w') :
    Neat w' ∧ w'.objects = w.objects := by
  have hinv := inv_advance h.inv hs
  have hat := h.inv.pcs t
  unfold advance at hs
  cases hc : w.pc t with
  | idle =>
    rw [hc] at hs
    cases hs
  | load size asked use =>
    have hquiet : (w.pc t).Quiet := by
      rw [hc]
      trivial
    rw [hc] at hs
    dsimp only at hs
    split at hs <;> cases hs <;> exact quiet_step h hinv rfl rfl rfl hquiet trivial
  | swap size asked use current =>
    have hquiet : (w.pc t).Quiet := by
      rw [hc]
      trivial
    rw [hc] at hs hat
    dsimp only at hs
    split at hs
    · rename_i hwin
      obtain ⟨-, rfl⟩ := hwin
      cases hs
      have hasked : Fits asked := hfits ⟨w.heap.offset, asked⟩ (by simp)
      have hsize : size = asked := hat.1.1.trans (Nat.mod_eq_of_lt hasked.lt)
      subst hsize
      exact carve_step h hinv hfits hquiet rfl rfl rfl rfl
    · cases hs
      exact quiet_step h hinv rfl rfl rfl hquiet trivial
  | header size use current =>
    rw [hc] at hs
    cases hs
    exact header_step h hinv hc rfl rfl rfl rfl
  | fill size use ptr => exact (hpc size use ptr hc).elim
  | ret ptr =>
    have hquiet : (w.pc t).Quiet := by
      rw [hc]
      trivial
    rw [hc] at hs
    cases hs
    exact quiet_step h hinv rfl rfl rfl hquiet trivial

/-- Each move is one of the objects'. -/
theorem move_step {e : Shown} (h : Neat w) (hfits : ∀ k ∈ w'.blocks, Fits k.asked)
    (hm : Move w e w') : Neat w' ∧ Step (Initial w.heap.base) w.objects e w'.objects := by
  cases hm with
  | @call _ t r hr hs =>
    have hinv := inv_call h.inv hr hs
    obtain ⟨next, hnew, hold, rfl⟩ := startCall_quiet hs
    obtain ⟨hneat, hobjects⟩ := quiet_step h hinv rfl rfl rfl hold hnew
    rw [hobjects]
    exact ⟨hneat, .silent⟩
  | quiet hpc hs =>
    obtain ⟨hneat, hobjects⟩ := advance_step h hfits hpc hs
    rw [hobjects]
    exact ⟨hneat, .silent⟩
  | @fill _ t spurious size ptr use k hpc hk hptr hs =>
    have hinv := inv_advance h.inv hs
    have hw' : w' = { w.goto t (.ret ptr) with heap := used w.heap size ptr use } := by
      unfold advance at hs
      rw [hpc] at hs
      exact (Option.some.inj hs).symm
    exact fill_step h hinv hk hptr hpc (by rw [hw']; rfl) (by rw [hw']; rfl) (by rw [hw'])
  | write hpc hk hi => exact write_step h hk hi rfl

theorem move_frame {e : Shown} (hm : Move w e w') :
    w'.heap.base = w.heap.base ∧ w.blocks ⊆ w'.blocks := by
  have hadvance {t : T} {spurious : Bool} (hs : advance w t spurious = some w') :
      w'.heap.base = w.heap.base ∧ w.blocks ⊆ w'.blocks := by
    unfold advance at hs
    split at hs
    · cases hs
    · split at hs <;> cases hs <;> exact ⟨rfl, List.Subset.refl _⟩
    · split at hs <;> cases hs
      · exact ⟨rfl, List.subset_append_left _ _⟩
      · exact ⟨rfl, List.Subset.refl _⟩
    · cases hs
      exact ⟨rfl, List.Subset.refl _⟩
    · cases hs
      exact ⟨(used_offset _ _ _ _).2, List.Subset.refl _⟩
    · cases hs
      exact ⟨rfl, List.Subset.refl _⟩
  cases hm with
  | call hr hs =>
    obtain ⟨next, _, _, rfl⟩ := startCall_quiet hs
    exact ⟨rfl, List.Subset.refl _⟩
  | quiet hpc hs => exact hadvance hs
  | fill hpc hk hptr hs => exact hadvance hs
  | write hpc hk hi => exact ⟨rfl, List.Subset.refl _⟩

theorem runs_neat {b : Bootstrap} {es : List Shown} (h : Runs b es w)
    (hfits : ∀ k ∈ w.blocks, Fits k.asked) :
    Neat w ∧ w.heap.base = b.base ∧ Objects.Run (Initial b.base) (fun _ => none) es w.objects := by
  induction h with
  | start hb =>
    refine ⟨neat_start hb, rfl, ?_⟩
    have hnone : (⟨b, fun _ => .idle, [], []⟩ : World T).objects = fun _ => none :=
      funext fun k => objects_unsettled fun hk => absurd hk.1 List.not_mem_nil
    rw [hnone]
    exact .nil
  | move h hm ih =>
    obtain ⟨hbase, hblocks⟩ := move_frame hm
    obtain ⟨hneat, hbase', hrun⟩ := ih fun k hk => hfits k (hblocks hk)
    obtain ⟨hneat', hstep⟩ := move_step hneat hfits hm
    rw [hbase'] at hbase hstep
    exact ⟨hneat', hbase, hrun.snoc hstep⟩

theorem runs_inv {b : Bootstrap} {es : List Shown} (h : Runs b es w) : Inv w := by
  induction h with
  | start hb => exact inv_start hb
  | move h hm ih => exact move_inv ih hm

/-- Sizes that fit are asked for in blocks that fit. -/
theorem runs_fits {b : Bootstrap} {es : List Shown} (h : Runs b es w)
    (hfits : ∀ r ∈ w.calls, Fits (wanted r)) (k : Block) (hk : k ∈ w.blocks) : Fits k.asked := by
  obtain ⟨r, hr, heq⟩ := (runs_inv h).asked k hk
  rw [heq]
  exact hfits r hr

/-- In every order of the threads' steps and writes the array is a set of separate
objects, and every header that was stored holds what its block was asked for. -/
theorem bootstrap_objects {b : Bootstrap} {es : List Shown} (h : Runs b es w)
    (hfits : ∀ r ∈ w.calls, Fits (wanted r)) :
    Objects.Run (Initial b.base) (fun _ => none) es w.objects ∧
      ∀ k ∈ w.blocks, (∀ t, ¬(w.pc t).Stores k) → k.requestedSize w.heap.memory = k.asked := by
  obtain ⟨hneat, _, hrun⟩ := runs_neat h (runs_fits h hfits)
  exact ⟨hrun, hneat.headers⟩

/-- A block holds what it started out with, under the writes to it since then and
nothing else. -/
theorem bootstrap_contents {b : Bootstrap} {es es' : List Shown} {use : Use}
    {c : List UInt8} (h : Runs b (es ++ .made k use c :: es') w)
    (hfits : ∀ r ∈ w.calls, Fits (wanted r)) :
    w.objects k = some (written c (es'.filterMap (Objects.Event.writeTo k))) ∧
      ∃ o, Objects.Run (Initial b.base) (fun _ => none) es o ∧ Initial b.base o k use c := by
  obtain ⟨_, _, hrun⟩ := runs_neat h (runs_fits h hfits)
  obtain ⟨o, ho, hinit, hlast⟩ := run_made hrun
  exact ⟨hlast, o, ho, hinit⟩

end

/-! ### Two threads' blocks and writes to them -/

/-- A schedule shows what is made, and no write. -/
theorem runs_play [DecidableEq T] {b : Bootstrap} {es : List Shown} {w w' : World T}
    {turns : List (Turn T)} (h : Runs b es w) (hok : ∀ turn ∈ turns, turn.Ok)
    (hp : play w turns = some w') :
    ∃ es', Runs b (es ++ es') w' ∧ ∀ k, es'.filterMap (Objects.Event.writeTo k) = [] := by
  induction turns generalizing w es with
  | nil =>
    obtain rfl := Option.some.inj hp
    exact ⟨[], by rw [List.append_nil]; exact h, fun _ => rfl⟩
  | cons turn turns ih =>
    obtain ⟨v, hv, hp⟩ := play_cons hp
    have hturn := hok turn List.mem_cons_self
    obtain ⟨e, he, hwrites⟩ : ∃ e, Move w e v ∧ ∀ k, e.writeTo k = none := by
      cases turn with
      | call t r => exact ⟨_, .call hturn hv, fun _ => rfl⟩
      | step t spurious => exact advance_move (runs_inv h) hv
    obtain ⟨es', hes', hnone⟩ := ih (h.move he)
      (fun turn hmem => hok turn (List.mem_cons_of_mem _ hmem)) hp
    refine ⟨e :: es', ?_, fun k => ?_⟩
    · rw [List.append_cons]
      exact hes'
    · rw [List.filterMap_cons_none (hwrites k)]
      exact hnone k

/-- The second thread's block, as `crossed` makes it and as its `realloc` does. -/
def small : Block := ⟨0, 15⟩
def grown : Block := ⟨352, 40⟩

/-- The `realloc` up to its copy, while the first thread gets another block. -/
def growing : List (Turn Bool) :=
  [.call true (.realloc (4096 + 48) 40), .step true false,
    .call false (.malloc 80), .step false false, .step false false,
    .step true false, .step true false, .step false false, .step true false, .step true false]

def World.wrote (w : World T) (k : Block) (i : ℕ) (v : List UInt8) : World T :=
  { w with heap := { w.heap with memory := SparseFile.patched w.heap.memory (k.ptr + i) v } }

def emptyWorld : World Bool := ⟨emptyHeap, fun _ => .idle, [], []⟩

def crossedWorld : World Bool := (play emptyWorld (crossed ++ [.step false false])).getD emptyWorld

/-- Both threads wrote to the second one's block. -/
def writtenWorld : World Bool := (crossedWorld.wrote small 1 [7, 8]).wrote small 14 [9]

def growingWorld : World Bool := (play writtenWorld growing).getD writtenWorld

def grownWorld : World Bool := (advance growingWorld true false).getD growingWorld

def returnedWorld : World Bool :=
  (play grownWorld [.step false false, .step true false, .step false false]).getD grownWorld

/-- At the end there is one more write to the old block and one to the new. -/
def sharedWorld : World Bool := (returnedWorld.wrote small 0 [1]).wrote grown 14 [5, 6]

theorem settled_idle {w : World T} {k : Block} (hk : k ∈ w.blocks) (hpc : ∀ t, w.pc t = .idle) :
    w.Settled k := by
  refine ⟨hk, fun t ht => ?_⟩
  rw [hpc t] at ht
  exact ht

theorem runs_growing : ∃ es : List Shown, Runs emptyHeap es growingWorld := by
  have hempty : Runs emptyHeap [] emptyWorld := .start rfl
  have hplay : play emptyWorld (crossed ++ [.step false false]) = some crossedWorld := rfl
  obtain ⟨es₁, hcrossed, -⟩ := runs_play hempty (by decide) hplay
  have hsecond := hcrossed.move (.write (t := true) (k := small) (i := 1) (v := [7, 8]) rfl
    (settled_idle (by decide) (by decide)) (by decide))
  have hwritten : Runs emptyHeap _ writtenWorld :=
    hsecond.move (.write (t := false) (k := small) (i := 14) (v := [9]) rfl
      (settled_idle (by decide) (by decide)) (by decide))
  have hplay : play writtenWorld growing = some growingWorld := rfl
  obtain ⟨es₂, hgrowing, -⟩ := runs_play hwritten (by decide) hplay
  exact ⟨_, hgrowing⟩

theorem runs_shared : ∃ (es es' : List Shown) (c : List UInt8),
    Runs emptyHeap (es ++ .made grown (.copy (4096 + 48)) c :: es') sharedWorld ∧
    c.take 15 = [0, 7, 8, 0, 0, 0, 0, 0, 0, 0, 0, 0, 0, 0, 9] ∧
    es'.filterMap (Objects.Event.writeTo grown) = [(14, [5, 6])] := by
  obtain ⟨es, hgrowing⟩ := runs_growing
  have hcopy : advance growingWorld true false = some grownWorld := rfl
  have hgrown := hgrowing.move (.fill (k := grown) rfl (by decide) rfl hcopy)
  have hplay : play grownWorld [.step false false, .step true false, .step false false] =
    some returnedWorld := rfl
  obtain ⟨es', hreturned, hnone⟩ := runs_play hgrown (by decide) hplay
  have hold := hreturned.move (.write (t := false) (k := small) (i := 0) (v := [1]) rfl
    (settled_idle (by decide) (by decide)) (by decide))
  have hshared : Runs emptyHeap _ sharedWorld :=
    hold.move (.write (t := true) (k := grown) (i := 14) (v := [5, 6]) rfl
      (settled_idle (by decide) (by decide)) (by decide))
  refine ⟨es, es' ++ [.wrote small 0 [1], .wrote grown 14 [5, 6]],
    grown.contents grownWorld.heap.memory, ?_, ?_, ?_⟩
  · simpa only [List.append_assoc, List.cons_append, List.nil_append] using hshared
  · decide
  · rw [List.filterMap_append, hnone]
    rfl

theorem bootstrap_objects_shared :
    (∃ es, Objects.Run (Initial emptyHeap.base) (fun _ => none) es sharedWorld.objects) ∧
      grown.requestedSize sharedWorld.heap.memory = 40 := by
  obtain ⟨es, es', c, hruns, -, -⟩ := runs_shared
  obtain ⟨hrun, hheaders⟩ := bootstrap_objects hruns (by decide)
  refine ⟨⟨_, hrun⟩, hheaders grown (by decide) fun t ht => ?_⟩
  cases t <;> exact ht

theorem bootstrap_contents_shared : ∃ c : List UInt8,
    sharedWorld.objects grown = some (overwritten c 14 [5, 6]) ∧
      c.take 15 = [0, 7, 8, 0, 0, 0, 0, 0, 0, 0, 0, 0, 0, 0, 9] := by
  obtain ⟨es, es', c, hruns, hcopied, hwrites⟩ := runs_shared
  have hlast := (bootstrap_contents hruns (by decide)).1
  rw [hwrites] at hlast
  exact ⟨c, hlast, hcopied⟩

end LibcOverride.MockAllocator.Resolver

import LibcOverride.Lib.Buffer
import LibcOverride.Lib.Word

/-!
# Heaps of blocks

A pointer is the number of the allocation that made the block, so `realloc`
always makes a new one. A block keeps count of how often it was freed; one that
was freed is not read, written or freed again. The allocator refuses what it
likes, and every request above `PTRDIFF_MAX`.
-/

namespace LibcOverride

abbrev ptrdiffMax : ℕ := 2 ^ 63 - 1

structure Block (β : Type) where
  contents : β
  frees : ℕ
  deriving Repr, DecidableEq

structure Heap (β : Type) where
  blocks : List (Block β)
  deriving Repr, DecidableEq

namespace Heap
open Buffer

variable {α β : Type}

def next (h : Heap β) : ℕ := h.blocks.length

/-- What a live block holds. -/
def read (h : Heap β) (p : ℕ) : Option β :=
  h.blocks[p]?.bind fun b => if b.frees = 0 then some b.contents else none

def frees (h : Heap β) (p : ℕ) : ℕ := (h.blocks[p]?.map (·.frees)).getD 0

/-- The new block is `h.next`. -/
def alloc (h : Heap β) (c : β) : Heap β := ⟨h.blocks ++ [⟨c, 0⟩]⟩

def store (h : Heap β) (p : ℕ) (c : β) : Heap β :=
  ⟨h.blocks.modify p fun b => { b with contents := c }⟩

def release (h : Heap β) (p : ℕ) : Heap β :=
  ⟨h.blocks.modify p fun b => { b with frees := b.frees + 1 }⟩

def write (h : Heap β) (p : ℕ) (c : β) : Option (Heap β) := (h.read p).map fun _ => h.store p c

def free (h : Heap β) (p : ℕ) : Option (Heap β) := (h.read p).map fun _ => h.release p

@[ext] theorem ext_blocks {h h' : Heap β} (hb : h.blocks = h'.blocks) : h = h' := by
  cases h
  cases h'
  simp_all

@[simp] theorem next_alloc (h : Heap β) (c : β) : (h.alloc c).next = h.next + 1 := by
  simp [next, alloc]

@[simp] theorem next_store (h : Heap β) (p : ℕ) (c : β) : (h.store p c).next = h.next := by
  simp [next, store]

@[simp] theorem next_release (h : Heap β) (p : ℕ) : (h.release p).next = h.next := by
  simp [next, release]

theorem lt_next_of_read {h : Heap β} {p : ℕ} {c : β} (hp : h.read p = some c) : p < h.next := by
  by_contra hn
  have hnone : h.blocks[p]? = none := List.getElem?_eq_none (Nat.le_of_not_lt hn)
  rw [read, hnone] at hp
  exact absurd hp (by simp)

theorem read_alloc (h : Heap β) (c : β) (q : ℕ) :
    (h.alloc c).read q = if q = h.next then some c else h.read q := by
  split
  · rename_i heq
    subst heq
    simp [read, alloc, next]
  · rename_i hne
    have hq : q < h.blocks.length ∨ h.blocks.length < q := Nat.lt_or_gt_of_ne hne
    rcases hq with hq | hq
    · simp [read, alloc, List.getElem?_append_left hq]
    · have hnone : h.blocks[q]? = none := List.getElem?_eq_none (Nat.le_of_lt hq)
      have hnone' : (h.alloc c).blocks[q]? = none := by
        apply List.getElem?_eq_none
        simp only [alloc, List.length_append, List.length_singleton]
        omega
      rw [read, read, hnone, hnone']

theorem read_store (h : Heap β) (p : ℕ) (c : β) (q : ℕ) :
    (h.store p c).read q = if q = p then (h.read p).map fun _ => c else h.read q := by
  rcases eq_or_ne q p with rfl | hq
  · cases hb : h.blocks[q]? with
    | none => simp [read, store, hb]
    | some b => by_cases hf : b.frees = 0 <;> simp [read, store, hb, hf]
  · simp [read, store, hq, hq.symm]

theorem read_release (h : Heap β) (p q : ℕ) :
    (h.release p).read q = if q = p then none else h.read q := by
  rcases eq_or_ne q p with rfl | hq
  · cases hb : h.blocks[q]? with
    | none => simp [read, release, hb]
    | some b => simp [read, release, hb]
  · simp [read, release, hq, hq.symm]

@[simp] theorem frees_alloc (h : Heap β) (c : β) (q : ℕ) : (h.alloc c).frees q = h.frees q := by
  simp only [frees, alloc, List.getElem?_append]
  split
  · rfl
  · rename_i hq
    have hnone : h.blocks[q]? = none := List.getElem?_eq_none (Nat.le_of_not_lt hq)
    rw [hnone]
    cases hi : q - h.blocks.length with
    | zero => simp
    | succ i => simp

@[simp] theorem frees_store (h : Heap β) (p : ℕ) (c : β) (q : ℕ) :
    (h.store p c).frees q = h.frees q := by
  simp only [frees, store, List.getElem?_modify]
  cases h.blocks[q]? with
  | none => rfl
  | some b => by_cases hq : p = q <;> simp [hq]

theorem frees_release {h : Heap β} {p : ℕ} {c : β} (hp : h.read p = some c) (q : ℕ) :
    (h.release p).frees q = if q = p then 1 else h.frees q := by
  rcases eq_or_ne q p with rfl | hq
  · cases hb : h.blocks[q]? with
    | none => simp [read, hb] at hp
    | some b =>
      have hf : b.frees = 0 := by
        by_contra hf
        simp [read, hb, hf] at hp
      simp [frees, release, hb, hf]
  · simp [frees, release, hq, hq.symm]

/-- Storing what is there changes nothing. -/
theorem store_read {h : Heap β} {p : ℕ} {c : β} (hp : h.read p = some c) : h.store p c = h := by
  apply ext_blocks
  apply List.ext_getElem?
  intro q
  simp only [store, List.getElem?_modify]
  rcases eq_or_ne p q with rfl | hq
  · cases hb : h.blocks[p]? with
    | none => simp
    | some b =>
      simp only [read, hb, Option.bind_some] at hp
      split at hp
      · simp [← Option.some.inj hp]
      · cases hp
  · cases h.blocks[q]? with
    | none => simp
    | some b => simp [hq]

@[simp] theorem store_alloc (h : Heap β) (c c' : β) : (h.alloc c).store h.next c' = h.alloc c' := by
  apply ext_blocks
  have hlt : h.blocks.length < (h.blocks ++ [(⟨c, 0⟩ : Block β)]).length := by simp
  simp only [store, alloc, next, List.modify_eq_take_cons_drop hlt]
  simp

theorem write_eq {h : Heap β} {p : ℕ} {c : β} (hp : h.read p = some c) (c' : β) :
    h.write p c' = some (h.store p c') := by
  simp [write, hp]

theorem free_eq {h : Heap β} {p : ℕ} {c : β} (hp : h.read p = some c) :
    h.free p = some (h.release p) := by
  simp [free, hp]

/-! ### The blocks made since an earlier heap -/

/-- Of the blocks made since `h₀`, those in `live` are live and the others were
freed once. The blocks of `h₀` are as they were. -/
structure Since (h₀ h : Heap β) (live : List ℕ) : Prop where
  later : h₀.next ≤ h.next
  old : ∀ q, q < h₀.next → h.read q = h₀.read q ∧ h.frees q = h₀.frees q
  fresh : ∀ q ∈ live, h₀.next ≤ q ∧ h.read q ≠ none
  freed : ∀ q, h₀.next ≤ q → q < h.next → q ∉ live → h.read q = none ∧ h.frees q = 1

theorem Since.refl (h : Heap β) : Since h h [] := by
  refine ⟨le_rfl, fun q _ => ⟨rfl, rfl⟩, by simp, ?_⟩
  intro q hq hlt
  omega

theorem Since.alloc {h₀ h : Heap β} {live : List ℕ} (hs : Since h₀ h live) (c : β) :
    Since h₀ (h.alloc c) (h.next :: live) := by
  have hlater := hs.later
  refine ⟨?_, ?_, ?_, ?_⟩
  · rw [next_alloc]
    omega
  · intro q hq
    rw [read_alloc, if_neg (by omega), frees_alloc]
    exact hs.old q hq
  · intro q hq
    rw [read_alloc]
    rcases List.mem_cons.mp hq with hq | hq
    · rw [hq, if_pos rfl]
      exact ⟨hlater, by simp⟩
    · refine ⟨(hs.fresh q hq).1, ?_⟩
      split
      · simp
      · exact (hs.fresh q hq).2
  · intro q hq hlt hnot
    rw [List.mem_cons, not_or] at hnot
    rw [next_alloc] at hlt
    rw [read_alloc, if_neg hnot.1, frees_alloc]
    exact hs.freed q hq (by omega) hnot.2

theorem Since.store {h₀ h : Heap β} {live : List ℕ} (hs : Since h₀ h live) {p : ℕ}
    (hp : p ∈ live) (c : β) : Since h₀ (h.store p c) live := by
  have hfresh := (hs.fresh p hp).1
  refine ⟨?_, ?_, ?_, ?_⟩
  · rw [next_store]
    exact hs.later
  · intro q hq
    rw [read_store, if_neg (by omega), frees_store]
    exact hs.old q hq
  · intro q hq
    refine ⟨(hs.fresh q hq).1, ?_⟩
    rw [read_store]
    split
    · simpa using (hs.fresh p hp).2
    · exact (hs.fresh q hq).2
  · intro q hq hlt hnot
    rw [next_store] at hlt
    have hne : q ≠ p := fun h => hnot (h ▸ hp)
    rw [read_store, if_neg hne, frees_store]
    exact hs.freed q hq hlt hnot

theorem Since.release {h₀ h : Heap β} {live : List ℕ} {p : ℕ} (hs : Since h₀ h (p :: live))
    (hp : p ∉ live) : Since h₀ (h.release p) live := by
  obtain ⟨hfresh, hlive⟩ := hs.fresh p List.mem_cons_self
  obtain ⟨c, hc⟩ := Option.ne_none_iff_exists'.mp hlive
  have hfrees := frees_release hc
  refine ⟨?_, ?_, ?_, ?_⟩
  · rw [next_release]
    exact hs.later
  · intro q hq
    rw [read_release, if_neg (by omega), hfrees, if_neg (by omega)]
    exact hs.old q hq
  · intro q hq
    have hne : q ≠ p := fun h => hp (h ▸ hq)
    rw [read_release, if_neg hne]
    exact hs.fresh q (List.mem_cons_of_mem p hq)
  · intro q hq hlt hnot
    rw [next_release] at hlt
    rw [read_release, hfrees]
    split
    · exact ⟨rfl, rfl⟩
    · rename_i hne
      refine hs.freed q hq hlt ?_
      rw [List.mem_cons, not_or]
      exact ⟨hne, hnot⟩

theorem Since.perm {h₀ h : Heap β} {live live' : List ℕ} (hs : Since h₀ h live)
    (hl : live.Perm live') : Since h₀ h live' :=
  ⟨hs.later, hs.old, fun q hq => hs.fresh q (hl.mem_iff.mpr hq),
    fun q hq hlt hnot => hs.freed q hq hlt fun h => hnot (hl.mem_iff.mp h)⟩

theorem Since.trans {h₀ h h' : Heap β} {live live' : List ℕ} (hs : Since h₀ h live)
    (hs' : Since h h' live') : Since h₀ h' (live' ++ live) := by
  have hlater := hs.later
  refine ⟨hlater.trans hs'.later, fun q hq => ?_, fun q hq => ?_, fun q hq hlt hnot => ?_⟩
  · obtain ⟨hread, hfrees⟩ := hs'.old q (by omega)
    rw [hread, hfrees]
    exact hs.old q hq
  · rcases List.mem_append.mp hq with hq | hq
    · obtain ⟨hge, hlive⟩ := hs'.fresh q hq
      exact ⟨hlater.trans hge, hlive⟩
    · obtain ⟨hge, hlive⟩ := hs.fresh q hq
      obtain ⟨c, hc⟩ := Option.ne_none_iff_exists'.mp hlive
      refine ⟨hge, ?_⟩
      rw [(hs'.old q (lt_next_of_read hc)).1]
      exact hlive
  · rw [List.mem_append, not_or] at hnot
    by_cases hmid : q < h.next
    · obtain ⟨hread, hfrees⟩ := hs'.old q hmid
      rw [hread, hfrees]
      exact hs.freed q hq hmid hnot.2
    · exact hs'.freed q (by omega) hlt hnot.1

/-- All other blocks are what they were. -/
theorem Since.read_rest {h₀ h : Heap β} {live : List ℕ} (hs : Since h₀ h live) {q : ℕ}
    (hq : q ∉ live) : h.read q = h₀.read q := by
  by_cases hold : q < h₀.next
  · exact (hs.old q hold).1
  · have hnone : h₀.read q = none := by
      by_contra hlive
      obtain ⟨c, hc⟩ := Option.ne_none_iff_exists'.mp hlive
      exact hold (lt_next_of_read hc)
    rw [hnone]
    by_contra hlive
    obtain ⟨c, hc⟩ := Option.ne_none_iff_exists'.mp hlive
    exact hlive (hs.freed q (Nat.le_of_not_lt hold) (lt_next_of_read hc) hq).1

theorem Since.nodup {h₀ h h' : Heap β} {live live' : List ℕ} (hs : Since h₀ h live)
    (hs' : Since h h' live') (hl : live.Nodup) (hl' : live'.Nodup) : (live' ++ live).Nodup := by
  refine List.nodup_append.mpr ⟨hl', hl, fun q hq r hr heq => ?_⟩
  obtain ⟨c, hc⟩ := Option.ne_none_iff_exists'.mp (hs.fresh r hr).2
  have hlt := lt_next_of_read hc
  have hge := (hs'.fresh q hq).1
  omega

/-! ### Arrays -/

/-- The answer to a request, and what the elements nobody wrote hold. -/
structure Answer (α : Type) where
  granted : Bool
  junk : ℕ → α

def Answer.grants (a : Answer α) (size : ℕ) : Bool := a.granted && decide (size ≤ ptrdiffMax)

/-- The first `n` elements of a block that was resized to `n`. -/
def resized (old : List α) (n : ℕ) (junk : ℕ → α) : List α :=
  (List.range n).map fun i => old[i]?.getD (junk i)

/-- A block of `n` elements, from a request for `size` bytes. -/
def malloc (h : Heap (List α)) (size n : ℕ) (a : Answer α) : Option ℕ × Heap (List α) :=
  if a.grants size then (some h.next, h.alloc (resized [] n a.junk)) else (none, h)

def realloc (h : Heap (List α)) (p size n : ℕ) (a : Answer α) :
    Option (Option ℕ × Heap (List α)) :=
  (h.read p).map fun old =>
    if a.grants size then (some h.next, (h.release p).alloc (resized old n a.junk)) else (none, h)

/-- `realloc`, which takes a null pointer too. -/
def resize (h : Heap (List α)) (p : Option ℕ) (size n : ℕ) (a : Answer α) :
    Option (Option ℕ × Heap (List α)) :=
  match p with
  | none => some (h.malloc size n a)
  | some p => h.realloc p size n a

/-- `memcpy` of `v` to index `i` of a block. -/
def copyIn (h : Heap (List α)) (p i : ℕ) (v : List α) : Option (Heap (List α)) :=
  (h.read p).bind fun b => (blit b i v).bind fun b => h.write p b

@[simp] theorem length_resized (old : List α) (n : ℕ) (junk : ℕ → α) :
    (resized old n junk).length = n := by
  simp [resized]

theorem getElem?_resized (old : List α) {n : ℕ} (junk : ℕ → α) {i : ℕ} (hi : i < n) :
    (resized old n junk)[i]? = some (old[i]?.getD (junk i)) := by
  simp [resized, hi]

theorem take_resized {old : List α} {n k : ℕ} (junk : ℕ → α) (hold : k ≤ old.length) (hn : k ≤ n) :
    (resized old n junk).take k = old.take k := by
  apply List.ext_getElem?
  intro i
  simp only [List.getElem?_take]
  split
  · rename_i hi
    have hlt : i < old.length := by omega
    rw [getElem?_resized old junk (by omega), List.getElem?_eq_getElem hlt]
    rfl
  · rfl

theorem copyIn_eq {h : Heap (List α)} {p i : ℕ} {b v : List α} (hp : h.read p = some b)
    (hi : i + v.length ≤ b.length) :
    h.copyIn p i v = some (h.store p (overwritten b i v)) := by
  simp only [copyIn, hp, Option.bind_some, blit_eq hi]
  exact write_eq hp _

theorem copyIn_lengths {h h' : Heap (List α)} {p i : ℕ} {v : List α}
    (hc : h.copyIn p i v = some h') (q : ℕ) :
    (h'.read q).map List.length = (h.read q).map List.length := by
  obtain ⟨b, hb, hc⟩ := Option.bind_eq_some_iff.mp hc
  obtain ⟨b', hblit, hc⟩ := Option.bind_eq_some_iff.mp hc
  have hi : i + v.length ≤ b.length := by
    by_contra hover
    rw [blit, if_neg hover] at hblit
    cases hblit
  rw [blit_eq hi] at hblit
  cases hblit
  rw [write_eq hb] at hc
  cases hc
  rw [read_store]
  split
  · rename_i hq
    rw [hq, hb, Option.map_some, Option.map_some, Option.map_some, length_overwritten hi]
  · rfl

theorem next_copyIn {h h' : Heap (List α)} {p i : ℕ} {v : List α} (hc : h.copyIn p i v = some h') :
    h'.next = h.next := by
  obtain ⟨b, -, hc⟩ := Option.bind_eq_some_iff.mp hc
  obtain ⟨b', -, hc⟩ := Option.bind_eq_some_iff.mp hc
  obtain ⟨c, -, rfl⟩ := Option.map_eq_some_iff.mp hc
  exact next_store h p b'

/-- The array at a pointer that may be null. -/
inductive Holds (h : Heap (List α)) (p : Option ℕ) : List α → Prop where
  | null (hp : p = none) : Holds h p []
  | block (q : ℕ) (b : List α) (hp : p = some q) (hr : h.read q = some b) : Holds h p b

/-- The array is the only live block made since `h₀`, and is again afterwards. -/
theorem Since.resize {h₀ h : Heap (List α)} {p : Option ℕ} {b : List α}
    (hs : Since h₀ h p.toList) (hb : h.Holds p b) (size n : ℕ) (a : Answer α) :
    ∃ h', h.resize p size n a = some (if a.grants size then (some h.next, h') else (none, h)) ∧
      Since h₀ h' [h.next] ∧ h'.read h.next = some (resized b n a.junk) := by
  cases hb with
  | null hp =>
    subst hp
    refine ⟨h.alloc (resized [] n a.junk), rfl, hs.alloc _, ?_⟩
    rw [read_alloc, if_pos rfl]
  | block q b hp hr =>
    subst hp
    have hgone : Since h₀ (h.release q) [] := hs.release (by simp)
    have hnext : (h.release q).next = h.next := next_release h q
    refine ⟨(h.release q).alloc (resized b n a.junk), ?_, ?_, ?_⟩
    · simp only [Heap.resize, realloc, hr, Option.map_some]
    · rw [← hnext]
      exact hgone.alloc _
    · rw [read_alloc, hnext, if_pos rfl]

end Heap

end LibcOverride

import LibcOverride.MockAllocator.Clients

/-!
# vasprintf and asprintf
(src/stdio_overrides.c:5-36)

The text is rendered twice, to measure it and to write it, and nothing makes the two
renderings agree. The strings of all calls live in one heap. `none` is an access
outside a live block.
-/

namespace LibcOverride.Strings
open Buffer Heap
open Clients (Sizes Uses)
open MockAllocator (State Ledger Loader BlockMap Placement Provided ServedTo)

/-- What a rendering comes to: a text that an `int` can measure, or a negative result
after some of it. -/
inductive Rendering where
  | text (bytes : List UInt8) (short : bytes.length < 2 ^ 31)
  | failure (partly : List UInt8) (result : { r : ℤ // r < 0 })

/-- What `vsnprintf` returns. -/
def Rendering.result : Rendering → ℤ
  | .text bytes _ => bytes.length
  | .failure _ r => r

/-- What `vsnprintf` stores if it may store `n` bytes. -/
def Rendering.stored (n : ℕ) : Rendering → List UInt8
  | .text bytes _ => if n = 0 then [] else bytes.take (n - 1) ++ [0]
  | .failure partly _ => partly.take n

namespace Printf

/-- `s` is what the last call left in `*s`, and `asked` records the calls of the
allocator. -/
structure World where
  heap : Heap (List UInt8)
  s : Option ℕ
  asked : List (Clients.Op ℕ)
  deriving Repr, DecidableEq

/-- `measured` and `written` are the renderings of the two calls of `vsnprintf`. -/
def vasprintf (measured written : Rendering) (a : Answer UInt8) (w : World) : Option (ℤ × World) :=
  let len := measured.result
  if len < 0 then some (-1, w)
  else
    let size := Word.add len.toNat 1
    let r := w.heap.malloc size size a
    let asked := w.asked ++ [.malloc w.heap.next size r.1.isSome]
    match r.1 with
    | none => some (-1, { w with heap := r.2, s := none, asked })
    | some p => do
      let heap ← r.2.copyIn p 0 (written.stored size)
      some (written.result, { w with heap, s := some p, asked })

def asprintf (measured written : Rendering) (a : Answer UInt8) (w : World) : Option (ℤ × World) :=
  vasprintf measured written a w

def World.sizes (w : World) : Sizes ℕ := Clients.sizes 1 w.heap

/-- A string that a call returned: a block of `size` bytes that begins with as much
of the text as fits, and a terminator. -/
structure Kept where
  ptr : ℕ
  size : ℕ
  text : List UInt8

def Kept.Holds (k : Kept) (h : Heap (List UInt8)) : Prop :=
  ∃ b, h.read k.ptr = some b ∧ b.length = k.size ∧ k.text.take (k.size - 1) ++ [0] <+: b

/-- The caller has the string if the call returned its length. -/
def World.returned (measured written : Rendering) (w : World) : List Kept :=
  match measured, written with
  | .text m _, .text bytes _ => w.s.toList.map fun p => ⟨p, m.length + 1, bytes⟩
  | _, _ => []

/-- A block that was made by a call which returned a negative number. -/
def World.lost (measured written : Rendering) (w : World) : List ℕ :=
  match measured, written with
  | .text _ _, .failure _ _ => w.s.toList
  | _, _ => []

/-- The blocks made since `w`: the strings `kept`, and those that were `lost`. -/
structure Left (w w' : World) (kept : List Kept) (lost : List ℕ) : Prop where
  blocks : Since w.heap w'.heap (kept.map Kept.ptr ++ lost)
  apart : (kept.map Kept.ptr ++ lost).Nodup
  texts : ∀ k ∈ kept, k.Holds w'.heap

/-- What is recorded between the two worlds is what was done to the blocks. -/
def Allocates (w w' : World) : Prop :=
  ∃ ops, w'.asked = w.asked ++ ops ∧ Uses w.sizes ops w'.sizes

/-! ### One call -/

variable {w w₁ w' : World} {measured written : Rendering} {a : Answer UInt8}

theorem left_nothing (h : w'.heap = w.heap) : Left w w' [] [] := by
  refine ⟨?_, List.nodup_nil, fun k hk => nomatch hk⟩
  rw [h]
  exact .refl _

/-- Whatever the second rendering is, it fits the block that the first one measured. -/
theorem stored_fits (written : Rendering) (n : ℕ) : (written.stored n).length ≤ n := by
  cases written with
  | text bytes short =>
    simp only [Rendering.stored]
    split
    · exact Nat.zero_le n
    · simp only [List.length_append, List.length_take, List.length_singleton]
      omega
  | failure partly result => exact List.length_take_le n partly

/-- The block of a call that got one. -/
theorem made_left {p n : ℕ} {b : List UInt8} (hp : p = w.heap.next) (hb : b.length = n + 1)
    (hheap : w'.heap = w.heap.alloc b) (hs : w'.s = some p) {m : List UInt8} {hm : m.length < 2 ^ 31}
    (hn : m.length = n) (hfront : ∀ bytes h, written = .text bytes h → bytes.take n ++ [0] <+: b) :
    Left w w' (w'.returned (.text m hm) written) (w'.lost (.text m hm) written) := by
  have hsince := (Since.refl w.heap).alloc b
  rw [← hheap, ← hp] at hsince
  cases written with
  | text bytes short =>
    have hkept : w'.returned (.text m hm) (.text bytes short) = [⟨p, n + 1, bytes⟩] := by
      rw [World.returned, hs, hn]
      rfl
    rw [hkept]
    refine ⟨hsince, List.nodup_singleton p, fun k hk => ?_⟩
    rw [List.mem_singleton.mp hk]
    refine ⟨b, ?_, hb, hfront bytes short rfl⟩
    change w'.heap.read p = some b
    rw [hheap, read_alloc, if_pos hp]
  | failure partly result =>
    have hlost : w'.lost (.text m hm) (.failure partly result) = [p] := by
      rw [World.lost, hs]
      rfl
    rw [hlost]
    exact ⟨hsince, List.nodup_singleton p, fun k hk => nomatch hk⟩

/-- Every call stays within its block. -/
theorem vasprintf_spec (measured written : Rendering) (a : Answer UInt8) (w : World) :
    ∃ r w', vasprintf measured written a w = some (r, w') ∧
      Left w w' (w'.returned measured written) (w'.lost measured written) ∧ Allocates w w' := by
  cases measured with
  | failure partly result =>
    refine ⟨-1, w, if_pos result.2, ?_, [], (List.append_nil _).symm, .nil⟩
    cases written <;> exact left_nothing rfl
  | text m hm =>
    have hlen : ¬(Rendering.text m hm).result < 0 := by
      simp [Rendering.result]
    have hsize : Word.add (Rendering.text m hm).result.toNat 1 = m.length + 1 := by
      apply Nat.mod_eq_of_lt
      simp only [Rendering.result, Int.toNat_natCast]
      omega
    simp only [vasprintf, if_neg hlen, hsize]
    cases hgrant : a.grants (m.length + 1) with
    | false =>
      have hmalloc : w.heap.malloc (m.length + 1) (m.length + 1) a = (none, w.heap) := by
        rw [Heap.malloc, hgrant]
        rfl
      have hstep := Clients.malloc_step (Nat.mul_one _).symm hmalloc
      rw [hmalloc]
      refine ⟨-1, _, rfl, ?_, [_], rfl, .one hstep⟩
      cases written <;> exact left_nothing rfl
    | true =>
      have hmalloc : w.heap.malloc (m.length + 1) (m.length + 1) a =
          (some w.heap.next, w.heap.alloc (resized [] (m.length + 1) a.junk)) := by
        rw [Heap.malloc, hgrant]
        rfl
      have hstep := Clients.malloc_step (Nat.mul_one _).symm hmalloc
      have hfit : 0 + (written.stored (m.length + 1)).length ≤
          (resized ([] : List UInt8) (m.length + 1) a.junk).length := by
        rw [length_resized, Nat.zero_add]
        exact stored_fits written _
      have hread : (w.heap.alloc (resized [] (m.length + 1) a.junk)).read w.heap.next =
          some (resized [] (m.length + 1) a.junk) := by
        rw [read_alloc, if_pos rfl]
      have hcopy := copyIn_eq hread hfit
      rw [hmalloc]
      simp only [hcopy, Option.bind_eq_bind, Option.bind_some]
      refine ⟨_, _, rfl, ?_, [.malloc w.heap.next (m.length + 1) true], rfl, .one ?_⟩
      · refine made_left rfl ?_ (store_alloc ..) rfl rfl ?_
        · rw [length_overwritten hfit, length_resized]
        · rintro bytes short rfl
          exact List.prefix_append _ _
      · rw [← Clients.sizes_copyIn hcopy] at hstep
        exact hstep

/-! ### Calls one after the other -/

/-- Calls of both functions. Between them the caller frees strings that it was given,
in any order; `kept` are those that it still has. -/
inductive Session (w : World) : List Kept → List ℕ → World → Prop where
  | start : Session w [] [] w
  | call {kept : List Kept} {lost : List ℕ} {w₁ w₂ : World} {r : ℤ} (h : Session w kept lost w₁)
      (measured written : Rendering) (a : Answer UInt8)
      (hrun : vasprintf measured written a w₁ = some (r, w₂)) :
      Session w (w₂.returned measured written ++ kept) (w₂.lost measured written ++ lost) w₂
  | free {k : Kept} {kept kept' : List Kept} {lost : List ℕ} {w₁ : World} {heap : Heap (List UInt8)}
      (h : Session w kept lost w₁) (hp : kept.Perm (k :: kept'))
      (hfree : w₁.heap.free k.ptr = some heap) :
      Session w kept' lost { w₁ with heap, asked := w₁.asked ++ [.free k.ptr] }

variable {kept kept' : List Kept} {lost lost' : List ℕ}

theorem allocates_same (hheap : w'.heap = w.heap) (hasked : w'.asked = w.asked) :
    Allocates w w' := by
  refine ⟨[], by rw [hasked, List.append_nil], ?_⟩
  rw [World.sizes, World.sizes, hheap]
  exact .nil

theorem Allocates.trans (h : Allocates w w₁) (h' : Allocates w₁ w') : Allocates w w' := by
  obtain ⟨ops, hasked, huses⟩ := h
  obtain ⟨ops', hasked', huses'⟩ := h'
  exact ⟨ops ++ ops', by rw [hasked', hasked, List.append_assoc], huses.append huses'⟩

theorem free_allocates {p : ℕ} {heap : Heap (List UInt8)} (h : w.heap.free p = some heap) :
    Allocates w { w with heap, asked := w.asked ++ [.free p] } :=
  ⟨[.free p], rfl, .one (Clients.free_step h)⟩

theorem Left.trans (h : Left w w₁ kept lost) (h' : Left w₁ w' kept' lost') :
    Left w w' (kept' ++ kept) (lost' ++ lost) := by
  have hperm : ((kept'.map Kept.ptr ++ lost') ++ (kept.map Kept.ptr ++ lost)).Perm
      ((kept' ++ kept).map Kept.ptr ++ (lost' ++ lost)) := by
    rw [List.map_append, List.append_assoc, List.append_assoc]
    refine List.Perm.append_left _ ?_
    rw [← List.append_assoc, ← List.append_assoc]
    exact List.perm_append_comm.append_right lost
  have hblocks := h.blocks.trans h'.blocks
  have hapart := h.blocks.nodup h'.blocks h.apart h'.apart
  refine ⟨hblocks.perm hperm, hperm.nodup_iff.mp hapart, fun k hk => ?_⟩
  rcases List.mem_append.mp hk with hk | hk
  · exact h'.texts k hk
  · obtain ⟨b, hread, hb⟩ := h.texts k hk
    refine ⟨b, ?_, hb⟩
    rw [(h'.blocks.old k.ptr (lt_next_of_read hread)).1]
    exact hread

theorem Left.free {k : Kept} (h : Left w w₁ kept lost) (hp : kept.Perm (k :: kept'))
    (hheap : w'.heap = w₁.heap.release k.ptr) : Left w w' kept' lost := by
  have hperm : (kept.map Kept.ptr ++ lost).Perm (k.ptr :: (kept'.map Kept.ptr ++ lost)) :=
    (hp.map Kept.ptr).append_right lost
  obtain ⟨hnot, hapart⟩ := List.nodup_cons.mp (hperm.nodup_iff.mp h.apart)
  refine ⟨?_, hapart, fun j hj => ?_⟩
  · rw [hheap]
    exact (h.blocks.perm hperm).release hnot
  have hne : j.ptr ≠ k.ptr := fun heq =>
    hnot (heq ▸ List.mem_append_left lost (List.mem_map_of_mem hj))
  obtain ⟨b, hread, hb⟩ := h.texts j (hp.mem_iff.mpr (List.mem_cons_of_mem k hj))
  refine ⟨b, ?_, hb⟩
  rw [hheap, read_release, if_neg hne]
  exact hread

end Printf

end LibcOverride.Strings

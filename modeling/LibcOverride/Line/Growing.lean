import LibcOverride.Line.Getdelim

/-!
# The line buffer
(src/line_overrides.c:6-36, 55-60)

What the caller's pointer and size say about the heap, and what growing does.
-/

namespace LibcOverride.Line
open Buffer

/-- `*s` is null and `*n` is 0, or `*s` is a block of at least `*n` bytes; the
bytes are `b`. -/
inductive Held (w : World) : List UInt8 → Prop where
  | null (hs : w.s = none) (hn : w.n = 0) : Held w []
  | block (p : ℕ) (b : List UInt8) (hs : w.s = some p) (hr : w.heap.read p = some b)
    (hn : w.n ≤ b.length) (hb : b.length ≤ ptrdiffMax) : Held w b

/-- The bytes at `*s`. -/
def World.bytes (w : World) : List UInt8 := (w.s.bind w.heap.read).getD []

/-- The buffer of a call that began at `w₀`. It has exactly `*n` bytes unless it
is still the caller's, and of the blocks made since then no other is live. -/
structure Buffered (w₀ w : World) (b : List UInt8) : Prop where
  held : Held w b
  exact : b.length = w.n ∨ w.s = w₀.s ∧ w.n = w₀.n
  mine : ∀ q c, w₀.heap.next ≤ q → w.heap.read q = some c → w.s = some q
  others : ∀ q, q < w₀.heap.next → w₀.s ≠ some q → w.heap.read q = w₀.heap.read q
  old : ∀ q, w₀.s = some q → w.s = some q ∨ w.heap.read q = none ∧ w.heap.frees q = 1
  later : w₀.heap.next ≤ w.heap.next
  fresh : ∀ q, w.s = some q → w₀.s = some q ∨ w₀.heap.next ≤ q
  caller : ∀ q, w₀.s = some q → q < w₀.heap.next

/-- The capacity a growth reaches; `k` requests were made before. -/
def growth (env : Env) (k length : ℕ) : Option ℕ :=
  if (env k).grants (newCapacity length) then some (newCapacity length)
  else if (env (k + 1)).grants (minCapacity length) then some (minCapacity length)
  else none

/-- The requests of a growth. -/
def requests (env : Env) (k length : ℕ) : List Request :=
  if (env k).grants (newCapacity length) then [⟨newCapacity length, false, true⟩]
  else [⟨newCapacity length, false, false⟩,
    ⟨minCapacity length, true, (env (k + 1)).grants (minCapacity length)⟩]

/-- The heap without the old buffer. -/
def dropped (w : World) : Heap (List UInt8) :=
  match w.s with
  | none => w.heap
  | some p => w.heap.release p

/-- The buffer is now a new block that holds `b`. -/
def World.rebased (w : World) (b : List UInt8) (rs : List Request) : World :=
  { w with
    heap := (dropped w).alloc b
    s := some w.heap.next
    n := b.length
    asked := w.asked ++ rs }

theorem Held.of_eq {w w' : World} {b : List UInt8} (hw : Held w b) (hheap : w'.heap = w.heap)
    (hs : w'.s = w.s) (hn : w'.n = w.n) : Held w' b := by
  cases hw with
  | null h0 h1 => exact .null (hs.trans h0) (hn.trans h1)
  | block p b h0 hr h1 hb => exact .block p b (hs.trans h0) (hheap ▸ hr) (hn ▸ h1) hb

theorem Held.bytes {w : World} {b : List UInt8} (hw : Held w b) : w.bytes = b := by
  cases hw with
  | null hs hn => simp [World.bytes, hs]
  | block p b hs hr hn hb => simp [World.bytes, hs, hr]

theorem request_eq {w : World} {b : List UInt8} (hw : Held w b) (env : Env) (size : ℕ)
    (fallback : Bool) :
    request env w size fallback = some (if (env w.asked.length).grants size then
      (some w.heap.next,
        { w with
          heap := (dropped w).alloc (Heap.resized b size (env w.asked.length).junk)
          asked := w.asked ++ [⟨size, fallback, true⟩] })
      else (none, { w with asked := w.asked ++ [⟨size, fallback, false⟩] })) := by
  cases hw with
  | null hs hn =>
    simp only [request, Heap.resize, hs, Heap.malloc, dropped, Option.map_some]
    split <;> rfl
  | block p b hs hr hn hb =>
    simp only [request, Heap.resize, hs, Heap.realloc, hr, dropped, Option.map_some]
    split <;> rfl

theorem grow_some {w : World} {b : List UInt8} (hw : Held w b) {env : Env} {length c : ℕ}
    (hlen : length ≤ Word.sizeMax - 2) (hg : growth env w.asked.length length = some c) :
    ∃ junk, aoGrowLineBuffer env w length =
      some (true, w.rebased (Heap.resized b c junk) (requests env w.asked.length length)) := by
  simp only [growth] at hg
  have hheld : Held { w with asked := w.asked ++ [⟨newCapacity length, false, false⟩] } b :=
    hw.of_eq rfl rfl rfl
  simp only [aoGrowLineBuffer, if_neg (Nat.not_lt.mpr hlen), request_eq hw, requests]
  split at hg
  · rename_i h1
    cases hg
    refine ⟨(env w.asked.length).junk, ?_⟩
    simp [h1, World.rebased]
  · rename_i h1
    split at hg
    · rename_i h2
      cases hg
      refine ⟨(env (w.asked.length + 1)).junk, ?_⟩
      simp [h1, h2, World.rebased, request_eq hheld, dropped]
    · cases hg

theorem grow_none {w : World} {b : List UInt8} (hw : Held w b) {env : Env} {length : ℕ}
    (hlen : length ≤ Word.sizeMax - 2) (hg : growth env w.asked.length length = none) :
    aoGrowLineBuffer env w length = some (false, { w with
      errno := .enomem
      asked := w.asked ++ [⟨newCapacity length, false, false⟩, ⟨minCapacity length, true, false⟩] }) := by
  simp only [growth] at hg
  have hheld : Held { w with asked := w.asked ++ [⟨newCapacity length, false, false⟩] } b :=
    hw.of_eq rfl rfl rfl
  simp only [aoGrowLineBuffer, if_neg (Nat.not_lt.mpr hlen), request_eq hw]
  split at hg
  · cases hg
  · rename_i h1
    split at hg
    · cases hg
    · rename_i h2
      simp [h1, h2, request_eq hheld]

theorem growth_bounds {env : Env} {k length c : ℕ} (hg : growth env k length = some c) :
    length + 2 ≤ c ∧ c ≤ ptrdiffMax := by
  have hmin : length + 2 ≤ newCapacity length := by
    unfold newCapacity minCapacity
    split <;> omega
  simp only [growth] at hg
  split at hg
  · rename_i h1
    cases hg
    simp only [Heap.Answer.grants, Bool.and_eq_true, decide_eq_true_eq] at h1
    exact ⟨hmin, h1.2⟩
  · split at hg
    · rename_i h2
      cases hg
      simp only [Heap.Answer.grants, Bool.and_eq_true, decide_eq_true_eq] at h2
      exact ⟨le_rfl, h2.2⟩
    · cases hg

/-- A growth that succeeds had no refused fallback. -/
theorem requests_granted {env : Env} {k length c : ℕ} (hg : growth env k length = some c) :
    ∀ r ∈ requests env k length, r.fallback = true → r.granted = true := by
  intro r hr hf
  simp only [growth] at hg
  simp only [requests] at hr
  split at hr
  · rw [List.mem_singleton.mp hr]
  · rename_i h1
    rw [if_neg h1] at hg
    split at hg
    · rename_i h2
      simp only [List.mem_cons, List.not_mem_nil, or_false] at hr
      rcases hr with hr | hr
      · rw [hr] at hf
        cases hf
      · rw [hr]
        exact h2
    · cases hg

/-- Only the heap, `*s` and `*n` matter. -/
theorem Buffered.of_eq {w₀ w w' : World} {b : List UInt8} (hw : Buffered w₀ w b)
    (hheap : w'.heap = w.heap) (hs : w'.s = w.s) (hn : w'.n = w.n) : Buffered w₀ w' b := by
  refine ⟨hw.held.of_eq hheap hs hn, ?_, ?_, ?_, ?_, ?_, ?_, hw.caller⟩
  · rw [hs, hn]
    exact hw.exact
  · rw [hheap, hs]
    exact hw.mine
  · rw [hheap]
    exact hw.others
  · rw [hheap, hs]
    exact hw.old
  · rw [hheap]
    exact hw.later
  · rw [hs]
    exact hw.fresh

theorem Held.lt_next {w : World} {b : List UInt8} (hw : Held w b) {p : ℕ} (hp : w.s = some p) :
    p < w.heap.next := by
  cases hw with
  | null hs hn =>
    rw [hs] at hp
    cases hp
  | block q b hs hr hn hb =>
    rw [hs] at hp
    cases hp
    exact Heap.lt_next_of_read hr

theorem read_rebased (w : World) (b : List UInt8) (rs : List Request) (q : ℕ) :
    (w.rebased b rs).heap.read q =
      if q = w.heap.next then some b else if w.s = some q then none else w.heap.read q := by
  have hnext : (dropped w).next = w.heap.next := by
    unfold dropped
    split <;> simp
  simp only [World.rebased, Heap.read_alloc, hnext]
  split
  · rfl
  · unfold dropped
    split
    · rename_i hs
      simp [hs]
    · rename_i p hs
      rw [Heap.read_release, hs]
      simp only [Option.some.injEq, eq_comm (a := p)]

theorem frees_rebased {w : World} {b : List UInt8} (hw : Held w b) (b' : List UInt8)
    (rs : List Request) (q : ℕ) :
    (w.rebased b' rs).heap.frees q = if w.s = some q then 1 else w.heap.frees q := by
  simp only [World.rebased, Heap.frees_alloc, dropped]
  cases hw with
  | null hs hn => simp [hs]
  | block p b hs hr hn hb =>
    rw [hs]
    simp only [Heap.frees_release hr, Option.some.injEq, eq_comm (a := p)]

theorem next_rebased (w : World) (b : List UInt8) (rs : List Request) :
    (w.rebased b rs).heap.next = w.heap.next + 1 := by
  simp only [World.rebased, Heap.next_alloc, dropped]
  split <;> simp

theorem Buffered.rebased {w₀ w : World} {b : List UInt8} (hw : Buffered w₀ w b) {b' : List UInt8}
    (hb : b'.length ≤ ptrdiffMax) (rs : List Request) : Buffered w₀ (w.rebased b' rs) b' := by
  have hlater := hw.later
  have hread := read_rebased w b' rs
  have hfrees := frees_rebased hw.held b' rs
  refine ⟨?_, Or.inl rfl, ?_, ?_, ?_, ?_, ?_, hw.caller⟩
  · refine .block w.heap.next b' rfl ?_ le_rfl hb
    rw [hread, if_pos rfl]
  · intro q c hq hr
    rw [hread] at hr
    split at hr
    · rename_i heq
      rw [heq]
      rfl
    · split at hr
      · cases hr
      · rename_i hne
        exact absurd (hw.mine q c hq hr) hne
  · intro q hq hne
    rw [hread, if_neg (by omega)]
    split
    · rename_i hs
      rcases hw.fresh q hs with h | h
      · exact absurd h hne
      · omega
    · exact hw.others q hq hne
  · intro q hq
    have hlt := hw.caller q hq
    rw [hread, hfrees, if_neg (by omega)]
    refine Or.inr ?_
    split
    · exact ⟨rfl, rfl⟩
    · rename_i hne
      exact (hw.old q hq).resolve_left hne
  · rw [next_rebased]
    omega
  · intro q hq
    cases hq
    exact Or.inr hlater

end LibcOverride.Line

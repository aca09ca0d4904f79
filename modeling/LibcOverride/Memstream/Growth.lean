import LibcOverride.Memstream.Streams

/-!
# What growing does
(src/memstream_overrides.c:28-66, 118-161)

`cap` bounds positions and space of a stream: `SSIZE_MAX` for the narrow one
and `max_chars` for the wide one. `b` is what the buffer holds.
-/

namespace LibcOverride.Memstream
open Buffer

variable {α σ : Type}

structure Sound [Zero α] (cap : ℕ) (s : Stream α σ) (b : List α) : Prop where
  pos : s.cookie.pos ≤ cap
  space : s.cookie.space ≤ cap
  len : s.cookie.len < b.length
  size : b.length = max 1 s.cookie.space
  fresh : s.cookie.space = 0 → b = [0]
  read : s.heap.read s.cookie.buf = some b
  bufp : s.bufp = some s.cookie.buf
  self : (s.heap.read s.self).isSome
  apart : s.self ≠ s.cookie.buf

/-- `len` elements and the terminator fit, or the allocator makes them fit. -/
def Room (cap : ℕ) (s : Stream α σ) (len : ℕ) (a : Heap.Answer α) : Prop :=
  s.cookie.pos + len + 1 ≤ s.cookie.space ∨
    a.granted = true ∧ newSpace s.cookie.space (s.cookie.pos + len + 1) ≤ cap

instance (cap : ℕ) (s : Stream α σ) (len : ℕ) (a : Heap.Answer α) : Decidable (Room cap s len a) :=
  inferInstanceAs (Decidable (_ ∨ _ ∧ _))

/-- The stream after its buffer became a new block that holds `b`. -/
def Stream.rebased (s : Stream α σ) (b : List α) : Stream α σ :=
  s.moved ((s.heap.release s.cookie.buf).alloc b) s.heap.next b.length

/-- What a grow that succeeds leaves. -/
inductive Grown [Zero α] (cap : ℕ) (s : Stream α σ) (b : List α) (required : ℕ) :
    Stream α σ → List α → Prop where
  | kept (h : required ≤ s.cookie.space) : Grown cap s b required s b
  | moved (k : ℕ) (hr : required ≤ b.length + k) (hc : b.length + k ≤ cap) :
    Grown cap s b required (s.rebased (b ++ List.replicate k 0)) (b ++ List.replicate k 0)

theorem required_le_newSpace (space required : ℕ) : required ≤ newSpace space required := by
  simp only [newSpace]
  generalize _ ||| required = grown
  split <;> omega

theorem space_lt_newSpace {space required : ℕ} (h : space < required) :
    space < newSpace space required :=
  Nat.lt_of_lt_of_le h (required_le_newSpace space required)

theorem newSpace_lt (space : ℕ) {required : ℕ} (hr : required < 2 ^ 64) :
    newSpace space required < 2 ^ 64 := by
  have hd : (if space > (Word.sizeMax - 1) / 2 then Word.sizeMax else 2 * space + 1) < 2 ^ 64 := by
    simp only [Word.sizeMax]
    split <;> omega
  have ho := Nat.or_lt_two_pow hd hr
  simp only [newSpace]
  generalize _ ||| required = grown at ho ⊢
  split <;> omega

/-- The old elements of a block that was resized and cleared from its space on. -/
theorem overwritten_resized [Zero α] {b : List α} {space n : ℕ} (junk : ℕ → α)
    (hsize : b.length = max 1 space) (hfresh : space = 0 → b = [0]) (hn : space < n) :
    overwritten (Heap.resized b n junk) space (List.replicate (n - space) 0) =
      b ++ List.replicate (n - b.length) 0 := by
  have hfit : space + (List.replicate (n - space) (0 : α)).length ≤
      (Heap.resized b n junk).length := by
    simp only [List.length_replicate, Heap.length_resized]
    omega
  apply List.ext_getElem?
  intro i
  rw [getElem?_overwritten hfit, List.getElem?_append, List.length_replicate,
    List.getElem?_replicate, List.getElem?_replicate]
  rcases Nat.lt_or_ge i space with hi | hi
  · have hb : i < b.length := by omega
    rw [if_neg (by omega), if_pos hb, Heap.getElem?_resized b junk (by omega),
      List.getElem?_eq_getElem hb]
    rfl
  · rcases Nat.lt_or_ge i n with hin | hin
    · rw [if_pos (by omega), if_pos (by omega)]
      rcases Nat.lt_or_ge i b.length with hb | hb
      · -- only the block of the open is longer than its space
        have hs : space = 0 := by omega
        have hb0 := hfresh hs
        have hi0 : i = 0 := by
          rw [hb0] at hb
          simpa using hb
        subst hb0 hi0
        simp
      · rw [if_neg (by omega), if_pos (by omega)]
    · rw [if_neg (by omega), if_neg (by omega), if_neg (by omega)]
      exact List.getElem?_eq_none (by simp; omega)

theorem enlarge_refused [Zero α] {cap : ℕ} {s : Stream α σ} {b : List α} (hs : Sound cap s b)
    {width n : ℕ} {a : Heap.Answer α} (ha : a.grants (Word.mul n width) = false) :
    enlarge s width n a = some (false, s.fail .enomem) := by
  simp [enlarge, Heap.realloc, hs.read, ha]

theorem enlarge_granted [Zero α] {cap : ℕ} {s : Stream α σ} {b : List α} (hs : Sound cap s b)
    {width n : ℕ} {a : Heap.Answer α} (ha : a.grants (Word.mul n width) = true)
    (hn : s.cookie.space < n) :
    enlarge s width n a = some (true, s.rebased (b ++ List.replicate (n - b.length) 0)) := by
  have hfit : s.cookie.space + (List.replicate (n - s.cookie.space) (0 : α)).length ≤
      (Heap.resized b n a.junk).length := by
    simp only [List.length_replicate, Heap.length_resized]
    omega
  have hread : ((s.heap.release s.cookie.buf).alloc (Heap.resized b n a.junk)).read s.heap.next =
      some (Heap.resized b n a.junk) := by
    rw [Heap.read_alloc, Heap.next_release, if_pos rfl]
  have hcopy := Heap.copyIn_eq hread hfit
  have hstore := Heap.store_alloc (s.heap.release s.cookie.buf) (Heap.resized b n a.junk)
    (b ++ List.replicate (n - b.length) 0)
  rw [Heap.next_release] at hstore
  rw [overwritten_resized a.junk hs.size hs.fresh hn, hstore] at hcopy
  have hlen : (b ++ List.replicate (n - b.length) (0 : α)).length = n := by
    have hb := hs.size
    simp only [List.length_append, List.length_replicate]
    omega
  simp [enlarge, Heap.realloc, hs.read, ha, hcopy, Stream.rebased, hlen]

/-- Both grow functions from the comparison with the space on; `cap` elements
are what the allocator may grant. -/
theorem grow_from [Zero α] {cap width : ℕ} (hcap : cap * width ≤ ptrdiffMax)
    {s : Stream α σ} {b : List α} (hs : Sound cap s b) {len : ℕ} (a : Heap.Answer α)
    (hlen : ¬ s.cookie.pos + len + 1 ≤ s.cookie.space)
    (hn : newSpace s.cookie.space (s.cookie.pos + len + 1) ≤ cap ∨
      ptrdiffMax < Word.mul (newSpace s.cookie.space (s.cookie.pos + len + 1)) width ∧
        cap < newSpace s.cookie.space (s.cookie.pos + len + 1)) :
    ¬ Room cap s len a ∧
        enlarge s width (newSpace s.cookie.space (s.cookie.pos + len + 1)) a =
          some (false, s.fail .enomem) ∨
      Room cap s len a ∧ ∃ s' b',
        enlarge s width (newSpace s.cookie.space (s.cookie.pos + len + 1)) a = some (true, s') ∧
          Grown cap s b (s.cookie.pos + len + 1) s' b' := by
  have hreq := required_le_newSpace s.cookie.space (s.cookie.pos + len + 1)
  have hlt := space_lt_newSpace (Nat.lt_of_not_le hlen)
  have hsize := hs.size
  revert hn hreq hlt
  generalize hnew : newSpace s.cookie.space (s.cookie.pos + len + 1) = n
  intro hn hreq hlt
  rcases hn with hn | ⟨hbig, hn⟩
  · have hprod : n * width ≤ ptrdiffMax := (Nat.mul_le_mul_right width hn).trans hcap
    have hmul : Word.mul n width = n * width := Nat.mod_eq_of_lt (Nat.lt_of_le_of_lt hprod (by decide))
    cases hg : a.granted with
    | false =>
      refine Or.inl ⟨?_, enlarge_refused hs (by simp [Heap.Answer.grants, hg])⟩
      rintro (h | ⟨h, -⟩)
      · exact hlen h
      · rw [hg] at h
        cases h
    | true =>
      have hgr : a.grants (Word.mul n width) = true := by simp [Heap.Answer.grants, hg, hmul, hprod]
      refine Or.inr ⟨Or.inr ⟨hg, by rw [hnew]; exact hn⟩, _,
        b ++ List.replicate (n - b.length) 0, enlarge_granted hs hgr hlt, ?_⟩
      exact .moved _ (by omega) (by omega)
  · refine Or.inl ⟨?_, enlarge_refused hs (by simp [Heap.Answer.grants]; omega)⟩
    rintro (h | ⟨-, h⟩)
    · exact hlen h
    · omega

theorem aoMemstreamGrow_spec {s : Stream UInt8 Unit} {b : List UInt8} (hs : Sound ssizeMax s b)
    {len : ℕ} (hlen : len ≤ ssizeMax) (a : Heap.Answer UInt8) :
    ¬ Room ssizeMax s len a ∧ aoMemstreamGrow s len a = some (false, s.fail .enomem) ∨
      Room ssizeMax s len a ∧ ∃ s' b', aoMemstreamGrow s len a = some (true, s') ∧
        Grown ssizeMax s b (s.cookie.pos + len + 1) s' b' := by
  have hpos := hs.pos
  simp only [ssizeMax] at hlen hpos
  have hadd : Word.add (Word.add s.cookie.pos len) 1 = s.cookie.pos + len + 1 := by
    simp only [Word.add]
    omega
  have hguard : ¬ s.cookie.pos > Word.sub (Word.sub Word.sizeMax len) 1 := by
    simp only [Word.sub, Word.sizeMax]
    omega
  simp only [aoMemstreamGrow, if_neg hguard, hadd]
  split
  · rename_i hfit
    exact Or.inr ⟨Or.inl hfit, s, b, rfl, .kept hfit⟩
  · rename_i hfit
    apply grow_from (by decide) hs a hfit
    have hlt := newSpace_lt s.cookie.space (show s.cookie.pos + len + 1 < 2 ^ 64 by omega)
    simp only [Word.mul, Nat.mul_one, Nat.mod_eq_of_lt hlt, ssizeMax, ptrdiffMax]
    omega

theorem aoWmemstreamGrow_spec {s : Stream UInt32 σ} {b : List UInt32} (hs : Sound maxChars s b)
    {len : ℕ} (hlen : len ≤ ssizeMax) (a : Heap.Answer UInt32) :
    ¬ Room maxChars s len a ∧ aoWmemstreamGrow s len a = some (false, s.fail .enomem) ∨
      Room maxChars s len a ∧ ∃ s' b', aoWmemstreamGrow s len a = some (true, s') ∧
        Grown maxChars s b (s.cookie.pos + len + 1) s' b' := by
  have hpos := hs.pos
  have hspace := hs.space
  have hreq := required_le_newSpace s.cookie.space (s.cookie.pos + len + 1)
  simp only [ssizeMax, maxChars, sizeofWchar] at hlen hpos hspace
  have hadd : Word.add (Word.add s.cookie.pos len) 1 = s.cookie.pos + len + 1 := by
    simp only [Word.add]
    omega
  have hover (h : maxChars < s.cookie.pos + len + 1) : ¬ Room maxChars s len a := by
    simp only [maxChars, ssizeMax, sizeofWchar] at h
    rintro (hr | ⟨-, hr⟩)
    · omega
    · simp only [maxChars, ssizeMax, sizeofWchar] at hr
      omega
  simp only [aoWmemstreamGrow, hadd]
  split
  · -- the comparison wraps only where the next one refuses
    rename_i hguard
    refine Or.inl ⟨hover ?_, rfl⟩
    simp only [Word.sub, maxChars, ssizeMax, sizeofWchar] at hguard ⊢
    omega
  · split
    · rename_i hfit
      exact Or.inr ⟨Or.inl hfit, s, b, rfl, .kept hfit⟩
    · rename_i hfit
      split
      · rename_i hn
        refine Or.inl ⟨?_, rfl⟩
        rintro (hr | ⟨-, hr⟩)
        · exact hfit hr
        · omega
      · rename_i hn
        exact grow_from (by decide) hs a hfit (Or.inl (Nat.le_of_not_lt hn))

/-! ### What keeps a stream sound -/

/-- The buffer's elements are replaced. -/
def Stream.put (s : Stream α σ) (b : List α) : Stream α σ :=
  { s with heap := s.heap.store s.cookie.buf b }

theorem Sound.fail [Zero α] {cap : ℕ} {s : Stream α σ} {b : List α} (hs : Sound cap s b)
    (e : Errno) : Sound cap (s.fail e) b :=
  ⟨hs.pos, hs.space, hs.len, hs.size, hs.fresh, hs.read, hs.bufp, hs.self, hs.apart⟩

theorem Sound.withState [Zero α] {cap : ℕ} {s : Stream α σ} {b : List α} (hs : Sound cap s b)
    (state : σ) : Sound cap (s.withState state) b :=
  ⟨hs.pos, hs.space, hs.len, hs.size, hs.fresh, hs.read, hs.bufp, hs.self, hs.apart⟩

theorem Sound.rebased [Zero α] {cap : ℕ} {s : Stream α σ} {b b' : List α} (hs : Sound cap s b)
    (hb : b.length ≤ b'.length) (hc : b'.length ≤ cap) : Sound cap (s.rebased b') b' := by
  have hlt := Heap.lt_next_of_read hs.read
  obtain ⟨c, hself⟩ := Option.isSome_iff_exists.mp hs.self
  have hslt := Heap.lt_next_of_read hself
  have hlen := hs.len
  have hpos : 1 ≤ b'.length := by omega
  refine ⟨hs.pos, hc, Nat.lt_of_lt_of_le hs.len hb, ?_, ?_, ?_, rfl, ?_, ?_⟩
  · exact (Nat.max_eq_right hpos).symm
  · intro h0
    simp only [Stream.rebased, Stream.moved] at h0
    omega
  · simp [Stream.rebased, Stream.moved, Heap.read_alloc]
  · simp only [Stream.rebased, Stream.moved, Heap.read_alloc, Heap.next_release,
      Heap.read_release, if_neg hs.apart, if_neg (Nat.ne_of_lt hslt), hself]
    rfl
  · simp only [Stream.rebased, Stream.moved]
    omega

theorem Sound.put [Zero α] {cap : ℕ} {s : Stream α σ} {b b' : List α} (hs : Sound cap s b)
    (hb : b'.length = b.length) (hspace : 1 ≤ s.cookie.space) : Sound cap (s.put b') b' := by
  refine ⟨hs.pos, hs.space, ?_, hb.trans hs.size, ?_, ?_, hs.bufp, ?_, hs.apart⟩
  · rw [hb]
    exact hs.len
  · intro h0
    simp only [Stream.put] at h0
    omega
  · simp [Stream.put, Heap.read_store, hs.read]
  · simp only [Stream.put, Heap.read_store, if_neg hs.apart]
    exact hs.self

theorem Sound.advance [Zero α] {cap : ℕ} {s : Stream α σ} {b : List α} (hs : Sound cap s b)
    {n : ℕ} (hn : s.cookie.pos + n < s.cookie.space) : Sound cap (s.advance n) b := by
  have hspace := hs.space
  have hsize := hs.size
  have hlen := hs.len
  refine ⟨?_, hs.space, ?_, hs.size, hs.fresh, hs.read, hs.bufp, hs.self, hs.apart⟩
  · simp only [Stream.advance]
    omega
  · simp only [Stream.advance]
    split <;> omega

theorem Sound.at_pos [Zero α] {cap : ℕ} {s : Stream α σ} {b : List α} (hs : Sound cap s b)
    {p : ℕ} (hp : p ≤ cap) : Sound cap { s with cookie := { s.cookie with pos := p } } b :=
  ⟨hp, hs.space, hs.len, hs.size, hs.fresh, hs.read, hs.bufp, hs.self, hs.apart⟩

theorem copyIn_eq [Zero α] {cap : ℕ} {s : Stream α σ} {b : List α} (hs : Sound cap s b)
    {v : List α} (hv : s.cookie.pos + v.length < s.cookie.space) :
    s.copyIn v = some (s.put (overwritten b s.cookie.pos v)) := by
  have hsize := hs.size
  unfold Stream.copyIn Stream.put
  split
  · rename_i h0
    rw [List.length_eq_zero_iff.mp h0, overwritten_nil, Heap.store_read hs.read]
  · rw [Heap.copyIn_eq hs.read (by omega)]
    rfl

/-- Of the blocks made since the heap was `h₀`, the stream owns the cookie and
the buffer, and all others were freed once. -/
structure Owns (h₀ : Heap (List α)) (s : Stream α σ) : Prop where
  self : h₀.next ≤ s.self
  buf : h₀.next ≤ s.cookie.buf
  mine : ∀ q c, h₀.next ≤ q → s.heap.read q = some c → q = s.self ∨ q = s.cookie.buf
  freed : ∀ q, h₀.next ≤ q → q < s.heap.next → s.heap.read q = none → s.heap.frees q = 1
  others : ∀ q, q < h₀.next → s.heap.read q = h₀.read q

theorem Owns.rebased [Zero α] {cap : ℕ} {h₀ : Heap (List α)} {s : Stream α σ} {b : List α}
    (ho : Owns h₀ s) (hs : Sound cap s b) (b' : List α) : Owns h₀ (s.rebased b') := by
  have hlt := Heap.lt_next_of_read hs.read
  have hbuf := ho.buf
  have hread (q : ℕ) : (s.rebased b').heap.read q =
      if q = s.heap.next then some b' else if q = s.cookie.buf then none else s.heap.read q := by
    simp only [Stream.rebased, Stream.moved, Heap.read_alloc, Heap.next_release, Heap.read_release]
  refine ⟨ho.self, hbuf.trans hlt.le, ?_, ?_, ?_⟩
  · intro q c hq hr
    rw [hread] at hr
    split at hr
    · rename_i heq
      exact Or.inr heq
    · split at hr
      · cases hr
      · rename_i hne
        exact Or.inl ((ho.mine q c hq hr).resolve_right hne)
  · intro q hq hqn hr
    rw [hread] at hr
    simp only [Stream.rebased, Stream.moved, Heap.next_alloc, Heap.next_release, Heap.frees_alloc,
      Heap.frees_release hs.read] at hqn ⊢
    split
    · rfl
    · rename_i hne
      rw [if_neg hne] at hr
      split at hr
      · cases hr
      · exact ho.freed q hq (by omega) hr
  · intro q hq
    rw [hread, if_neg (by omega), if_neg (by omega)]
    exact ho.others q hq

theorem Owns.put [Zero α] {cap : ℕ} {h₀ : Heap (List α)} {s : Stream α σ} {b : List α}
    (ho : Owns h₀ s) (hs : Sound cap s b) (b' : List α) : Owns h₀ (s.put b') := by
  have hbuf := ho.buf
  have hread (q : ℕ) : (s.put b').heap.read q =
      if q = s.cookie.buf then some b' else s.heap.read q := by
    simp only [Stream.put, Heap.read_store, hs.read, Option.map_some]
  refine ⟨ho.self, hbuf, ?_, ?_, ?_⟩
  · intro q c hq hr
    rw [hread] at hr
    split at hr
    · rename_i heq
      exact Or.inr heq
    · exact ho.mine q c hq hr
  · intro q hq hqn hr
    rw [hread] at hr
    simp only [Stream.put, Heap.next_store, Heap.frees_store] at hqn ⊢
    split at hr
    · cases hr
    · exact ho.freed q hq hqn hr
  · intro q hq
    rw [hread, if_neg (by omega)]
    exact ho.others q hq

/-- Ownership is about the heap, the cookie's block and the buffer. -/
theorem Owns.of_eq {h₀ : Heap (List α)} {s s' : Stream α σ} (ho : Owns h₀ s)
    (hheap : s'.heap = s.heap) (hself : s'.self = s.self) (hbuf : s'.cookie.buf = s.cookie.buf) :
    Owns h₀ s' := by
  refine ⟨hself ▸ ho.self, hbuf ▸ ho.buf, ?_, ?_, ?_⟩
  · rw [hheap, hself, hbuf]
    exact ho.mine
  · rw [hheap]
    exact ho.freed
  · rw [hheap]
    exact ho.others

/-- The state behind a grow that succeeded. -/
structure Roomy [Zero α] (cap : ℕ) (s : Stream α σ) (b : List α) (required : ℕ)
    (s' : Stream α σ) (b' : List α) : Prop where
  sound : Sound cap s' b'
  room : required ≤ s'.cookie.space
  longer : ∃ k, b' = b ++ List.replicate k 0
  pos : s'.cookie.pos = s.cookie.pos
  len : s'.cookie.len = s.cookie.len
  state : s'.cookie.state = s.cookie.state
  sizep : s'.sizep = s.sizep
  owns : ∀ h₀, Owns h₀ s → Owns h₀ s'

theorem Grown.roomy [Zero α] {cap : ℕ} {s s' : Stream α σ} {b b' : List α} {required : ℕ}
    (hs : Sound cap s b) (hg : Grown cap s b required s' b') : Roomy cap s b required s' b' := by
  cases hg with
  | kept h => exact ⟨hs, h, ⟨0, by simp⟩, rfl, rfl, rfl, rfl, fun _ ho => ho⟩
  | moved k hr hc =>
    have hlen : (b ++ List.replicate k (0 : α)).length = b.length + k := by simp
    refine ⟨hs.rebased (by omega) (by omega), ?_, ⟨k, rfl⟩, rfl, rfl, rfl, rfl,
      fun _ ho => ho.rebased hs _⟩
    simp only [Stream.rebased, Stream.moved, hlen]
    exact hr

/-! ### Seeking -/

/-- The offset a whence counts from. -/
def base (s : Stream α σ) (whence : ℤ) : ℕ :=
  if whence = 0 then 0 else if whence = 1 then s.cookie.pos else s.cookie.len

def Reaches (limit : ℕ) (s : Stream α σ) (offset whence : ℤ) : Prop :=
  (0 ≤ whence ∧ whence ≤ 2) ∧ 0 ≤ base s whence + offset ∧ base s whence + offset ≤ limit

instance (limit : ℕ) (s : Stream α σ) (offset whence : ℤ) :
    Decidable (Reaches limit s offset whence) :=
  inferInstanceAs (Decidable ((_ ∧ _) ∧ _ ∧ _))

theorem Reaches.toNat_le {limit : ℕ} {s : Stream α σ} {offset whence : ℤ}
    (h : Reaches limit s offset whence) : (base s whence + offset).toNat ≤ limit := by
  have hle := h.2.2
  omega

theorem offT_of_le {n : ℕ} (h : n ≤ ssizeMax) : offT n = n := by
  have h' : n < 2 ^ 63 := Nat.lt_of_le_of_lt h (by decide)
  apply Int.bmod_eq_of_le <;> omega

theorem seekTo_eq {limit : ℕ} (hlimit : limit ≤ ssizeMax) {s : Stream α σ}
    (hpos : s.cookie.pos ≤ limit) (hlen : s.cookie.len ≤ limit) (offset whence : ℤ) :
    seekTo limit s offset whence = some (if Reaches limit s offset whence then
      (some (base s whence + offset), { s with cookie :=
        { s.cookie with pos := (base s whence + offset).toNat } })
      else (none, s.fail .einval)) := by
  have hb : base s whence ≤ limit := by
    unfold base
    split
    · exact Nat.zero_le limit
    · split
      · exact hpos
      · exact hlen
  simp only [seekTo]
  split
  · rename_i hw
    rw [if_neg (by unfold Reaches; omega)]
  · rename_i hw
    have hbase : offT (if whence = 0 then 0 else if whence = 1 then s.cookie.pos else s.cookie.len) =
        base s whence := by
      exact offT_of_le (hb.trans hlimit)
    have hoff := offT_of_le hlimit
    simp only [ssizeMax] at hlimit
    have hlow : checkedOff (-(base s whence : ℤ)) = some (-(base s whence : ℤ)) :=
      if_pos (by omega)
    have hhigh : checkedOff ((limit : ℤ) - base s whence) = some ((limit : ℤ) - base s whence) :=
      if_pos (by omega)
    simp only [hbase, hoff, hlow, hhigh, Option.bind_eq_bind, Option.bind_some]
    split
    · rename_i hout
      rw [if_neg (by unfold Reaches; omega)]
    · rename_i hin
      have hsum : checkedOff (base s whence + offset) = some (base s whence + offset) :=
        if_pos (by omega)
      have hsize : sizeT (base s whence + offset) = (base s whence + offset).toNat := by
        simp only [sizeT]
        omega
      rw [if_pos (by unfold Reaches; omega), hsum, Option.bind_some, hsize]

end LibcOverride.Memstream

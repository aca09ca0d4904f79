import LibcOverride.Memstream.FailedWrite
import LibcOverride.Memstream.Narrow

/-!
# From open to close
(src/memstream_overrides.c:68-116, 163-306)

What both streams' callbacks keep, and what follows for the blocks a stream
owns and for the size it publishes.
-/

namespace LibcOverride.Memstream
open Buffer

/-- `Stored s v a` says that a write of `v` is successful. -/
structure Lawful {α σ : Type} [Zero α] (cap : ℕ) (fs : IoFuncs α σ)
    (Stored : Stream α σ → List UInt8 → Heap.Answer α → Prop) : Prop where
  step : ∀ {s : Stream α σ} {b : List α} {op : Op α}, Sound cap s b → op.Fits →
    ∃ r s' b', fs.step s op = some (r, s') ∧ Sound cap s' b' ∧ ∀ h₀, Owns h₀ s → Owns h₀ s'
  writes : ∀ {s s' : Stream α σ} {b : List α} {v : List UInt8} {a : Heap.Answer α} {r : Reply},
    Sound cap s b → v.length ≤ ssizeMax → Stored s v a → fs.step s (.write v a) = some (r, s') →
    s'.sizep = s'.cookie.pos ∧ s'.cookie.pos ≤ s'.cookie.len
  seeks : ∀ {s s' : Stream α σ} {b : List α} {offset whence : ℤ} {r : Reply},
    Sound cap s b → fs.step s (.seek offset whence) = some (r, s') →
    s'.sizep = s.sizep ∧ s'.cookie.len = s.cookie.len
  close : fs.close = closeStream

theorem advance_publishes {α σ : Type} (s : Stream α σ) (n : ℕ) :
    (s.advance n).sizep = (s.advance n).cookie.pos ∧
      (s.advance n).cookie.pos ≤ (s.advance n).cookie.len := by
  refine ⟨rfl, ?_⟩
  change s.cookie.pos + n ≤
    if s.cookie.pos + n ≥ s.cookie.len then s.cookie.pos + n else s.cookie.len
  split <;> omega

/-! ### Both streams are lawful -/

def NarrowStored (s : Stream UInt8 Unit) (v : List UInt8) (a : Heap.Answer UInt8) : Prop :=
  Room ssizeMax s v.length a

def WideStored (L : Locale) (s : Stream UInt32 L.State) (v : List UInt8)
    (a : Heap.Answer UInt32) : Prop :=
  Room maxChars s v.length a ∧ ∀ cs, ¬ Breaks L s v cs

theorem memstream_keeps {s : Stream UInt8 Unit} {b : List UInt8} (hs : Sound ssizeMax s b)
    {op : Op UInt8} (hop : op.Fits) :
    ∃ r s' b', memstreamFuncs.step s op = some (r, s') ∧ Sound ssizeMax s' b' ∧
      ∀ h₀, Owns h₀ s → Owns h₀ s' := by
  cases op with
  | write buf a =>
    rcases aoMemstreamWrite_cases hs hop a with ⟨-, hw⟩ | ⟨-, s', b', hg, hw⟩
    · refine ⟨.wrote 0, _, b, ?_, hs.fail .enomem, fun _ ho => ho.of_eq rfl rfl rfl⟩
      simp [IoFuncs.step, memstreamFuncs, hw]
    · have hr := hg.roomy hs
      have hroom := hr.room
      have hpos := hr.pos
      have hsize := hr.sound.size
      have hcopy := copyIn_eq hr.sound (v := buf) (by omega)
      have hput := hr.sound.put (length_overwritten (i := s'.cookie.pos) (v := buf) (by omega))
        (by omega)
      refine ⟨.wrote buf.length, _, _, ?_, hput.advance (n := buf.length) ?_,
        fun h₀ ho => ((hr.owns h₀ ho).put hr.sound _).of_eq rfl rfl rfl⟩
      · simp only [IoFuncs.step, memstreamFuncs, hw, hcopy, Option.map_some]
      · change s'.cookie.pos + buf.length < s'.cookie.space
        omega
  | seek offset whence =>
    have heq := aoMemstreamSeek_eq hs offset whence
    by_cases hr : Reaches ssizeMax s offset whence
    · have hp := hr.toNat_le
      refine ⟨.sought (some (base s whence + offset)), _, b, ?_, hs.at_pos hp,
        fun _ ho => ho.of_eq rfl rfl rfl⟩
      simp [IoFuncs.step, memstreamFuncs, heq, hr]
    · refine ⟨.sought none, _, b, ?_, hs.fail .einval, fun _ ho => ho.of_eq rfl rfl rfl⟩
      simp [IoFuncs.step, memstreamFuncs, heq, hr]

theorem memstream_lawful : Lawful ssizeMax memstreamFuncs NarrowStored where
  step hs hop := memstream_keeps hs hop
  writes := by
    intro s s' b v a r hs hv hstored hstep
    rcases aoMemstreamWrite_cases hs hv a with ⟨hno, -⟩ | ⟨-, s₁, b₁, hg, hw⟩
    · exact absurd hstored hno
    · have hr := hg.roomy hs
      have hroom := hr.room
      have hpos := hr.pos
      have hcopy := copyIn_eq hr.sound (v := v) (by omega)
      simp only [IoFuncs.step, memstreamFuncs, hw, hcopy, Option.map_some, Option.some.injEq,
        Prod.mk.injEq] at hstep
      rw [← hstep.2]
      exact advance_publishes _ _
  seeks := by
    intro s s' b offset whence r hs hstep
    have heq := aoMemstreamSeek_eq hs offset whence
    simp only [IoFuncs.step, memstreamFuncs, heq, Option.map_some, Option.some.injEq,
      Prod.mk.injEq] at hstep
    rw [← hstep.2]
    split <;> exact ⟨rfl, rfl⟩
  close := rfl

theorem wmemstream_lawful (L : Locale) : Lawful maxChars (wmemstreamFuncs L) (WideStored L) where
  step hs hop := wmemstream_step hs hop
  writes := by
    intro s s' b v a r hs hv hstored hstep
    rcases aoWmemstreamWrite_cases hs hv a with ⟨hno, -⟩ | ⟨-, s₁, b₁, room, -, hle, hw⟩
    · exact absurd hstored.1 hno
    · cases hres : (L.mbsnrtowcs s.cookie.state v room).result with
      | none =>
        obtain ⟨cs, hcs⟩ := (Locale.result_none_iff hle).mp hres
        exact absurd hcs (hstored.2 cs)
      | some n =>
        simp only [IoFuncs.step, wmemstreamFuncs, hw, hres, Option.map_some, Option.some.injEq,
          Prod.mk.injEq] at hstep
        rw [← hstep.2]
        exact advance_publishes _ _
  seeks := by
    intro s s' b offset whence r hs hstep
    have heq := aoWmemstreamSeek_eq hs offset whence
    simp only [IoFuncs.step, wmemstreamFuncs, heq, Option.map_some, Option.some.injEq,
      Prod.mk.injEq] at hstep
    rw [← hstep.2]
    split <;> exact ⟨rfl, rfl⟩
  close := rfl

/-! ### The published size -/

section Generic

variable {α σ : Type} [Zero α] {cap : ℕ} {fs : IoFuncs α σ}
  {Stored : Stream α σ → List UInt8 → Heap.Answer α → Prop}

/-- A run of successful writes and of seeks; the last number is where the last
write ended. -/
inductive Marked (fs : IoFuncs α σ) (Stored : Stream α σ → List UInt8 → Heap.Answer α → Prop)
    (s₀ : Stream α σ) : List (Op α) → Stream α σ → ℕ → Prop where
  | opened : Marked fs Stored s₀ [] s₀ s₀.cookie.pos
  | write {ops : List (Op α)} {s s' : Stream α σ} {q : ℕ} {v : List UInt8} {a : Heap.Answer α}
    {r : Reply} (h : Marked fs Stored s₀ ops s q) (hv : v.length ≤ ssizeMax)
    (hstored : Stored s v a) (hstep : fs.step s (.write v a) = some (r, s')) :
    Marked fs Stored s₀ (ops ++ [.write v a]) s' s'.cookie.pos
  | seek {ops : List (Op α)} {s s' : Stream α σ} {q : ℕ} {offset whence : ℤ} {r : Reply}
    (h : Marked fs Stored s₀ ops s q) (hstep : fs.step s (.seek offset whence) = some (r, s')) :
    Marked fs Stored s₀ (ops ++ [.seek offset whence]) s' q

theorem Lawful.sound_step (hl : Lawful cap fs Stored) {s s' : Stream α σ} {b : List α}
    (hs : Sound cap s b) {op : Op α} (hop : op.Fits) {r : Reply}
    (hstep : fs.step s op = some (r, s')) :
    (∃ b', Sound cap s' b') ∧ ∀ h₀, Owns h₀ s → Owns h₀ s' := by
  obtain ⟨r', s'', b', hstep', hsound, howns⟩ := hl.step hs hop
  rw [hstep] at hstep'
  cases hstep'
  exact ⟨⟨b', hsound⟩, howns⟩

/-- The published size is where the last write ended. -/
theorem marked_size (hl : Lawful cap fs Stored) {s₀ s : Stream α σ} {b₀ : List α}
    (hs : Sound cap s₀ b₀) (hsize : s₀.sizep = s₀.cookie.pos) (hpos : s₀.cookie.pos ≤ s₀.cookie.len)
    {ops : List (Op α)} {q : ℕ} (h : Marked fs Stored s₀ ops s q) :
    (∃ b, Sound cap s b) ∧ s.sizep = q ∧ q ≤ s.cookie.len := by
  induction h with
  | opened => exact ⟨⟨b₀, hs⟩, hsize, hpos⟩
  | @write ops s s' q v a r h hv hstored hstep ih =>
    obtain ⟨⟨b, hb⟩, -, -⟩ := ih
    have hop : (Op.write v a).Fits := hv
    exact ⟨(hl.sound_step hb hop hstep).1, hl.writes hb hv hstored hstep⟩
  | @seek ops s s' q offset whence r h hstep ih =>
    obtain ⟨⟨b, hb⟩, hq, hle⟩ := ih
    have hop : (Op.seek offset whence : Op α).Fits := trivial
    obtain ⟨hkept, hlen⟩ := hl.seeks hb hstep
    exact ⟨(hl.sound_step hb hop hstep).1, hkept.trans hq, hlen ▸ hle⟩

theorem closeStream_eq {s : Stream α σ} {b : List α} (hs : Sound cap s b) :
    closeStream s = some { s.toWorld with heap := s.heap.release s.self } := by
  obtain ⟨c, hc⟩ := Option.isSome_iff_exists.mp hs.self
  rw [closeStream, Heap.free_eq hc, Option.map_some]

theorem closed_size_iff (hl : Lawful cap fs Stored) (w : World α) (state : σ) {s : Stream α σ}
    {ops : List (Op α)} {q : ℕ} (h : Marked fs Stored (openedStream w state) ops s q) :
    ∃ w', fs.close s = some w' ∧ (w'.sizep = min s.cookie.len s.cookie.pos ↔
      s.cookie.pos = q ∨ q = s.cookie.len ∧ s.cookie.len ≤ s.cookie.pos) := by
  obtain ⟨⟨b, hb⟩, hsize, hle⟩ :=
    marked_size hl (openedStream_sound cap w state) rfl (Nat.zero_le _) h
  have hclose : fs.close s = some { s.toWorld with heap := s.heap.release s.self } := by
    rw [hl.close]
    exact closeStream_eq hb
  refine ⟨_, hclose, ?_⟩
  change s.sizep = _ ↔ _
  rw [hsize]
  omega

end Generic

/-- The size published at the close is the smaller of length and position if and
only if the position is where the last write ended, or that was the end of the
stream and the position is not before it. -/
theorem published_size_iff (L : Locale) :
    (∀ w a s₀, openMemstream w a = some (.stream s₀) → ∀ ops s q,
      Marked memstreamFuncs NarrowStored s₀ ops s q →
      ∃ w', aoMemstreamClose s = some w' ∧ (w'.sizep = min s.cookie.len s.cookie.pos ↔
        s.cookie.pos = q ∨ q = s.cookie.len ∧ s.cookie.len ≤ s.cookie.pos)) ∧
    (∀ w a s₀, openWmemstream L w a = some (.stream s₀) → ∀ ops s q,
      Marked (wmemstreamFuncs L) (WideStored L) s₀ ops s q →
      ∃ w', aoWmemstreamClose s = some w' ∧ (w'.sizep = min s.cookie.len s.cookie.pos ↔
        s.cookie.pos = q ∨ q = s.cookie.len ∧ s.cookie.len ≤ s.cookie.pos)) := by
  constructor
  · intro w a s₀ hopen ops s q h
    rw [openMemstream, openStream_eq w () a (by decide) (by decide)] at hopen
    have hs₀ := openResult_stream (Option.some.inj hopen)
    subst hs₀
    exact closed_size_iff memstream_lawful w () h
  · intro w a s₀ hopen ops s q h
    rw [openWmemstream, openStream_eq w L.initial a (by decide) (by decide)] at hopen
    have hs₀ := openResult_stream (Option.some.inj hopen)
    subst hs₀
    exact closed_size_iff (wmemstream_lawful L) w L.initial h

def openedNarrow : Stream UInt8 Unit := openedStream (emptyWorld UInt8) ()

theorem openedNarrow_opens : openMemstream (emptyWorld UInt8)
    ⟨grantedAll UInt8, grantedAll UInt8, none⟩ = some (.stream openedNarrow) := rfl

/-- `"ab"`, and the start again. -/
def rewoundNarrow : Stream UInt8 Unit :=
  { heap := (openedNarrow.heap.release 1).alloc [97, 98, 0]
    bufp := some 2, sizep := 2, errno := .other 0, self := 0
    cookie := ⟨0, 2, 2, 3, ()⟩ }

theorem rewoundNarrow_marked : Marked memstreamFuncs NarrowStored openedNarrow
    (([] ++ [.write [97, 98] (grantedAll UInt8)]) ++ [.seek 0 0]) rewoundNarrow 2 := by
  have hwrite : Marked memstreamFuncs NarrowStored openedNarrow
      ([] ++ [.write [97, 98] (grantedAll UInt8)])
      { rewoundNarrow with cookie := { rewoundNarrow.cookie with pos := 2 } } 2 :=
    .write .opened (Nat.le_of_ble_eq_true rfl) (Or.inr ⟨rfl, by decide⟩) rfl
  exact .seek hwrite rfl

theorem rewound_marked : Marked (wmemstreamFuncs ascii) (WideStored ascii) openedWide
    (([] ++ [.write [97, 98] (grantedAll UInt32)]) ++ [.seek 0 0]) rewound 2 := by
  have hvalid : ∀ cs, ¬ Breaks ascii openedWide [97, 98] cs := fun cs hcs => by cases hcs
  have hwrite : Marked (wmemstreamFuncs ascii) (WideStored ascii) openedWide
      ([] ++ [.write [97, 98] (grantedAll UInt32)]) written 2 :=
    .write .opened (Nat.le_of_ble_eq_true rfl) ⟨Or.inr ⟨rfl, by decide⟩, hvalid⟩ rfl
  exact .seek hwrite rfl

/-- `"ab"`, the start again, and `"c"` there: both streams publish 1. Without the `"c"` the
condition does not hold. -/
theorem published_size_iff_sample :
    (∃ s w', Marked memstreamFuncs NarrowStored openedNarrow
        (([] ++ [.write [97, 98] (grantedAll UInt8)] ++ [.seek 0 0]) ++
          [.write [99] (grantedAll UInt8)]) s 1 ∧
      s.cookie.len = 2 ∧ aoMemstreamClose s = some w' ∧
      w'.sizep = min s.cookie.len s.cookie.pos) ∧
    (∃ s w', Marked (wmemstreamFuncs ascii) (WideStored ascii) openedWide
        (([] ++ [.write [97, 98] (grantedAll UInt32)] ++ [.seek 0 0]) ++
          [.write [99] (grantedAll UInt32)]) s 1 ∧
      s.cookie.len = 2 ∧ aoWmemstreamClose s = some w' ∧
      w'.sizep = min s.cookie.len s.cookie.pos) ∧
    ∃ w', aoWmemstreamClose rewound = some w' ∧
      w'.sizep ≠ min rewound.cookie.len rewound.cookie.pos := by
  refine ⟨?_, ?_, ?_⟩
  · obtain ⟨s, hstep, hpos, hlen⟩ : ∃ s, memstreamFuncs.step rewoundNarrow
          (.write [99] (grantedAll UInt8)) = some (.wrote 1, s) ∧
        s.cookie.pos = 1 ∧ s.cookie.len = 2 := ⟨_, rfl, rfl, rfl⟩
    have hmarked := Marked.write rewoundNarrow_marked (Nat.le_of_ble_eq_true rfl)
      (show NarrowStored rewoundNarrow [99] (grantedAll UInt8) from Or.inl (by decide)) hstep
    obtain ⟨w', hclose, hiff⟩ :=
      (published_size_iff ascii).1 _ _ _ openedNarrow_opens _ _ _ hmarked
    rw [hpos] at hmarked
    exact ⟨s, w', hmarked, hlen, hclose, hiff.mpr (Or.inl rfl)⟩
  · obtain ⟨s, hstep, hpos, hlen⟩ : ∃ s, (wmemstreamFuncs ascii).step rewound
          (.write [99] (grantedAll UInt32)) = some (.wrote 1, s) ∧
        s.cookie.pos = 1 ∧ s.cookie.len = 2 := ⟨_, rfl, rfl, rfl⟩
    have hmarked := Marked.write rewound_marked (Nat.le_of_ble_eq_true rfl)
      (show WideStored ascii rewound [99] (grantedAll UInt32) from
        ⟨Or.inl (by decide), fun cs hcs => by cases hcs⟩) hstep
    obtain ⟨w', hclose, hiff⟩ :=
      (published_size_iff ascii).2 _ _ _ openedWide_opens _ _ _ hmarked
    rw [hpos] at hmarked
    exact ⟨s, w', hmarked, hlen, hclose, hiff.mpr (Or.inl rfl)⟩
  · obtain ⟨w', hclose, hiff⟩ :=
      (published_size_iff ascii).2 _ _ _ openedWide_opens _ _ _ rewound_marked
    exact ⟨w', hclose, fun heq => absurd (hiff.mp heq) (by decide)⟩

theorem published_size_stale : ∃ w',
    Marked memstreamFuncs NarrowStored openedNarrow
      (([] ++ [.write [97, 98] (grantedAll UInt8)]) ++ [.seek 0 0]) rewoundNarrow 2 ∧
    aoMemstreamClose rewoundNarrow = some w' ∧
    w'.sizep ≠ min rewoundNarrow.cookie.len rewoundNarrow.cookie.pos :=
  ⟨_, rewoundNarrow_marked, rfl, by decide⟩

/-! ### Ownership -/

/-- While the stream is open: the published buffer, and no other block but the
cookie's, is live; `h₀` is the heap before the open. -/
structure Held {α σ : Type} (h₀ : Heap (List α)) (s : Stream α σ) : Prop where
  buffer : ∃ p b, s.bufp = some p ∧ s.heap.read p = some b ∧ max 1 s.cookie.space ≤ b.length
  only : ∀ q c, h₀.next ≤ q → s.heap.read q = some c → q = s.self ∨ s.bufp = some q
  freed : ∀ q, h₀.next ≤ q → q < s.heap.next → s.heap.read q = none → s.heap.frees q = 1

/-- After the close the published buffer is what is left. -/
structure Released {α : Type} (h₀ : Heap (List α)) (w : World α) : Prop where
  buffer : ∃ p b, w.bufp = some p ∧ h₀.next ≤ p ∧ w.heap.read p = some b
  only : ∀ q c, h₀.next ≤ q → w.heap.read q = some c → w.bufp = some q
  freed : ∀ q, h₀.next ≤ q → q < w.heap.next → w.heap.read q = none → w.heap.frees q = 1

/-- After an open that failed nothing is left of it. -/
structure Undone {α : Type} (w w' : World α) : Prop where
  dead : ∀ q, w.heap.next ≤ q → q < w'.heap.next → w'.heap.read q = none ∧ w'.heap.frees q = 1
  others : ∀ q, q < w.heap.next → w'.heap.read q = w.heap.read q
  bufp : w'.bufp = w.bufp
  sizep : w'.sizep = w.sizep

/-- The life of a stream on the heap, from the world before its open. -/
def LifeCycle {α σ : Type} (fs : IoFuncs α σ) (w : World α) : Opened α σ → Prop
  | .null w' => Undone w w'
  | .stream s₀ => ∀ ops : List (Op α), (∀ op ∈ ops, op.Fits) →
      ∃ s w', fs.run s₀ ops = some s ∧ Held w.heap s ∧ fs.close s = some w' ∧ Released w.heap w'

section Generic

variable {α σ : Type} [Zero α] {cap : ℕ} {fs : IoFuncs α σ}
  {Stored : Stream α σ → List UInt8 → Heap.Answer α → Prop}

theorem openedStream_owns (w : World α) (state : σ) : Owns w.heap (openedStream w state) := by
  have hread (q : ℕ) : (openedStream w state).heap.read q =
      if q = w.heap.next + 1 then some [0] else if q = w.heap.next then some []
      else w.heap.read q := by
    simp only [openedStream, Heap.read_alloc, Heap.next_alloc]
  refine ⟨le_rfl, Nat.le_succ _, ?_, ?_, ?_⟩
  · intro q c hq hr
    rw [hread] at hr
    split at hr
    · rename_i heq
      exact Or.inr heq
    · split at hr
      · rename_i heq
        exact Or.inl heq
      · exact absurd (Heap.lt_next_of_read hr) (Nat.not_lt.mpr hq)
  · intro q hq hqn hr
    rw [hread] at hr
    simp only [openedStream, Heap.next_alloc] at hqn
    split at hr
    · cases hr
    · split at hr
      · cases hr
      · omega
  · intro q hq
    rw [hread, if_neg (by omega), if_neg (by omega)]

theorem Sound.held {h₀ : Heap (List α)} {s : Stream α σ} {b : List α} (hs : Sound cap s b)
    (ho : Owns h₀ s) : Held h₀ s := by
  refine ⟨⟨_, b, hs.bufp, hs.read, hs.size.ge⟩, ?_, ho.freed⟩
  intro q c hq hr
  rcases ho.mine q c hq hr with rfl | rfl
  · exact Or.inl rfl
  · exact Or.inr hs.bufp

theorem Sound.released {h₀ : Heap (List α)} {s : Stream α σ} {b : List α} (hs : Sound cap s b)
    (ho : Owns h₀ s) : Released h₀ { s.toWorld with heap := s.heap.release s.self } := by
  obtain ⟨c, hc⟩ := Option.isSome_iff_exists.mp hs.self
  refine ⟨⟨_, b, hs.bufp, ho.buf, ?_⟩, ?_, ?_⟩
  · rw [Heap.read_release, if_neg hs.apart.symm]
    exact hs.read
  · intro q c hq hr
    rw [Heap.read_release] at hr
    split at hr
    · cases hr
    · rename_i hne
      rw [(ho.mine q c hq hr).resolve_left hne]
      exact hs.bufp
  · intro q hq hqn hr
    simp only [Heap.next_release] at hqn
    rw [Heap.read_release] at hr
    rw [Heap.frees_release hc]
    split
    · rfl
    · rename_i hne
      rw [if_neg hne] at hr
      exact ho.freed q hq hqn hr

theorem Lawful.run (hl : Lawful cap fs Stored) {h₀ : Heap (List α)} {s : Stream α σ} {b : List α}
    (hs : Sound cap s b) (ho : Owns h₀ s) (ops : List (Op α)) (hops : ∀ op ∈ ops, op.Fits) :
    ∃ s' b', fs.run s ops = some s' ∧ Sound cap s' b' ∧ Owns h₀ s' := by
  induction ops generalizing s b with
  | nil => exact ⟨s, b, rfl, hs, ho⟩
  | cons op ops ih =>
    obtain ⟨r, s₁, b₁, hstep, hs₁, howns⟩ := hl.step hs (hops op (List.mem_cons_self ..))
    obtain ⟨s', b', hrun, hs', ho'⟩ :=
      ih hs₁ (howns h₀ ho) fun o hmem => hops o (List.mem_cons_of_mem _ hmem)
    refine ⟨s', b', ?_, hs', ho'⟩
    rw [IoFuncs.run, hstep]
    exact hrun

theorem stream_lifeCycle (hl : Lawful cap fs Stored) (w : World α) (state : σ) :
    LifeCycle fs w (.stream (openedStream w state)) := by
  intro ops hops
  obtain ⟨s, b, hrun, hs, ho⟩ :=
    hl.run (openedStream_sound cap w state) (openedStream_owns w state) ops hops
  refine ⟨s, _, hrun, hs.held ho, ?_, hs.released ho⟩
  rw [hl.close]
  exact closeStream_eq hs

/-- The open and what follows keep to the life cycle unless `fopencookie` fails. -/
theorem lifeCycle_iff (hl : Lawful cap fs Stored) (w : World α) (state : σ) (a : OpenAnswers α) :
    LifeCycle fs w (openResult w state a) ↔
      a.cookie.granted = false ∨ a.buf.granted = false ∨ a.fopencookie = none ∨
        w.bufp = some (w.heap.next + 1) ∧ w.sizep = 0 := by
  have hself : (w.heap.alloc ([] : List α)).read w.heap.next = some [] := by
    rw [Heap.read_alloc, if_pos rfl]
  simp only [openResult]
  cases hc : a.cookie.granted with
  | false =>
    simp only [if_true, true_or, iff_true]
    refine ⟨fun q hq hqn => absurd hqn (Nat.not_lt.mpr hq), fun q _ => rfl, rfl, rfl⟩
  | true =>
    simp only [Bool.true_eq_false, if_false, false_or]
    cases hb : a.buf.granted with
    | false =>
      simp only [if_true, true_or, iff_true]
      refine ⟨?_, ?_, rfl, rfl⟩
      · intro q hq hqn
        simp only [Heap.next_release, Heap.next_alloc] at hqn
        obtain rfl : q = w.heap.next := by omega
        rw [Heap.read_release, if_pos rfl, Heap.frees_release hself, if_pos rfl]
        exact ⟨rfl, rfl⟩
      · intro q hq
        rw [Heap.read_release, if_neg (by omega), Heap.read_alloc, if_neg (by omega)]
    | true =>
      simp only [Bool.true_eq_false, if_false, false_or]
      cases hf : a.fopencookie with
      | none =>
        simp only [true_or, iff_true]
        exact stream_lifeCycle hl w state
      | some e =>
        have hbuf : ((w.heap.alloc ([] : List α)).alloc [0]).read (w.heap.next + 1) = some [0] := by
          rw [Heap.read_alloc, if_pos (Heap.next_alloc w.heap _).symm]
        have hself' : (((w.heap.alloc ([] : List α)).alloc [0]).release (w.heap.next + 1)).read
            w.heap.next = some [] := by
          rw [Heap.read_release, if_neg (by omega), Heap.read_alloc, Heap.next_alloc,
            if_neg (by omega), hself]
        simp only [reduceCtorEq, false_or]
        constructor
        · intro h
          exact ⟨h.bufp.symm, h.sizep.symm⟩
        · intro h
          refine ⟨?_, ?_, h.1.symm, h.2.symm⟩
          · intro q hq hqn
            simp only [Heap.next_release, Heap.next_alloc] at hqn
            rw [Heap.read_release, Heap.frees_release hself', Heap.read_release,
              Heap.frees_release hbuf]
            split
            · exact ⟨rfl, rfl⟩
            · rw [if_pos (by omega), if_pos (by omega)]
              exact ⟨rfl, rfl⟩
          · intro q hq
            simp only [Heap.read_release, Heap.read_alloc, Heap.next_alloc]
            rw [if_neg (by omega), if_neg (by omega), if_neg (by omega), if_neg (by omega)]

end Generic

/-- For every failure of the three requests and every run after it, both streams
keep to the life cycle exactly when `fopencookie` is not what fails, or the
caller's variables held the freed buffer and 0 before. -/
theorem memstream_lifeCycle_iff (L : Locale) :
    (∀ w a, ∃ o, openMemstream w a = some o ∧ (LifeCycle memstreamFuncs w o ↔
      a.cookie.granted = false ∨ a.buf.granted = false ∨ a.fopencookie = none ∨
        w.bufp = some (w.heap.next + 1) ∧ w.sizep = 0)) ∧
    (∀ w a, ∃ o, openWmemstream L w a = some o ∧ (LifeCycle (wmemstreamFuncs L) w o ↔
      a.cookie.granted = false ∨ a.buf.granted = false ∨ a.fopencookie = none ∨
        w.bufp = some (w.heap.next + 1) ∧ w.sizep = 0)) := by
  constructor
  · intro w a
    exact ⟨_, openStream_eq w () a (by decide) (by decide), lifeCycle_iff memstream_lawful w () a⟩
  · intro w a
    exact ⟨_, openStream_eq w L.initial a (by decide) (by decide),
      lifeCycle_iff (wmemstream_lawful L) w L.initial a⟩

/-- A failed `fopencookie` leaves the caller a pointer to the freed buffer. -/
theorem failed_open_dangles : ∃ w', openMemstream (emptyWorld UInt8)
      ⟨grantedAll UInt8, grantedAll UInt8, some .enomem⟩ = some (.null w') ∧
    w'.bufp = some 1 ∧ w'.heap.frees 1 = 1 ∧
    ¬ LifeCycle memstreamFuncs (emptyWorld UInt8) (.null w') := by
  refine ⟨_, rfl, rfl, rfl, fun h => ?_⟩
  exact absurd h.bufp (by decide)

end LibcOverride.Memstream

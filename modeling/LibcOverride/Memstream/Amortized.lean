import LibcOverride.Lib.Geometric
import LibcOverride.Memstream.Allocator
import Mathlib.Data.Nat.Log

/-!
# What growing costs
(src/memstream_overrides.c:28-66, 118-161)

The space at least doubles, so that all the buffers of a stream together take twice
the last one at most. The narrow stream's space is less than four times its text.
-/

namespace LibcOverride.Memstream
open Geometric (Grows)

variable {α σ : Type} {cap width n : ℕ}

/-- The sizes of the blocks that were granted. -/
def grantedSizes (ops : List (Clients.Op ℕ)) : List ℕ := ops.filterMap Clients.Op.gives

/-- The space with one element more, in bytes. -/
def Stream.weight (width : ℕ) (s : Stream α σ) : ℕ := (s.cookie.space + 1) * width

/-- The space doubles with every block that is granted. -/
def Doubles (width : ℕ) (s : Stream α σ) (ops : List (Clients.Op ℕ)) (s' : Stream α σ) : Prop :=
  Grows 1 1 (s.weight width) ((grantedSizes ops).map (· + width)) (s'.weight width)

theorem doubled_lt_newSpace {space required : ℕ} (hs : space < 2 ^ 63) :
    2 * space + 1 ≤ newSpace space required := by
  have hor : 2 * space + 1 ≤ (2 * space + 1) ||| required := Nat.left_le_or
  have hsmall : ¬space > (Word.sizeMax - 1) / 2 := by
    simp only [Word.sizeMax]
    omega
  simp only [newSpace, if_neg hsmall]
  generalize (2 * space + 1) ||| required = grown at hor ⊢
  split <;> omega

/-- The bits of the two numbers reach at most one place above those of `required`. -/
theorem newSpace_lt_four {space required : ℕ} (hs : space < required) (hspace : space < 2 ^ 63) :
    newSpace space required < 4 * required := by
  have hpos : required ≠ 0 := by omega
  have hsmall : ¬space > (Word.sizeMax - 1) / 2 := by
    simp only [Word.sizeMax]
    omega
  have hlog := Nat.pow_log_le_self 2 hpos
  have hreq : required < 2 ^ (Nat.log 2 required + 1) := Nat.lt_pow_succ_log_self (by decide) _
  have htop : 2 ^ (Nat.log 2 required + 2) = 4 * 2 ^ Nat.log 2 required := by ring
  have hmid : 2 ^ (Nat.log 2 required + 1) = 2 * 2 ^ Nat.log 2 required := by ring
  have hor : (2 * space + 1) ||| required < 2 ^ (Nat.log 2 required + 2) :=
    Nat.or_lt_two_pow (by omega) (by omega)
  simp only [newSpace, if_neg hsmall]
  generalize (2 * space + 1) ||| required = grown at hor ⊢
  split <;> omega

/-! ### One call -/

section
variable {s s' : Stream α σ} {b : List α} {a : Heap.Answer α} {ok : Bool}

theorem doubles_same (hspace : s'.cookie.space = s.cookie.space) : Doubles width s [] s' := by
  unfold Doubles Stream.weight
  rw [hspace]
  exact .stay

theorem enlarge_doubles [Zero α] (hs : Sound cap s b) (hn : 2 * s.cookie.space + 1 ≤ n)
    (hmul : Word.mul n width = n * width) (h : enlarge s width n a = some (ok, s')) :
    Doubles width s [enlargement s width n a] s' ∧ s'.cookie.pos = s.cookie.pos ∧
      s'.cookie.len = s.cookie.len ∧ s'.cookie.space = if ok then n else s.cookie.space := by
  unfold enlargement
  cases hgrant : a.grants (Word.mul n width) with
  | false =>
    rw [enlarge_refused hs hgrant] at h
    cases h
    exact ⟨doubles_same rfl, rfl, rfl, rfl⟩
  | true =>
    rw [enlarge_granted hs hgrant (by omega)] at h
    cases h
    have hspace : (s.rebased (b ++ List.replicate (n - b.length) (0 : α))).cookie.space = n := by
      have hb := hs.size
      change (b ++ List.replicate (n - b.length) (0 : α)).length = n
      rw [List.length_append, List.length_replicate]
      omega
    refine ⟨?_, rfl, rfl, hspace⟩
    have hnext : (s.rebased (b ++ List.replicate (n - b.length) (0 : α))).weight width =
        n * width + width := by
      rw [Stream.weight, hspace, Nat.add_mul, Nat.one_mul]
    unfold Doubles
    rw [hnext, hmul]
    refine .one ?_
    calc
      (1 + 1) * s.weight width = (2 * s.cookie.space + 1 + 1) * width := by
        unfold Stream.weight
        ring
      _ ≤ (n + 1) * width := Nat.mul_le_mul_right _ (by omega)
      _ = 1 * (n * width + width) := by ring

end

/-- The space is below four times the text, or it is what it was. -/
theorem memstreamGrow_doubles {s s' : Stream UInt8 Unit} {b buf : List UInt8}
    {a : Heap.Answer UInt8} {ok : Bool} (hs : Sound ssizeMax s b) (hlen : buf.length ≤ ssizeMax)
    (h : aoMemstreamGrow s buf.length a = some (ok, s')) :
    Doubles 1 s (memstreamRequests s (.write buf a)) s' ∧ s'.cookie.pos = s.cookie.pos ∧
      s'.cookie.len = s.cookie.len ∧ (s'.cookie.space = s.cookie.space ∨
        ok = true ∧ s'.cookie.space < 4 * (s.cookie.pos + buf.length + 1)) := by
  have hpos := hs.pos
  have hspace : s.cookie.space < 2 ^ 63 := Nat.lt_of_le_of_lt hs.space (by decide)
  have hrequired : Word.add (Word.add s.cookie.pos buf.length) 1 =
      s.cookie.pos + buf.length + 1 := by
    dsimp only [ssizeMax] at hpos hlen
    simp only [Word.add]
    omega
  unfold aoMemstreamGrow at h
  unfold memstreamRequests
  dsimp only at h ⊢
  rw [hrequired] at h ⊢
  split at h
  · rename_i hguard
    cases h
    rw [if_pos hguard]
    exact ⟨doubles_same rfl, rfl, rfl, Or.inl rfl⟩
  · rename_i hguard
    rw [if_neg hguard]
    split at h
    · rename_i hfit
      cases h
      rw [if_pos hfit]
      exact ⟨doubles_same rfl, rfl, rfl, Or.inl rfl⟩
    · rename_i hfit
      rw [if_neg hfit]
      have hlt : s.cookie.pos + buf.length + 1 < 2 ^ 64 := by
        dsimp only [ssizeMax] at hpos hlen
        omega
      have hmul : Word.mul (newSpace s.cookie.space (s.cookie.pos + buf.length + 1)) 1 =
          newSpace s.cookie.space (s.cookie.pos + buf.length + 1) * 1 := by
        rw [Word.mul, Nat.mod_eq_of_lt (by rw [Nat.mul_one]; exact newSpace_lt _ hlt)]
      obtain ⟨hdoubles, hpos', hlen', hspace'⟩ :=
        enlarge_doubles hs (doubled_lt_newSpace hspace) hmul h
      refine ⟨hdoubles, hpos', hlen', ?_⟩
      cases ok with
      | false => exact Or.inl hspace'
      | true =>
        refine Or.inr ⟨rfl, ?_⟩
        rw [hspace']
        exact newSpace_lt_four (Nat.lt_of_not_le hfit) hspace

theorem wmemstreamGrow_doubles {s s' : Stream UInt32 σ} {b : List UInt32} {buf : List UInt8}
    {a : Heap.Answer UInt32} {ok : Bool} (hs : Sound maxChars s b)
    (h : aoWmemstreamGrow s buf.length a = some (ok, s')) :
    Doubles sizeofWchar s (wmemstreamRequests s (.write buf a)) s' := by
  have hspace : s.cookie.space < 2 ^ 63 := Nat.lt_of_le_of_lt hs.space (by decide)
  unfold aoWmemstreamGrow at h
  unfold wmemstreamRequests
  dsimp only at h ⊢
  split at h
  · rename_i hguard
    cases h
    rw [if_pos hguard]
    exact doubles_same rfl
  · rename_i hguard
    rw [if_neg hguard]
    split at h
    · rename_i hfit
      cases h
      rw [if_pos hfit]
      exact doubles_same rfl
    · rename_i hfit
      rw [if_neg hfit]
      split at h
      · rename_i hbig
        cases h
        rw [if_pos hbig]
        exact doubles_same rfl
      · rename_i hbig
        rw [if_neg hbig]
        refine (enlarge_doubles hs (doubled_lt_newSpace hspace) ?_ h).1
        apply Nat.mod_eq_of_lt
        dsimp only [maxChars, ssizeMax, sizeofWchar] at hbig ⊢
        omega

theorem copyIn_cookie {s s' : Stream α σ} {v : List α} (h : s.copyIn v = some s') :
    s'.cookie = s.cookie := by
  unfold Stream.copyIn at h
  split at h
  · cases h
    rfl
  · obtain ⟨heap, -, rfl⟩ := Option.map_eq_some_iff.mp h
    rfl

/-- No more than four times the text. -/
def Frugal (s : Stream α σ) : Prop := s.cookie.space < 4 * (s.cookie.len + 1)

theorem advance_frugal {s s' : Stream α σ} {n : ℕ} (hcookie : s'.cookie.len = s.cookie.len)
    (hspace : s'.cookie.space = s.cookie.space ∨ s'.cookie.space < 4 * (s'.cookie.pos + n + 1))
    (hs : Frugal s) : Frugal (s'.advance n) := by
  unfold Frugal at hs ⊢
  simp only [Stream.advance]
  rcases hspace with hspace | hspace <;> split <;> omega

theorem memstream_doubles {s s' : Stream UInt8 Unit} {b : List UInt8} {op : Op UInt8} {r : Reply}
    (hs : Sound ssizeMax s b) (hop : op.Fits) (hstep : memstreamFuncs.step s op = some (r, s')) :
    Doubles 1 s (memstreamRequests s op) s' ∧ (Frugal s → Frugal s') := by
  cases op with
  | write buf a =>
    obtain ⟨⟨n, s₁⟩, hwrite, heq⟩ := Option.map_eq_some_iff.mp hstep
    cases heq
    obtain ⟨⟨ok, s₂⟩, hgrow, hrest⟩ := Option.bind_eq_some_iff.mp hwrite
    obtain ⟨hdoubles, hpos, hlen, hspace⟩ := memstreamGrow_doubles hs hop hgrow
    cases ok with
    | false =>
      cases hrest
      refine ⟨hdoubles, fun hfrugal => ?_⟩
      rcases hspace with hspace | ⟨hok, -⟩
      · unfold Frugal
        rwa [hspace, hlen]
      · cases hok
    | true =>
      obtain ⟨s₃, hcopy, heq⟩ := Option.bind_eq_some_iff.mp hrest
      cases heq
      have hcookie := copyIn_cookie hcopy
      refine ⟨?_, advance_frugal (by rw [hcookie, hlen]) ?_⟩
      · have hweight : (s₃.advance buf.length).weight 1 = s₂.weight 1 := by
          simp only [Stream.weight, Stream.advance, hcookie]
        unfold Doubles
        rw [hweight]
        exact hdoubles
      · rw [hcookie, hpos]
        exact hspace.imp id And.right
  | seek offset whence =>
    obtain ⟨⟨target, s₁⟩, hseek, heq⟩ := Option.map_eq_some_iff.mp hstep
    cases heq
    change aoMemstreamSeek s offset whence = _ at hseek
    rw [aoMemstreamSeek_eq hs] at hseek
    split at hseek <;> cases hseek <;> exact ⟨doubles_same rfl, id⟩

theorem wmemstream_doubles (L : Locale) {s s' : Stream UInt32 L.State} {b : List UInt32}
    {op : Op UInt32} {r : Reply} (hs : Sound maxChars s b)
    (hstep : (wmemstreamFuncs L).step s op = some (r, s')) :
    Doubles sizeofWchar s (wmemstreamRequests s op) s' := by
  cases op with
  | write buf a =>
    obtain ⟨⟨n, s₁⟩, hwrite, heq⟩ := Option.map_eq_some_iff.mp hstep
    cases heq
    obtain ⟨⟨ok, s₂⟩, hgrow, hrest⟩ := Option.bind_eq_some_iff.mp hwrite
    have hdoubles := wmemstreamGrow_doubles hs hgrow
    cases ok with
    | false =>
      cases hrest
      exact hdoubles
    | true =>
      obtain ⟨s₃, hcopy, hrest⟩ := Option.bind_eq_some_iff.mp hrest
      have hspace : s₃.cookie.space = s₂.cookie.space := by rw [copyIn_cookie hcopy]
      unfold Doubles Stream.weight at hdoubles ⊢
      rw [← hspace] at hdoubles
      split at hrest <;> cases hrest <;> exact hdoubles
  | seek offset whence =>
    obtain ⟨⟨target, s₁⟩, hseek, heq⟩ := Option.map_eq_some_iff.mp hstep
    cases heq
    change aoWmemstreamSeek L s offset whence = _ at hseek
    rw [aoWmemstreamSeek_eq hs] at hseek
    split at hseek <;> cases hseek <;> exact doubles_same rfl

/-! ### All calls on a stream -/

theorem Doubles.append {s s' s'' : Stream α σ} {cs cs' : List (Clients.Op ℕ)}
    (h : Doubles width s cs s') (h' : Doubles width s' cs' s'') :
    Doubles width s (cs ++ cs') s'' := by
  unfold Doubles grantedSizes at *
  rw [List.filterMap_append, List.map_append]
  exact Grows.append h h'

section
variable [Zero α] {fs : IoFuncs α σ}
  {requests : Stream α σ → Op α → List (Clients.Op ℕ)}
  {Stored : Stream α σ → List UInt8 → Heap.Answer α → Prop} {s₀ s : Stream α σ} {b : List α}
  {cs : List (Clients.Op ℕ)}

theorem session_doubles (hl : Lawful cap fs Stored) (hs : Sound cap s₀ b) {Q : Stream α σ → Prop}
    (hstep : ∀ {s s' : Stream α σ} {b : List α} {op : Op α} {r : Reply}, Sound cap s b → op.Fits →
      fs.step s op = some (r, s') → Doubles width s (requests s op) s' ∧ (Q s → Q s'))
    (h : Session fs requests s₀ cs s) :
    (∃ b', Sound cap s b') ∧ Doubles width s₀ cs s ∧ (Q s₀ → Q s) := by
  induction h with
  | opened => exact ⟨⟨b, hs⟩, doubles_same rfl, id⟩
  | call h hop hcall ih =>
    obtain ⟨⟨b₁, hs₁⟩, hdoubles, hq⟩ := ih
    obtain ⟨hnext, hq'⟩ := hstep hs₁ hop hcall
    exact ⟨(hl.sound_step hs₁ hop hcall).1, hdoubles.append hnext, fun h₀ => hq' (hq h₀)⟩

end

/-- All blocks that the buffer had together, and their number, are bounded by its
space. -/
structure Amortised (width : ℕ) (cs : List (Clients.Op ℕ)) (s : Stream α σ) : Prop where
  bytes : (grantedSizes cs).sum ≤ 2 * width * s.cookie.space
  moves : 2 ^ (grantedSizes cs).length ≤ s.cookie.space + 1

theorem doubles_amortised {s₀ s : Stream α σ} {cs : List (Clients.Op ℕ)} (hwidth : width ≠ 0)
    (hstart : s₀.cookie.space = 0) (h : Doubles width s₀ cs s) : Amortised width cs s := by
  have hsum := h.sum
  have hpow := h.pow
  have htotal (l : List ℕ) : (l.map (· + width)).sum = l.sum + l.length * width := by
    induction l with
    | nil => simp
    | cons x l ih =>
      rw [List.map_cons, List.sum_cons, ih, List.sum_cons, List.length_cons]
      ring
  simp only [htotal, Stream.weight, hstart, Nat.zero_add, Nat.one_mul] at hsum
  simp only [List.length_map, Stream.weight, hstart, Nat.zero_add, Nat.one_mul, Nat.one_pow] at hpow
  refine ⟨?_, Nat.le_of_mul_le_mul_right hpow (Nat.pos_of_ne_zero hwidth)⟩
  have hlast : (1 + 1) * ((s.cookie.space + 1) * width) =
      2 * width * s.cookie.space + 2 * width := by ring
  omega

/-- Whatever is written and sought and whatever is refused: the blocks that a stream's
buffer had since the open take at most twice its space, and they are few. The narrow
stream has less than four times the space of its text. -/
theorem streams_amortised (locale : Locale) :
    (∀ w a s₀ cs s, openMemstream w a = some (.stream s₀) →
      Session memstreamFuncs memstreamRequests s₀ cs s →
      Amortised 1 cs s ∧ s.cookie.space < 4 * (s.cookie.len + 1)) ∧
    (∀ w a s₀ cs s, openWmemstream locale w a = some (.stream s₀) →
      Session (wmemstreamFuncs locale) wmemstreamRequests s₀ cs s →
      Amortised sizeofWchar cs s) := by
  constructor
  · intro w a s₀ cs s hopen hsession
    rw [openMemstream, openStream_eq w () a (by decide) (by decide)] at hopen
    obtain rfl := openResult_stream (Option.some.inj hopen)
    obtain ⟨-, hdoubles, hfrugal⟩ := session_doubles memstream_lawful
      (openedStream_sound ssizeMax w ()) memstream_doubles hsession
    exact ⟨doubles_amortised Nat.one_ne_zero rfl hdoubles, hfrugal (by decide : 0 < 4 * (0 + 1))⟩
  · intro w a s₀ cs s hopen hsession
    rw [openWmemstream, openStream_eq w locale.initial a (by decide) (by decide)] at hopen
    obtain rfl := openResult_stream (Option.some.inj hopen)
    obtain ⟨-, hdoubles, -⟩ := session_doubles (wmemstream_lawful locale)
      (openedStream_sound maxChars w locale.initial) (Q := fun _ => True)
      (fun hs _ hstep => ⟨wmemstream_doubles locale hs hstep, id⟩) hsession
    exact doubles_amortised (by decide) rfl hdoubles

/-- A text of two bytes. -/
theorem streams_amortised_two : ∃ cs s, Session memstreamFuncs memstreamRequests openedNarrow cs s ∧
    grantedSizes cs = [3] ∧ Amortised 1 cs s ∧ s.cookie.space < 4 * (s.cookie.len + 1) := by
  have hfits : Op.Fits (.write [104, 105] (grantedAll UInt8)) :=
    show [104, 105].length ≤ ssizeMax by decide
  have hwrite : Session memstreamFuncs memstreamRequests openedNarrow _ _ :=
    Session.opened.call hfits rfl
  exact ⟨_, _, hwrite, rfl, (streams_amortised ascii).1 _ _ _ _ _ openedNarrow_opens hwrite⟩

end LibcOverride.Memstream

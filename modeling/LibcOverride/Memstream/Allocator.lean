import LibcOverride.Memstream.Lifecycle
import LibcOverride.MockAllocator.Clients

/-!
# Both streams on the preloaded allocator
(src/memstream_overrides.c:28-66, 110-161, 210-306, src/mock_allocator.c:498-651)

The requests that the callbacks make, from the open to the close. Of the allocator's
blocks a stream owns its cookie and its buffer, and in the end the buffer is left.
-/

namespace LibcOverride.Memstream
open Function
open Clients (Sizes Uses)
open MockAllocator (State Ledger Loader Placement ServedTo Reachable)

variable {α σ : Type}

/-- The blocks of an open stream. -/
def Stream.sizes (sizeofCookie width : ℕ) (s : Stream α σ) : Sizes ℕ := fun p =>
  if p = s.self then some sizeofCookie
  else if p = s.cookie.buf then some (max 1 s.cookie.space * width) else none

/-! ### The requests -/

/-- Line 56 and line 151. -/
def enlargement (s : Stream α σ) (width n : ℕ) (a : Heap.Answer α) : Clients.Op ℕ :=
  .realloc (some s.cookie.buf) s.heap.next (Word.mul n width) (a.grants (Word.mul n width))

def memstreamRequests (s : Stream UInt8 Unit) : Op UInt8 → List (Clients.Op ℕ)
  | .write buf a =>
    if s.cookie.pos > Word.sub (Word.sub Word.sizeMax buf.length) 1 then []
    else
      let required := Word.add (Word.add s.cookie.pos buf.length) 1
      if required ≤ s.cookie.space then []
      else [enlargement s 1 (newSpace s.cookie.space required) a]
  | .seek _ _ => []

def wmemstreamRequests (s : Stream UInt32 σ) : Op UInt32 → List (Clients.Op ℕ)
  | .write buf a =>
    if s.cookie.pos > Word.sub (Word.sub maxChars buf.length) 1 then []
    else
      let required := Word.add (Word.add s.cookie.pos buf.length) 1
      if required ≤ s.cookie.space then []
      else
        let n := newSpace s.cookie.space required
        if n > maxChars then [] else [enlargement s sizeofWchar n a]
  | .seek _ _ => []

/-- Lines 230-257 and 274-302. -/
def openRequests (w : World α) (sizeofCookie width : ℕ) (a : OpenAnswers α) :
    List (Clients.Op ℕ) :=
  let self := w.heap.next
  let buf := w.heap.next + 1
  if a.cookie.grants sizeofCookie = false then [.malloc self sizeofCookie false]
  else if a.buf.grants width = false then
    [.malloc self sizeofCookie true, .malloc buf width false, .free self]
  else
    match a.fopencookie with
    | none => [.malloc self sizeofCookie true, .malloc buf width true]
    | some _ => [.malloc self sizeofCookie true, .malloc buf width true, .free buf, .free self]

/-! ### Growing -/

variable {cap sizeofCookie width n : ℕ} {s s' : Stream α σ} {b : List α} {a : Heap.Answer α}
  {ok : Bool}

theorem uses_none (h : s'.sizes sizeofCookie width = s.sizes sizeofCookie width) :
    Uses (s.sizes sizeofCookie width) [] (s'.sizes sizeofCookie width) := by
  rw [h]
  exact .nil

section
variable [Zero α]

theorem Sound.buf_lives (hs : Sound cap s b) :
    ∀ p ∈ some s.cookie.buf, s.sizes sizeofCookie width p ≠ none := by
  intro p hp
  obtain rfl := Option.some.inj hp
  rw [Stream.sizes, if_neg hs.apart.symm, if_pos rfl]
  exact Option.some_ne_none _

theorem Sound.self_lt (hs : Sound cap s b) : s.self < s.heap.next := by
  obtain ⟨c, hc⟩ := Option.isSome_iff_exists.mp hs.self
  exact Heap.lt_next_of_read hc

theorem Sound.next_free (hs : Sound cap s b) : s.sizes sizeofCookie width s.heap.next = none := by
  have hself := hs.self_lt
  have hbuf := Heap.lt_next_of_read hs.read
  rw [Stream.sizes, if_neg (by omega), if_neg (by omega)]

/-- The blocks after the buffer became a block of `n` elements. -/
theorem Sound.sizes_rebased (hs : Sound cap s b) {b' : List α} (hpos : 1 ≤ b'.length) :
    (s.rebased b').sizes sizeofCookie width =
      update ((s.sizes sizeofCookie width).drop (some s.cookie.buf)) s.heap.next
        (some (b'.length * width)) := by
  have hself := hs.self_lt
  funext p
  by_cases hp : p = s.heap.next
  · rw [hp, update_self]
    change (if s.heap.next = s.self then _ else if s.heap.next = s.heap.next then
      some (max 1 b'.length * width) else none) = _
    rw [if_neg (by omega), if_pos rfl, Nat.max_eq_right hpos]
  · rw [update_of_ne hp]
    change (if p = s.self then _ else if p = s.heap.next then _ else none) =
      update (s.sizes sizeofCookie width) s.cookie.buf none p
    rw [if_neg hp]
    by_cases hbuf : p = s.cookie.buf
    · rw [hbuf, update_self, if_neg hs.apart.symm]
    · rw [update_of_ne hbuf, Stream.sizes, if_neg hbuf]

theorem enlarge_uses (hs : Sound cap s b) (hn : s.cookie.space < n) (hwidth : width ≠ 0)
    (hmul : Word.mul n width = n * width) (h : enlarge s width n a = some (ok, s')) :
    Uses (s.sizes sizeofCookie width) [enlargement s width n a] (s'.sizes sizeofCookie width) := by
  have hsize : Word.mul n width ≠ 0 := by
    rw [hmul]
    exact Nat.mul_ne_zero (by omega) hwidth
  unfold enlargement
  cases hgrant : a.grants (Word.mul n width) with
  | false =>
    rw [enlarge_refused hs hgrant] at h
    cases h
    exact .one (.noRealloc hs.buf_lives hsize)
  | true =>
    rw [enlarge_granted hs hgrant hn] at h
    cases h
    have hlen : (b ++ List.replicate (n - b.length) (0 : α)).length = n := by
      have hb := hs.size
      rw [List.length_append, List.length_replicate]
      omega
    rw [hs.sizes_rebased (by omega), hlen, ← hmul]
    exact .one (.realloc hs.buf_lives hs.next_free)

end

/-! ### The callbacks -/

theorem memstreamGrow_uses (sizeofCookie : ℕ) {s s' : Stream UInt8 Unit} {b buf : List UInt8}
    {a : Heap.Answer UInt8} (hs : Sound ssizeMax s b)
    (h : aoMemstreamGrow s buf.length a = some (ok, s')) :
    Uses (s.sizes sizeofCookie 1) (memstreamRequests s (.write buf a)) (s'.sizes sizeofCookie 1) := by
  unfold aoMemstreamGrow at h
  unfold memstreamRequests
  dsimp only at h ⊢
  split at h
  · rename_i hguard
    cases h
    rw [if_pos hguard]
    exact uses_none rfl
  · rename_i hguard
    rw [if_neg hguard]
    split at h
    · rename_i hfit
      cases h
      rw [if_pos hfit]
      exact uses_none rfl
    · rename_i hfit
      rw [if_neg hfit]
      have hrequired : Word.add (Word.add s.cookie.pos buf.length) 1 < 2 ^ 64 :=
        Nat.mod_lt _ (by decide)
      refine enlarge_uses hs (space_lt_newSpace (Nat.lt_of_not_le hfit)) Nat.one_ne_zero ?_ h
      rw [Word.mul, Nat.mod_eq_of_lt (by rw [Nat.mul_one]; exact newSpace_lt _ hrequired)]

theorem wmemstreamGrow_uses (sizeofCookie : ℕ) {s s' : Stream UInt32 σ} {b : List UInt32}
    {buf : List UInt8} {a : Heap.Answer UInt32} (hs : Sound maxChars s b)
    (h : aoWmemstreamGrow s buf.length a = some (ok, s')) :
    Uses (s.sizes sizeofCookie sizeofWchar) (wmemstreamRequests s (.write buf a))
      (s'.sizes sizeofCookie sizeofWchar) := by
  unfold aoWmemstreamGrow at h
  unfold wmemstreamRequests
  dsimp only at h ⊢
  split at h
  · rename_i hguard
    cases h
    rw [if_pos hguard]
    exact uses_none rfl
  · rename_i hguard
    rw [if_neg hguard]
    split at h
    · rename_i hfit
      cases h
      rw [if_pos hfit]
      exact uses_none rfl
    · rename_i hfit
      rw [if_neg hfit]
      split at h
      · rename_i hbig
        cases h
        rw [if_pos hbig]
        exact uses_none rfl
      · rename_i hbig
        rw [if_neg hbig]
        refine enlarge_uses hs (space_lt_newSpace (Nat.lt_of_not_le hfit)) (by decide) ?_ h
        apply Nat.mod_eq_of_lt
        dsimp only [maxChars, ssizeMax, sizeofWchar] at hbig ⊢
        omega

theorem copyIn_sizes {v : List α} (h : s.copyIn v = some s') :
    s'.sizes sizeofCookie width = s.sizes sizeofCookie width := by
  unfold Stream.copyIn at h
  split at h
  · cases h
    rfl
  · obtain ⟨heap, -, rfl⟩ := Option.map_eq_some_iff.mp h
    rfl

/-- What a callback asks for is what it does to the stream's blocks. -/
def Pays [Zero α] (cap sizeofCookie width : ℕ) (fs : IoFuncs α σ)
    (requests : Stream α σ → Op α → List (Clients.Op ℕ)) : Prop :=
  ∀ {s s' : Stream α σ} {b : List α} {op : Op α} {r : Reply}, Sound cap s b → op.Fits →
    fs.step s op = some (r, s') →
    Uses (s.sizes sizeofCookie width) (requests s op) (s'.sizes sizeofCookie width)

theorem memstream_pays : Pays ssizeMax sizeofCookie 1 memstreamFuncs memstreamRequests := by
  intro s s' b op r hs hop hstep
  cases op with
  | write buf a =>
    obtain ⟨⟨n, s₁⟩, hwrite, heq⟩ := Option.map_eq_some_iff.mp hstep
    cases heq
    obtain ⟨⟨ok, s₂⟩, hgrow, hrest⟩ := Option.bind_eq_some_iff.mp hwrite
    have huses := memstreamGrow_uses sizeofCookie hs hgrow
    cases ok with
    | false =>
      cases hrest
      exact huses
    | true =>
      obtain ⟨s₃, hcopy, heq⟩ := Option.bind_eq_some_iff.mp hrest
      cases heq
      rwa [← copyIn_sizes hcopy] at huses
  | seek offset whence =>
    obtain ⟨⟨target, s₁⟩, hseek, heq⟩ := Option.map_eq_some_iff.mp hstep
    cases heq
    change aoMemstreamSeek s offset whence = _ at hseek
    rw [aoMemstreamSeek_eq hs] at hseek
    split at hseek <;> cases hseek <;> exact uses_none rfl

theorem wmemstream_pays (L : Locale) :
    Pays maxChars sizeofCookie sizeofWchar (wmemstreamFuncs L) wmemstreamRequests := by
  intro s s' b op r hs hop hstep
  cases op with
  | write buf a =>
    obtain ⟨⟨n, s₁⟩, hwrite, heq⟩ := Option.map_eq_some_iff.mp hstep
    cases heq
    obtain ⟨⟨ok, s₂⟩, hgrow, hrest⟩ := Option.bind_eq_some_iff.mp hwrite
    have huses := wmemstreamGrow_uses sizeofCookie hs hgrow
    cases ok with
    | false =>
      cases hrest
      exact huses
    | true =>
      obtain ⟨s₃, hcopy, hrest⟩ := Option.bind_eq_some_iff.mp hrest
      rw [← copyIn_sizes hcopy] at huses
      split at hrest <;> cases hrest <;> exact huses
  | seek offset whence =>
    obtain ⟨⟨target, s₁⟩, hseek, heq⟩ := Option.map_eq_some_iff.mp hstep
    cases heq
    change aoWmemstreamSeek L s offset whence = _ at hseek
    rw [aoWmemstreamSeek_eq hs] at hseek
    split at hseek <;> cases hseek <;> exact uses_none rfl

/-! ### From open to close -/

/-- The calls on an open stream, with all requests so far. -/
inductive Session (fs : IoFuncs α σ) (requests : Stream α σ → Op α → List (Clients.Op ℕ))
    (s₀ : Stream α σ) : List (Clients.Op ℕ) → Stream α σ → Prop
  | opened : Session fs requests s₀ [] s₀
  | call {cs : List (Clients.Op ℕ)} {s s' : Stream α σ} {op : Op α} {r : Reply}
    (h : Session fs requests s₀ cs s) (hop : op.Fits) (hstep : fs.step s op = some (r, s')) :
    Session fs requests s₀ (cs ++ requests s op) s'

/-- The published buffer. -/
def Stream.left (width : ℕ) (s : Stream α σ) : Sizes ℕ := fun p =>
  if p = s.cookie.buf then some (max 1 s.cookie.space * width) else none

section
variable [Zero α] {fs : IoFuncs α σ} {requests : Stream α σ → Op α → List (Clients.Op ℕ)}
  {Stored : Stream α σ → List UInt8 → Heap.Answer α → Prop} {s₀ : Stream α σ}
  {cs : List (Clients.Op ℕ)}

theorem session_uses (hl : Lawful cap fs Stored) (hp : Pays cap sizeofCookie width fs requests)
    (hs : Sound cap s₀ b) (h : Session fs requests s₀ cs s) :
    (∃ b', Sound cap s b') ∧ Uses (s₀.sizes sizeofCookie width) cs (s.sizes sizeofCookie width) := by
  induction h with
  | opened => exact ⟨⟨b, hs⟩, .nil⟩
  | call h hop hstep ih =>
    obtain ⟨⟨b₁, hs₁⟩, huses⟩ := ih
    exact ⟨(hl.sound_step hs₁ hop hstep).1, huses.append (hp hs₁ hop hstep)⟩

theorem close_uses (hs : Sound cap s b) :
    Uses (s.sizes sizeofCookie width) [.free s.self] (s.left width) := by
  have hself : s.sizes sizeofCookie width s.self ≠ none := by
    rw [Stream.sizes, if_pos rfl]
    exact Option.some_ne_none _
  have hleft : s.left width = update (s.sizes sizeofCookie width) s.self none := by
    funext p
    by_cases hp : p = s.self
    · rw [hp, update_self, Stream.left, if_neg hs.apart]
    · rw [update_of_ne hp, Stream.left, Stream.sizes, if_neg hp]
  rw [hleft]
  exact .one (.free hself)

/-- The blocks that an open leaves to the stream. -/
def Opened.sizes (sizeofCookie width : ℕ) : Opened α σ → Sizes ℕ
  | .null _ => fun _ => none
  | .stream s => s.sizes sizeofCookie width

theorem open_uses (w : World α) (state : σ) (a : OpenAnswers α) (hc : sizeofCookie ≤ ptrdiffMax)
    (hw : width ≤ ptrdiffMax) :
    Uses (fun _ => none) (openRequests w sizeofCookie width a)
      ((openResult w state a).sizes sizeofCookie width) := by
  have hcookie : a.cookie.grants sizeofCookie = a.cookie.granted := by
    simp [Heap.Answer.grants, hc]
  have hbuf : a.buf.grants width = a.buf.granted := by simp [Heap.Answer.grants, hw]
  have hne : w.heap.next + 1 ≠ w.heap.next := Nat.succ_ne_self _
  have hself : Clients.Step (fun _ => none) (.malloc w.heap.next sizeofCookie true)
      (update (fun _ => none) w.heap.next (some sizeofCookie)) := .malloc rfl
  have hboth : Clients.Step (update (fun _ => none) w.heap.next (some sizeofCookie))
      (.malloc (w.heap.next + 1) width true)
      (update (update (fun _ => none) w.heap.next (some sizeofCookie)) (w.heap.next + 1)
        (some width)) := .malloc (update_of_ne hne _ _)
  have hundo (σ : Sizes ℕ) (k size : ℕ) (hk : σ k = none) :
      Clients.Step (update σ k (some size)) (.free k) σ := by
    have hlive : update σ k (some size) k ≠ none := by
      rw [update_self]
      exact Option.some_ne_none _
    have hfree := Clients.Step.free hlive
    rwa [update_idem, ← hk, update_eq_self] at hfree
  unfold openRequests openResult
  dsimp only
  rw [hcookie, hbuf]
  split
  · exact .one .noMalloc
  · split
    · exact .cons hself (.cons .noMalloc (.one (hundo _ _ _ rfl)))
    · cases a.fopencookie with
      | none =>
        have hopened : (Opened.stream (openedStream w state)).sizes sizeofCookie width =
            update (update (fun _ => none) w.heap.next (some sizeofCookie)) (w.heap.next + 1)
              (some width) := by
          funext p
          change (if p = w.heap.next then some sizeofCookie
            else if p = w.heap.next + 1 then some (max 1 0 * width) else none) = _
          by_cases hp : p = w.heap.next
          · rw [if_pos hp, hp, update_of_ne hne.symm, update_self]
          · rw [if_neg hp]
            by_cases hq : p = w.heap.next + 1
            · rw [if_pos hq, hq, update_self, Nat.max_eq_left (Nat.zero_le 1), Nat.one_mul]
            · rw [if_neg hq, update_of_ne hq, update_of_ne hp]
        rw [hopened]
        exact .cons hself (.one hboth)
      | some e =>
        exact .cons hself (.cons hboth (.cons (hundo _ _ _ (update_of_ne hne _ _))
          (.one (hundo _ _ _ rfl))))

/-- An open that fails leaves the allocator as it was for others; a stream that was
opened and closed leaves its published buffer there, with room for the text and its
terminator. -/
def LifeServed (fs : IoFuncs α σ) (requests : Stream α σ → Op α → List (Clients.Op ℕ))
    (sizeofCookie width : ℕ) (w : World α) (a : OpenAnswers α)
    (serves : List (Clients.Op ℕ) → Sizes ℕ → Prop) : Opened α σ → Prop
  | .null _ => serves (openRequests w sizeofCookie width a) fun _ => none
  | .stream s₀ => ∀ cs s w', Session fs requests s₀ cs s → fs.close s = some w' →
    serves (openRequests w sizeofCookie width a ++ cs ++ [.free s.self]) (s.left width) ∧
      w'.bufp = some s.cookie.buf ∧ s.cookie.len < max 1 s.cookie.space

theorem life_served (hl : Lawful cap fs Stored) (hp : Pays cap sizeofCookie width fs requests)
    (hc : sizeofCookie ≤ ptrdiffMax) (hw : width ≤ ptrdiffMax) {ld : Loader} (P : Placement)
    {t : State} {L : Ledger} (ht : Reachable ld t L) (place : ℕ → ℕ) (w : World α) (state : σ)
    (a : OpenAnswers α) :
    LifeServed fs requests sizeofCookie width w a (ServedTo ld P L.map place t L)
      (openResult w state a) := by
  have hstart := MockAllocator.provided_nothing (MockAllocator.tracks_run ht) place
  have hopen := open_uses w state a hc hw
  cases hres : openResult w state a with
  | null w' =>
    rw [hres] at hopen
    exact MockAllocator.uses_served ld P hstart hopen
  | stream s₀ =>
    intro cs s w' hsession hclose
    obtain rfl := openResult_stream hres
    rw [hres] at hopen
    obtain ⟨⟨b, hs⟩, huses⟩ := session_uses hl hp (openedStream_sound cap w state) hsession
    rw [hl.close, closeStream_eq hs] at hclose
    cases hclose
    have hsize := hs.size
    have hlen := hs.len
    exact ⟨MockAllocator.uses_served ld P hstart ((hopen.append huses).append (close_uses hs)),
      hs.bufp, by omega⟩

end

/-- On the preloaded allocator, wherever it puts the blocks: whatever fails and
whatever is called in between. -/
theorem streams_served {ld : Loader} (P : Placement) {t : State} {L : Ledger}
    (ht : Reachable ld t L) (place : ℕ → ℕ) (locale : Locale) :
    (∀ w a o, openMemstream w a = some o → LifeServed memstreamFuncs memstreamRequests 48 1 w a
      (ServedTo ld P L.map place t L) o) ∧
    (∀ w a o, openWmemstream locale w a = some o →
      LifeServed (wmemstreamFuncs locale) wmemstreamRequests 56 sizeofWchar w a
        (ServedTo ld P L.map place t L) o) := by
  constructor
  · intro w a o hopen
    rw [openMemstream, openStream_eq w () a (by decide) (by decide)] at hopen
    cases hopen
    exact life_served memstream_lawful memstream_pays (by decide) (by decide) P ht place w () a
  · intro w a o hopen
    rw [openWmemstream, openStream_eq w locale.initial a (by decide) (by decide)] at hopen
    cases hopen
    exact life_served (wmemstream_lawful locale) (wmemstream_pays locale) (by decide) (by decide) P
      ht place w locale.initial a

/-- Both streams with the text `"ab"`. -/
theorem streams_served_written :
    ServedTo MockAllocator.sampleLoader MockAllocator.Placement.behind Ledger.empty.map (fun _ => 0)
      (MockAllocator.initState MockAllocator.sampleBootstrap ∅) Ledger.empty
      [.malloc 0 48 true, .malloc 1 1 true, .realloc (some 1) 2 3 true, .free 0]
      (fun p => if p = 2 then some 3 else none) ∧
    ServedTo MockAllocator.sampleLoader MockAllocator.Placement.behind Ledger.empty.map (fun _ => 0)
      (MockAllocator.initState MockAllocator.sampleBootstrap ∅) Ledger.empty
      [.malloc 0 56 true, .malloc 1 4 true, .realloc (some 1) 2 12 true, .free 0]
      (fun p => if p = 2 then some 12 else none) := by
  have hreach : Reachable MockAllocator.sampleLoader
      (MockAllocator.initState MockAllocator.sampleBootstrap ∅) Ledger.empty :=
    .start _ _ (by simp)
  obtain ⟨hnarrow, hwide⟩ :=
    streams_served MockAllocator.Placement.behind hreach (fun _ => 0) ascii
  have hfits : [97, 98].length ≤ ssizeMax := Nat.le_of_ble_eq_true rfl
  constructor
  · have hwrite : Session memstreamFuncs memstreamRequests openedNarrow _ _ :=
      Session.opened.call (show Op.Fits (.write [97, 98] (grantedAll UInt8)) from hfits) rfl
    exact (hnarrow _ _ _ openedNarrow_opens _ _ _ hwrite rfl).1
  · have hwrite : Session (wmemstreamFuncs ascii) wmemstreamRequests openedWide _ _ :=
      Session.opened.call (show Op.Fits (.write [97, 98] (grantedAll UInt32)) from hfits) rfl
    exact (hwide _ _ _ openedWide_opens _ _ _ hwrite rfl).1

end LibcOverride.Memstream

import LibcOverride.Memstream.Contents
import LibcOverride.Memstream.Conversion
import Mathlib.Data.List.Induction

/-!
# What open_wmemstream stores
(src/memstream_overrides.c:163-208, 262-306)
-/

namespace LibcOverride.Memstream
open Buffer

variable {L : Locale}

/-- The stream after a conversion into a buffer with room. -/
def converted (s : Stream UInt32 L.State) (b : List UInt32) (r : Converted L.State) :
    Stream UInt32 L.State :=
  (s.put (overwritten b s.cookie.pos r.stored)).withState r.state

theorem aoWmemstreamWrite_cases {s : Stream UInt32 L.State} {b : List UInt32}
    (hs : Sound maxChars s b) {buf : List UInt8} (hlen : buf.length ≤ ssizeMax)
    (a : Heap.Answer UInt32) :
    ¬ Room maxChars s buf.length a ∧ aoWmemstreamWrite L s buf a = some (0, s.fail .enomem) ∨
      Room maxChars s buf.length a ∧ ∃ s' b' room,
        Roomy maxChars s b (s.cookie.pos + buf.length + 1) s' b' ∧ buf.length ≤ room ∧
        aoWmemstreamWrite L s buf a =
          match (L.mbsnrtowcs s.cookie.state buf room).result with
          | none => some (0, (converted s' b' (L.mbsnrtowcs s.cookie.state buf room)).fail .eilseq)
          | some n => some (buf.length,
              (converted s' b' (L.mbsnrtowcs s.cookie.state buf room)).advance n) := by
  rcases aoWmemstreamGrow_spec hs hlen a with ⟨hr, hg⟩ | ⟨hr, s', b', hg, hgrown⟩
  · refine Or.inl ⟨hr, ?_⟩
    simp [aoWmemstreamWrite, hg]
  · have hroomy := hgrown.roomy hs
    have hspace := hroomy.room
    have hpos := hroomy.pos
    refine Or.inr ⟨hr, s', b', s'.cookie.space - s'.cookie.pos, hroomy, by omega, ?_⟩
    have hstored := Locale.stored_length s.cookie.state buf (s'.cookie.space - s'.cookie.pos)
    have hcopy := copyIn_eq hroomy.sound
      (v := (L.mbsnrtowcs s.cookie.state buf (s'.cookie.space - s'.cookie.pos)).stored) (by omega)
    simp only [aoWmemstreamWrite, hg, Option.bind_eq_bind, Option.bind_some, hroomy.state, hcopy]
    rfl

theorem aoWmemstreamSeek_eq {s : Stream UInt32 L.State} {b : List UInt32} (hs : Sound maxChars s b)
    (offset whence : ℤ) :
    aoWmemstreamSeek L s offset whence = some (if Reaches maxChars s offset whence then
      (some (base s whence + offset), { s with cookie :=
        { s.cookie with pos := (base s whence + offset).toNat, state := L.initial } })
      else (none, s.fail .einval)) := by
  have hlen := hs.len
  have hsize := hs.size
  have hspace := hs.space
  have hle : s.cookie.len ≤ maxChars := by omega
  rw [aoWmemstreamSeek, seekTo_eq (by decide) hs.pos hle, Option.map_some]
  by_cases hr : Reaches maxChars s offset whence
  · simp only [if_pos hr]
    rfl
  · simp only [if_neg hr]

/-- A conversion leaves the stream sound, whatever it stored. -/
theorem converted_sound {s s' : Stream UInt32 L.State} {b b' : List UInt32} {len : ℕ}
    (hr : Roomy maxChars s b (s.cookie.pos + len + 1) s' b') {r : Converted L.State}
    (hstored : r.stored.length ≤ len) :
    Sound maxChars (converted s' b' r) (overwritten b' s'.cookie.pos r.stored) := by
  have hroom := hr.room
  have hpos := hr.pos
  have hsize := hr.sound.size
  exact (hr.sound.put (length_overwritten (by omega)) (by omega)).withState r.state

theorem wmemstream_step {s : Stream UInt32 L.State} {b : List UInt32} (hs : Sound maxChars s b)
    {op : Op UInt32} (hop : op.Fits) :
    ∃ r s' b', (wmemstreamFuncs L).step s op = some (r, s') ∧ Sound maxChars s' b' ∧
      ∀ h₀, Owns h₀ s → Owns h₀ s' := by
  cases op with
  | write buf a =>
    rcases aoWmemstreamWrite_cases hs hop a with ⟨-, hw⟩ | ⟨-, s', b', room, hr, -, hw⟩
    · refine ⟨.wrote 0, _, b, ?_, hs.fail .enomem, fun _ ho => ho.of_eq rfl rfl rfl⟩
      simp [IoFuncs.step, wmemstreamFuncs, hw]
    · have hstored := Locale.stored_length s.cookie.state buf room (L := L)
      have hsound := converted_sound hr hstored
      have howns (h₀ : Heap (List UInt32)) (ho : Owns h₀ s) :
          Owns h₀ (s'.put (overwritten b' s'.cookie.pos
            (L.mbsnrtowcs s.cookie.state buf room).stored)) :=
        (hr.owns h₀ ho).put hr.sound _
      cases hres : (L.mbsnrtowcs s.cookie.state buf room).result with
      | none =>
        refine ⟨.wrote 0, _, _, ?_, hsound.fail .eilseq,
          fun h₀ ho => (howns h₀ ho).of_eq rfl rfl rfl⟩
        simp [IoFuncs.step, wmemstreamFuncs, hw, hres]
      | some n =>
        have hn := Locale.result_le hres
        have hroom := hr.room
        have hpos := hr.pos
        refine ⟨.wrote buf.length, _, _, ?_, hsound.advance (n := n) ?_,
          fun h₀ ho => (howns h₀ ho).of_eq rfl rfl rfl⟩
        · simp only [IoFuncs.step, wmemstreamFuncs, hw, hres, Option.map_some]
        · change s'.cookie.pos + n < s'.cookie.space
          omega
  | seek offset whence =>
    have heq := aoWmemstreamSeek_eq hs offset whence
    by_cases hr : Reaches maxChars s offset whence
    · have hp := hr.toNat_le
      refine ⟨.sought (some (base s whence + offset)), _, b, ?_, (hs.at_pos hp).withState L.initial,
        fun _ ho => ho.of_eq rfl rfl rfl⟩
      simp only [IoFuncs.step, wmemstreamFuncs, heq, hr, if_true, Option.map_some]
      rfl
    · refine ⟨.sought none, _, b, ?_, hs.fail .einval, fun _ ho => ho.of_eq rfl rfl rfl⟩
      simp [IoFuncs.step, wmemstreamFuncs, heq, hr]

/-- Soundness along a run of calls that fit. -/
theorem wmemstream_runs_sound {K : Stream UInt32 L.State → Op UInt32 → Prop}
    (hK : ∀ s op, K s op → op.Fits) {s₀ s : Stream UInt32 L.State} {b₀ : List UInt32}
    {ops : List (Op UInt32)} (hs : Sound maxChars s₀ b₀) (h : (wmemstreamFuncs L).Runs K s₀ ops s) :
    ∃ b, Sound maxChars s b := by
  induction h with
  | opened => exact ⟨b₀, hs⟩
  | call h hk hstep ih =>
    obtain ⟨b, hb⟩ := ih
    obtain ⟨r, s', b', hstep', hb', -⟩ := wmemstream_step hb (hK _ _ hk)
    rw [hstep] at hstep'
    cases hstep'
    exact ⟨b', hb'⟩

theorem IoFuncs.Runs.last {α σ : Type} {fs : IoFuncs α σ} {K : Stream α σ → Op α → Prop}
    {s₀ s : Stream α σ} {ops : List (Op α)} {op : Op α} (h : fs.Runs K s₀ (ops ++ [op]) s) :
    ∃ s₁ r, fs.Runs K s₀ ops s₁ ∧ K s₁ op ∧ fs.step s₁ op = some (r, s) := by
  generalize hall : ops ++ [op] = all at h
  cases h with
  | opened => simp at hall
  | call h hk hstep =>
    obtain ⟨rfl, heq⟩ := List.append_inj' hall rfl
    cases heq
    exact ⟨_, _, h, hk, hstep⟩

theorem IoFuncs.Runs.nil {α σ : Type} {fs : IoFuncs α σ} {K : Stream α σ → Op α → Prop}
    {s₀ s : Stream α σ} (h : fs.Runs K s₀ [] s) : s = s₀ := by
  generalize hall : ([] : List (Op α)) = all at h
  cases h with
  | opened => rfl
  | call h hk hstep => simp at hall

/-! ### Whole lists of characters -/

/-- A list of characters, `L'\0'` among them, and its encoding. -/
structure Text (L : Locale) where
  chars : List UInt32
  bytes : List UInt8
  encodes : Locale.Encodes L L.initial chars bytes L.initial
  fits : bytes.length ≤ ssizeMax

inductive TextOp (L : Locale) where
  | write (t : Text L) (a : Heap.Answer UInt32)
  | seek (offset whence : ℤ)

def TextOp.op : TextOp L → Op UInt32
  | .write t a => .write t.bytes a
  | .seek offset whence => .seek offset whence

def TextOp.NullFree : TextOp L → Prop
  | .write t _ => 0 ∉ t.chars
  | .seek _ _ => True

/-- Memory does not run out in the call. -/
def Supplied {σ : Type} (s : Stream UInt32 σ) : Op UInt32 → Prop
  | .write buf a => Room maxChars s buf.length a
  | .seek _ _ => True

/-- A run in which every write returned its byte count and is a write of all its
characters to the file. -/
inductive Stores (L : Locale) (s₀ : Stream UInt32 L.State) :
    List (TextOp L) → Stream UInt32 L.State → SparseFile UInt32 → Prop where
  | opened (h : Presents s₀ .empty) : Stores L s₀ [] s₀ .empty
  | wrote {ops : List (TextOp L)} {s s' : Stream UInt32 L.State} {f : SparseFile UInt32} {t : Text L}
    {a : Heap.Answer UInt32} (h : Stores L s₀ ops s f)
    (hstep : (wmemstreamFuncs L).step s (.write t.bytes a) = some (.wrote t.bytes.length, s'))
    (hp : Presents s' (f.write t.chars)) : Stores L s₀ (ops ++ [.write t a]) s' (f.write t.chars)
  | sought {ops : List (TextOp L)} {s s' : Stream UInt32 L.State} {f : SparseFile UInt32}
    {offset whence target : ℤ} (h : Stores L s₀ ops s f)
    (hstep : (wmemstreamFuncs L).step s (.seek offset whence) = some (.sought (some target), s'))
    (hp : Presents s' (f.seek target.toNat)) :
    Stores L s₀ (ops ++ [.seek offset whence]) s' (f.seek target.toNat)
  | stayed {ops : List (TextOp L)} {s s' : Stream UInt32 L.State} {f : SparseFile UInt32}
    {offset whence : ℤ} (h : Stores L s₀ ops s f)
    (hstep : (wmemstreamFuncs L).step s (.seek offset whence) = some (.sought none, s'))
    (hp : Presents s' f) : Stores L s₀ (ops ++ [.seek offset whence]) s' f

theorem Stores.presents {s₀ s : Stream UInt32 L.State} {ops : List (TextOp L)}
    {f : SparseFile UInt32} (h : Stores L s₀ ops s f) : Presents s f := by
  cases h with
  | opened hp => exact hp
  | wrote h hstep hp => exact hp
  | sought h hstep hp => exact hp
  | stayed h hstep hp => exact hp

theorem TextOp.fits (op : TextOp L) : op.op.Fits := by
  cases op with
  | write t a => exact t.fits
  | seek offset whence => trivial

/-- Between texts the conversion state is the initial one. -/
theorem text_state {s s' : Stream UInt32 L.State} {b : List UInt32} {r : Reply}
    (hs : Sound maxChars s b) (hstate : s.cookie.state = L.initial) {op : TextOp L}
    (hstep : (wmemstreamFuncs L).step s op.op = some (r, s')) : s'.cookie.state = L.initial := by
  cases op with
  | write t a =>
    rcases aoWmemstreamWrite_cases hs t.fits a with ⟨-, hw⟩ | ⟨-, s₁, b₁, room, -, hroom, hw⟩
    · simp only [IoFuncs.step, wmemstreamFuncs, TextOp.op, hw, Option.map_some, Option.some.injEq,
        Prod.mk.injEq] at hstep
      rw [← hstep.2]
      exact hstate
    · rw [hstate] at hw
      by_cases hnull : 0 ∈ t.chars
      · obtain ⟨n, -, hres, hst⟩ := Locale.mbsnrtowcs_null t.encodes hroom hnull
        simp only [IoFuncs.step, wmemstreamFuncs, TextOp.op, hw, hres, Option.map_some,
          Option.some.injEq, Prod.mk.injEq] at hstep
        rw [← hstep.2]
        exact hst
      · have htext := Locale.mbsnrtowcs_text t.encodes hroom hnull
        simp only [IoFuncs.step, wmemstreamFuncs, TextOp.op, hw, htext, Option.map_some,
          Option.some.injEq, Prod.mk.injEq] at hstep
        rw [← hstep.2]
        rfl
  | seek offset whence =>
    have heq := aoWmemstreamSeek_eq hs offset whence
    by_cases hr : Reaches maxChars s offset whence
    · simp only [IoFuncs.step, wmemstreamFuncs, TextOp.op, heq, hr, if_true, Option.map_some,
        Option.some.injEq, Prod.mk.injEq] at hstep
      rw [← hstep.2]
    · simp only [IoFuncs.step, wmemstreamFuncs, TextOp.op, heq, hr, if_false, Option.map_some,
        Option.some.injEq, Prod.mk.injEq] at hstep
      rw [← hstep.2]
      exact hstate

theorem text_step {s s' : Stream UInt32 L.State} {b : List UInt32} {r : Reply}
    (hs : Sound maxChars s b) (hstate : s.cookie.state = L.initial) (op : TextOp L)
    (hstep : (wmemstreamFuncs L).step s op.op = some (r, s')) :
    (∃ b', Sound maxChars s' b') ∧ s'.cookie.state = L.initial := by
  obtain ⟨r', s'', b', hstep', hb', -⟩ := wmemstream_step hs op.fits
  rw [hstep] at hstep'
  cases hstep'
  exact ⟨⟨b', hb'⟩, text_state hs hstate hstep⟩

/-- A text without a null is stored whole. -/
theorem store_text {s : Stream UInt32 L.State} {b : List UInt32} {f : SparseFile UInt32}
    (hs : Sound maxChars s b) (hf : Shows s b f) (hstate : s.cookie.state = L.initial) {t : Text L}
    {a : Heap.Answer UInt32} (hroom : Room maxChars s t.bytes.length a) (hnull : 0 ∉ t.chars) :
    ∃ s' b', (wmemstreamFuncs L).step s (.write t.bytes a) = some (.wrote t.bytes.length, s') ∧
      Sound maxChars s' b' ∧ Shows s' b' (f.write t.chars) := by
  rcases aoWmemstreamWrite_cases hs t.fits a with ⟨hno, -⟩ | ⟨-, s₁, b₁, room, hr, hle, hw⟩
  · exact absurd hroom hno
  · have htext := Locale.mbsnrtowcs_text t.encodes hle hnull
    have hlen := t.encodes.length_le
    obtain ⟨-, hsound, hshows⟩ := stored (v := t.chars) hs hf hr (by omega) L.initial
    rw [hstate, htext] at hw
    rw [← hr.pos] at hsound hshows
    refine ⟨_, _, ?_, hsound, hshows⟩
    simp only [IoFuncs.step, wmemstreamFuncs, hw, Option.map_some]
    rfl

theorem stores_of_nullFree {s₀ s : Stream UInt32 L.State} {b₀ : List UInt32}
    (hs₀ : Sound maxChars s₀ b₀) (hf₀ : Shows s₀ b₀ .empty) (hstate₀ : s₀.cookie.state = L.initial)
    (ops : List (TextOp L)) (hnull : ∀ op ∈ ops, op.NullFree)
    (hrun : (wmemstreamFuncs L).Runs Supplied s₀ (ops.map TextOp.op) s) :
    ∃ b f, Stores L s₀ ops s f ∧ Sound maxChars s b ∧ Shows s b f ∧ s.cookie.state = L.initial := by
  induction ops using List.reverseRecOn generalizing s with
  | nil =>
    obtain rfl := hrun.nil
    exact ⟨b₀, .empty, .opened (hf₀.presents hs₀), hs₀, hf₀, hstate₀⟩
  | append_singleton ops op ih =>
    rw [List.map_append, List.map_singleton] at hrun
    obtain ⟨s₁, r, hrun₁, hk, hstep⟩ := hrun.last
    obtain ⟨b, f, hstores, hsound, hshows, hstate⟩ :=
      ih (fun o ho => hnull o (List.mem_append_left _ ho)) hrun₁
    have hst := text_state hsound hstate hstep
    cases op with
    | write t a =>
      have ht : 0 ∉ t.chars := hnull (.write t a) (by simp)
      obtain ⟨s', b', hstep', hsound', hshows'⟩ := store_text hsound hshows hstate hk ht
      rw [TextOp.op, hstep'] at hstep
      cases hstep
      exact ⟨b', _, .wrote hstores hstep' (hshows'.presents hsound'), hsound', hshows', hst⟩
    | seek offset whence =>
      have heq := aoWmemstreamSeek_eq hsound offset whence
      have hstep' := hstep
      by_cases hr : Reaches maxChars s₁ offset whence
      · have hp : (base s₁ whence + offset).toNat ≤ maxChars := by
          have h2 := hr.2.2
          omega
        simp only [IoFuncs.step, wmemstreamFuncs, TextOp.op, heq, hr, if_true, Option.map_some,
          Option.some.injEq, Prod.mk.injEq] at hstep'
        obtain ⟨rfl, rfl⟩ := hstep'
        have hsound' := (hsound.at_pos hp).withState L.initial
        have hshows' := hshows.seek (base s₁ whence + offset).toNat L.initial
        exact ⟨b, _, .sought hstores hstep (hshows'.presents hsound'), hsound', hshows', hst⟩
      · simp only [IoFuncs.step, wmemstreamFuncs, TextOp.op, heq, hr, if_false, Option.map_some,
          Option.some.injEq, Prod.mk.injEq] at hstep'
        obtain ⟨rfl, rfl⟩ := hstep'
        have hsound' := hsound.fail .einval
        have hshows' := hshows.fail .einval
        exact ⟨b, f, .stayed hstores hstep (hshows'.presents hsound'), hsound', hshows', hst⟩

/-- A text with a null moves the position by less than its length. -/
theorem not_stored_of_null {s s' : Stream UInt32 L.State} {b : List UInt32} {f : SparseFile UInt32}
    (hs : Sound maxChars s b) (hp : Presents s f) (hstate : s.cookie.state = L.initial) {t : Text L}
    {a : Heap.Answer UInt32} (hnull : 0 ∈ t.chars)
    (hstep : (wmemstreamFuncs L).step s (.write t.bytes a) = some (.wrote t.bytes.length, s')) :
    ¬ Presents s' (f.write t.chars) := by
  intro hp'
  rcases aoWmemstreamWrite_cases hs t.fits a with ⟨-, hw⟩ | ⟨-, s₁, b₁, room, hr, hle, hw⟩
  · have hlen := t.encodes.length_le
    have hpos := List.length_pos_of_mem hnull
    simp only [IoFuncs.step, wmemstreamFuncs, hw, Option.map_some, Option.some.injEq,
      Prod.mk.injEq, Reply.wrote.injEq] at hstep
    omega
  · obtain ⟨n, hn, hres, -⟩ := Locale.mbsnrtowcs_null t.encodes hle hnull
    rw [hstate] at hw
    simp only [IoFuncs.step, wmemstreamFuncs, hw, hres, Option.map_some, Option.some.injEq,
      Prod.mk.injEq] at hstep
    have hpos : s'.cookie.pos = s₁.cookie.pos + n := by
      rw [← hstep.2]
      rfl
    have hfile : s'.cookie.pos = f.pos + t.chars.length := hp'.pos
    have hold := hp.pos
    have hkept := hr.pos
    omega

theorem nullFree_of_stores {s₀ s : Stream UInt32 L.State} {b₀ : List UInt32}
    (hs₀ : Sound maxChars s₀ b₀) (hstate₀ : s₀.cookie.state = L.initial) {ops : List (TextOp L)}
    {f : SparseFile UInt32} (h : Stores L s₀ ops s f) :
    (∀ op ∈ ops, op.NullFree) ∧ (∃ b, Sound maxChars s b) ∧ s.cookie.state = L.initial := by
  induction h with
  | opened => exact ⟨by simp, ⟨b₀, hs₀⟩, hstate₀⟩
  | wrote h hstep hp ih =>
    rename_i ops s s' f t a
    obtain ⟨hnull, ⟨b, hb⟩, hstate⟩ := ih
    have hfree : 0 ∉ t.chars := fun hmem => not_stored_of_null hb h.presents hstate hmem hstep hp
    refine ⟨List.forall_mem_append.mpr ⟨hnull, List.forall_mem_singleton.mpr hfree⟩, ?_⟩
    exact text_step hb hstate (.write t a) hstep
  | sought h hstep hp ih =>
    rename_i ops s s' f offset whence target
    obtain ⟨hnull, ⟨b, hb⟩, hstate⟩ := ih
    refine ⟨List.forall_mem_append.mpr ⟨hnull, List.forall_mem_singleton.mpr trivial⟩, ?_⟩
    exact text_step hb hstate (.seek offset whence) hstep
  | stayed h hstep hp ih =>
    rename_i ops s s' f offset whence
    obtain ⟨hnull, ⟨b, hb⟩, hstate⟩ := ih
    refine ⟨List.forall_mem_append.mpr ⟨hnull, List.forall_mem_singleton.mpr trivial⟩, ?_⟩
    exact text_step hb hstate (.seek offset whence) hstep

/-- Where memory does not run out, all characters of all writes are stored if
and only if none of them is `L'\0'`. -/
theorem wmemstream_stores_all_iff {w : World UInt32} {a : OpenAnswers UInt32}
    {s₀ s : Stream UInt32 L.State} (hopen : openWmemstream L w a = some (.stream s₀))
    (ops : List (TextOp L))
    (hrun : (wmemstreamFuncs L).Runs Supplied s₀ (ops.map TextOp.op) s) :
    (∃ f, Stores L s₀ ops s f) ↔ ∀ op ∈ ops, op.NullFree := by
  rw [openWmemstream, openStream_eq w L.initial a (by decide) (by decide)] at hopen
  have hs₀ := openResult_stream (Option.some.inj hopen)
  subst hs₀
  have hsound := openedStream_sound maxChars w L.initial
  constructor
  · intro h
    obtain ⟨f, hf⟩ := h
    exact (nullFree_of_stores hsound rfl hf).1
  · intro h
    obtain ⟨-, f, hf, -⟩ :=
      stores_of_nullFree hsound (openedStream_shows w L.initial) rfl ops h hrun
    exact ⟨f, hf⟩

/-- The locale of seven-bit characters. -/
def ascii : Locale where
  State := Unit
  initial := ()
  feed _ b := if b < 128 then .char b.toUInt32 () else .invalid
  absorbs := true
  spoilt _ _ := ()

theorem ascii_encodes {b : UInt8} {cs : List UInt32} {bytes : List UInt8} (hb : b < 128)
    (h : Locale.Encodes ascii () cs bytes ()) :
    Locale.Encodes ascii () (b.toUInt32 :: cs) (b :: bytes) () :=
  .cons (.last (if_pos hb)) h

theorem ascii_nil : Locale.Encodes ascii () [] [] () := @Locale.Encodes.nil ascii ()

def textA : Text ascii :=
  ⟨[97], [97], ascii_encodes (b := 97) (by decide) ascii_nil, Nat.le_of_ble_eq_true rfl⟩

def textAb : Text ascii :=
  ⟨[97, 98], [97, 98], ascii_encodes (b := 97) (by decide) (ascii_encodes (b := 98) (by decide) ascii_nil),
    Nat.le_of_ble_eq_true rfl⟩

/-- `L"\0a"`. -/
def textNull : Text ascii :=
  ⟨[0, 97], [0, 97], ascii_encodes (b := 0) (by decide) (ascii_encodes (b := 97) (by decide) ascii_nil),
    Nat.le_of_ble_eq_true rfl⟩

def openedWide : Stream UInt32 ascii.State := openedStream (emptyWorld UInt32) ()

theorem openedWide_opens : openWmemstream ascii (emptyWorld UInt32)
    ⟨grantedAll UInt32, grantedAll UInt32, none⟩ = some (.stream openedWide) := rfl

theorem openedWide_sound : Sound maxChars openedWide [0] := openedStream_sound maxChars _ _

theorem run_one (t : Text ascii) (h : newSpace 0 (0 + t.bytes.length + 1) ≤ maxChars) :
    ∃ s, (wmemstreamFuncs ascii).Runs Supplied openedWide
      ([TextOp.write t (grantedAll UInt32)].map TextOp.op) s := by
  obtain ⟨r, s, b, hstep, -, -⟩ :=
    wmemstream_step openedWide_sound (TextOp.write t (grantedAll UInt32)).fits
  exact ⟨s, .call (.opened _) (Or.inr ⟨rfl, h⟩) hstep⟩

/-- `"ab"`, a gap, and `"a"`. -/
theorem wmemstream_stores_all_iff_sample : ∃ (s : Stream UInt32 ascii.State) (f : SparseFile UInt32),
    Stores ascii openedWide [.write textAb (grantedAll UInt32), .seek 4 0,
      .write textA (grantedAll UInt32)] s f ∧ s.cookie.pos = 5 := by
  obtain ⟨s₁, s₂, s₃, hfirst, hseek, hspace, hpos, hlast, hend⟩ : ∃ s₁ s₂ s₃,
      (wmemstreamFuncs ascii).step openedWide (.write [97, 98] (grantedAll UInt32)) =
        some (.wrote 2, s₁) ∧
      (wmemstreamFuncs ascii).step s₁ (.seek 4 0) = some (.sought (some 4), s₂) ∧
      s₂.cookie.space = 3 ∧ s₂.cookie.pos = 4 ∧
      (wmemstreamFuncs ascii).step s₂ (.write [97] (grantedAll UInt32)) = some (.wrote 1, s₃) ∧
      s₃.cookie.pos = 5 := ⟨_, _, _, rfl, rfl, rfl, rfl, rfl, rfl⟩
  have hroom : Room maxChars s₂ 1 (grantedAll UInt32) := by
    refine Or.inr ⟨rfl, ?_⟩
    rw [hspace, hpos]
    decide
  have hrun : (wmemstreamFuncs ascii).Runs Supplied openedWide
      ([] ++ [.write [97, 98] (grantedAll UInt32)] ++ [.seek 4 0] ++
        [.write [97] (grantedAll UInt32)]) s₃ :=
    .call (.call (.call (.opened _) (Or.inr ⟨rfl, by decide⟩) hfirst) trivial hseek) hroom hlast
  obtain ⟨f, hf⟩ := (wmemstream_stores_all_iff openedWide_opens
    [.write textAb (grantedAll UInt32), .seek 4 0, .write textA (grantedAll UInt32)] hrun).mpr
    (by simp [TextOp.NullFree, textAb, textA])
  exact ⟨s₃, f, hf, hend⟩

/-- The characters of `L"\0a"` are not stored, though there is memory. -/
theorem null_not_stored :
    ¬ ∀ s, (wmemstreamFuncs ascii).Runs Supplied openedWide
      ([TextOp.write textNull (grantedAll UInt32)].map TextOp.op) s →
      ∃ f, Stores ascii openedWide [.write textNull (grantedAll UInt32)] s f := by
  intro h
  obtain ⟨s, hrun⟩ := run_one textNull (by decide)
  obtain ⟨f, hf⟩ := h s hrun
  have hnull := (nullFree_of_stores openedWide_sound rfl hf).1 _ (List.mem_singleton_self _)
  exact hnull (List.mem_cons_self ..)

end LibcOverride.Memstream

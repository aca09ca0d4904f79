import LibcOverride.Scanf.FormatRecords
import LibcOverride.Scanf.EntryPoints

/-!
# Rehoming end to end

The format parser, the real scanner and the rehome loop count conversions
separately. The loop's specification is proved record by record with a frame
for what later records still need; the grammar then says which conversions the
records are.
-/

namespace LibcOverride.Scanf
open Word

/-! ### One record -/

/-- The block holds what a record of this mode will copy: a terminated string,
or as many elements as its width says. -/
def Readable (mode : AoRehomeMode) (width : ℕ) (bytes : List UInt8) : Prop :=
  bytes.length < 2 ^ 63 ∧ match mode with
    | .charString => strlen bytes ≠ none
    | .wideString => wcslen bytes ≠ none
    | .charCount => bytes.length = width
    | .wideCount => bytes.length = width * sizeofWchar
    | .unsupportedWideCharCount => True

/-- The same content: up to the first NUL, or all of it. -/
def SameContent (mode : AoRehomeMode) (bytes copy : List UInt8) : Prop :=
  match mode with
  | .charString => ∃ n, strlen bytes = some n ∧ copy = bytes.take (n + 1)
  | .wideString => ∃ n, wcslen bytes = some n ∧ copy = bytes.take ((n + 1) * sizeofWchar)
  | _ => copy = bytes

/-- `malloc(len)` followed by the copy of `content` into the new block. -/
def cloned (P : Process) (w : World) (len : ℕ) (content : List UInt8) : World :=
  let a := P.answer w.memory len
  { w with
    memory :=
      if a = 0 then { w.memory with errno := .enomem, calls := w.memory.calls + 1 }
      else { w.memory with
        blocks := Function.update w.memory.blocks a (some content)
        owned := Function.update w.memory.owned a true
        calls := w.memory.calls + 1 }
    trace := w.trace ++ [.malloc len a] }

theorem strlen_lt {bytes : List UInt8} {n : ℕ} (h : strlen bytes = some n) : n < bytes.length := by
  induction bytes generalizing n with
  | nil => cases h
  | cons b bytes ih =>
    rw [strlen] at h
    split at h
    · cases h
      exact Nat.succ_pos _
    · obtain ⟨k, hk, rfl⟩ := Option.map_eq_some_iff.mp h
      have hlt := ih hk
      rw [List.length_cons]
      omega

theorem wcslen_le {bytes : List UInt8} {n : ℕ} (h : wcslen bytes = some n) :
    (n + 1) * sizeofWchar ≤ bytes.length := by
  induction bytes using wcslen.induct generalizing n with
  | case1 a b c d bytes hz =>
    rw [wcslen, if_pos hz] at h
    cases h
    simp only [List.length_cons, sizeofWchar]
    omega
  | case2 a b c d bytes hz ih =>
    rw [wcslen, if_neg hz] at h
    obtain ⟨k, hk, rfl⟩ := Option.map_eq_some_iff.mp h
    have hle := ih hk
    simp only [List.length_cons, sizeofWchar] at *
    omega
  | case3 bytes hshort =>
    rw [wcslen] at h
    · cases h
    · exact hshort

theorem memcpy_malloc {P : Process} {w : World} {source len : ℕ} {bytes : List UInt8}
    (hb : w.memory.blocks source = some bytes) (hlen : len ≤ bytes.length) :
    (if (malloc P w len).1 = 0 then some (0, (malloc P w len).2)
      else (memcpy (malloc P w len).2 (malloc P w len).1 source len).map
        ((malloc P w len).1, ·)) =
      some (P.answer w.memory len, cloned P w len (bytes.take len)) := by
  have hfst : (malloc P w len).1 = P.answer w.memory len := rfl
  rw [hfst]
  split
  · rename_i h0
    simp only [malloc, cloned, h0, ite_true]
  · rename_i h0
    have hne : source ≠ P.answer w.memory len := by
      rintro heq
      have hfresh := P.fresh w.memory len h0
      rw [← heq, hb] at hfresh
      cases hfresh
    have hblock : (malloc P w len).2.memory.blocks source = some bytes := by
      simp only [malloc, h0, ite_false, Function.update_of_ne hne, hb]
    simp only [memcpy, hblock, Option.bind_eq_bind, Option.bind_some, not_lt.mpr hlen, ite_false,
      Option.map_some]
    simp only [malloc, cloned, h0, ite_false, Function.update_idem]

theorem cloneBytes_spec {P : Process} {w : World} {source : ℕ} {bytes : List UInt8}
    (hb : w.memory.blocks source = some bytes) :
    aoCloneBytes P w source bytes.length =
      some (P.answer w.memory bytes.length, cloned P w bytes.length bytes) := by
  unfold aoCloneBytes
  by_cases hz : bytes.length = 0
  · have hnil : bytes = [] := List.eq_nil_of_length_eq_zero hz
    subst hnil
    have hfst : (malloc P w 0).1 = P.answer w.memory 0 := rfl
    simp only [List.length_nil, ne_eq, not_true, ite_false]
    split
    · rename_i h0
      rw [hfst] at h0
      simp only [malloc, cloned, h0, ite_true]
    · rfl
  · simp only [ne_eq, hz, not_false_eq_true, ite_true]
    have hcopy := memcpy_malloc (P := P) hb le_rfl
    rw [List.take_length] at hcopy
    exact hcopy

/-- The switch on a supported mode: one `malloc`, and a copy of the same content
unless it failed. -/
theorem cloneFor_spec (P : Process) {w : World} {r : AoScanfRecord} {original : ℕ}
    {bytes : List UInt8} (hb : w.memory.blocks original = some bytes)
    (hr : Readable r.mode r.width bytes) (hm : r.mode ≠ .unsupportedWideCharCount) :
    ∃ content, SameContent r.mode bytes content ∧ cloneFor P w r original =
      some (P.answer w.memory content.length, cloned P w content.length content) := by
  obtain ⟨hfit, hread⟩ := hr
  unfold cloneFor
  cases hmode : r.mode with
  | charString =>
    rw [hmode] at hread
    obtain ⟨n, hn⟩ := Option.ne_none_iff_exists'.mp hread
    have hlt := strlen_lt hn
    have hadd : add n 1 = n + 1 := Nat.mod_eq_of_lt (by omega)
    refine ⟨bytes.take (n + 1), ⟨n, hn, rfl⟩, ?_⟩
    rw [List.length_take_of_le hlt]
    simp only [aoCloneCharString, hb, hn, hadd, Option.bind_eq_bind, Option.bind_some]
    exact memcpy_malloc hb hlt
  | wideString =>
    rw [hmode] at hread
    obtain ⟨n, hn⟩ := Option.ne_none_iff_exists'.mp hread
    have hle := wcslen_le hn
    have hbound : (n + 1) * 4 < 2 ^ 63 := lt_of_le_of_lt hle hfit
    have hadd : add n 1 = n + 1 := Nat.mod_eq_of_lt (by omega)
    have hmul : mul (n + 1) sizeofWchar = (n + 1) * sizeofWchar :=
      Nat.mod_eq_of_lt (show (n + 1) * 4 < 2 ^ 64 by omega)
    refine ⟨bytes.take ((n + 1) * sizeofWchar), ⟨n, hn, rfl⟩, ?_⟩
    rw [List.length_take_of_le hle]
    simp only [aoCloneWideString, hb, hn, hadd, hmul, Option.bind_eq_bind, Option.bind_some]
    exact memcpy_malloc hb hle
  | charCount =>
    rw [hmode] at hread
    have hlen : bytes.length = r.width := hread
    refine ⟨bytes, rfl, ?_⟩
    dsimp only
    rw [← hlen]
    exact cloneBytes_spec hb
  | wideCount =>
    rw [hmode] at hread
    have hlen : bytes.length = r.width * sizeofWchar := hread
    have hbound : r.width * 4 < 2 ^ 63 := lt_of_eq_of_lt hlen.symm hfit
    have hmul : mul r.width sizeofWchar = r.width * sizeofWchar :=
      Nat.mod_eq_of_lt (show r.width * 4 < 2 ^ 64 by omega)
    refine ⟨bytes, rfl, ?_⟩
    dsimp only
    rw [hmul, ← hlen]
    exact cloneBytes_spec hb
  | unsupportedWideCharCount => exact (hm hmode).elim

/-- What a record leads to: it is passed over, its copy cannot be allocated, or
it is moved. -/
inductive Step (P : Process) (w : World) (r : AoScanfRecord) (bytes : List UInt8) : World → Prop
  | skipped (h : w.memory.owned (w.memory.slots r.slot) = true ∨
        r.mode = .unsupportedWideCharCount) : Step P w r bytes (w.log (.readSlot r.slot))
  | failed (content : List UInt8) (hown : w.memory.owned (w.memory.slots r.slot) = false)
      (hm : r.mode ≠ .unsupportedWideCharCount) (hsame : SameContent r.mode bytes content)
      (h : P.answer w.memory content.length = 0) :
      Step P w r bytes (cloned P (w.log (.readSlot r.slot)) content.length content)
  | moved (content : List UInt8) (hown : w.memory.owned (w.memory.slots r.slot) = false)
      (hm : r.mode ≠ .unsupportedWideCharCount) (hsame : SameContent r.mode bytes content)
      (h : P.answer w.memory content.length ≠ 0) :
      Step P w r bytes (bridgeLibcFree (aoStorePointerSlot
        (cloned P (w.log (.readSlot r.slot)) content.length content) r.slot
          (P.answer w.memory content.length)) (w.memory.slots r.slot))

theorem rehomeRecord_step (P : Process) {w : World} {r : AoScanfRecord} {bytes : List UInt8}
    (hready : w.lib.bridgeReady = true) (hnull : w.memory.slots r.slot ≠ 0)
    (hb : w.memory.blocks (w.memory.slots r.slot) = some bytes)
    (hr : Readable r.mode r.width bytes) :
    ∃ w', aoRehomeScanfRecord P w r = some w' ∧ Step P w r bytes w' := by
  unfold aoRehomeScanfRecord aoLoadPointerSlot
  simp only [World.log, hready, hnull, Bool.true_eq_false, false_or]
  cases hown : w.memory.owned (w.memory.slots r.slot) with
  | true => exact ⟨_, rfl, Step.skipped (Or.inl hown)⟩
  | false =>
    simp only [Bool.false_eq_true, ite_false, Option.bind_eq_bind]
    by_cases hm : r.mode = .unsupportedWideCharCount
    · simp only [cloneFor, hm, Option.bind_some, ite_true]
      exact ⟨_, rfl, Step.skipped (Or.inr hm)⟩
    · obtain ⟨content, hsame, hclone⟩ :=
        cloneFor_spec P (w := w.log (.readSlot r.slot)) (r := r) hb hr hm
      simp only [World.log] at hclone
      rw [hclone, Option.bind_some]
      by_cases h0 : P.answer w.memory content.length = 0
      · rw [if_pos h0]
        exact ⟨_, rfl, Step.failed content hown hm hsame h0⟩
      · rw [if_neg h0]
        exact ⟨_, rfl, Step.moved content hown hm hsame h0⟩

/-! ### The frame of a run -/

def Event.slot : Event → Option ℕ
  | .readSlot slot => some slot
  | .writeSlot slot _ => some slot
  | _ => none

def slotsOf (rs : List AoScanfRecord) : List ℕ := rs.map (·.slot)

/-- The blocks that the records refer to. -/
def originals (m : Memory) (rs : List AoScanfRecord) : List ℕ := rs.map fun r => m.slots r.slot

/-- All that rehoming `rs` can change; `events` is its part of the trace. -/
structure Touches (rs : List AoScanfRecord) (w w' : World) (events : List Event) : Prop where
  lib : w'.lib = w.lib
  trace : w'.trace = w.trace ++ events
  slots : ∀ x, x ∉ slotsOf rs → w'.memory.slots x = w.memory.slots x
  accesses : ∀ e ∈ events, ∀ x, e.slot = some x → x ∈ slotsOf rs
  frees : ∀ p, .libcFree p ∈ events → p ∈ originals w.memory rs
  blocks : ∀ a, w.memory.blocks a ≠ none → a ∉ originals w.memory rs →
    w'.memory.blocks a = w.memory.blocks a ∧ w'.memory.owned a = w.memory.owned a
  owned : ∀ a, w.memory.owned a = true → w'.memory.owned a = true

/-- The slot and its block are as the scanner left them. -/
structure Kept (m m' : Memory) (slot : ℕ) (events : List Event) : Prop where
  value : m'.slots slot = m.slots slot
  block : m'.blocks (m.slots slot) = m.blocks (m.slots slot)
  notFreed : .libcFree (m.slots slot) ∉ events

/-- The slot holds a tracked copy from `malloc`, and the block that it held
before was given back to libc once. -/
structure Moved (m m' : Memory) (mode : AoRehomeMode) (slot : ℕ) (events : List Event) : Prop where
  tracked : m'.slots slot ≠ 0 ∧ m'.owned (m'.slots slot) = true
  content : ∃ bytes content, m.blocks (m.slots slot) = some bytes ∧
    m'.blocks (m'.slots slot) = some content ∧ SameContent mode bytes content ∧
    .malloc content.length (m'.slots slot) ∈ events
  freed : events.count (.libcFree (m.slots slot)) = 1

/-- Whose block the rehoming leaves alone. -/
def Exempt (m : Memory) (mode : AoRehomeMode) (slot : ℕ) : Prop :=
  m.owned (m.slots slot) = true ∨ mode = .unsupportedWideCharCount

/-- The copy's `malloc` was refused, right after the slot was read. -/
def CopyRefused (m : Memory) (mode : AoRehomeMode) (slot : ℕ) (events : List Event) : Prop :=
  ∃ bytes content, m.blocks (m.slots slot) = some bytes ∧ SameContent mode bytes content ∧
    [.readSlot slot, .malloc content.length 0] <:+: events

/-- What becomes of one slot. -/
structure Settled (m m' : Memory) (mode : AoRehomeMode) (slot : ℕ) (events : List Event) :
    Prop where
  exempt : Exempt m mode slot → Kept m m' slot events
  other : ¬ Exempt m mode slot → Moved m m' mode slot events ∨
    (Kept m m' slot events ∧ CopyRefused m mode slot events)

theorem touches_nil (w : World) : Touches [] w w [] :=
  ⟨rfl, (List.append_nil _).symm, fun _ _ => rfl, by simp, by simp, fun _ _ _ => ⟨rfl, rfl⟩,
    fun _ h => h⟩

theorem touches_cons {r : AoScanfRecord} {rs : List AoScanfRecord} {u v w : World}
    {e e' : List Event} (h : Touches [r] u v e) (h' : Touches rs v w e')
    (hsame : originals v.memory rs = originals u.memory rs) : Touches (r :: rs) u w (e ++ e') := by
  have hout : ∀ a, a ∉ originals u.memory (r :: rs) →
      a ∉ originals u.memory [r] ∧ a ∉ originals u.memory rs := fun a ha =>
    ⟨fun hr => ha (by simp_all [originals]), fun hrs => ha (List.mem_cons_of_mem _ hrs)⟩
  refine ⟨h'.lib.trans h.lib, ?_, ?_, ?_, ?_, ?_, fun a ha => h'.owned a (h.owned a ha)⟩
  · rw [h'.trace, h.trace, List.append_assoc]
  · intro x hx
    rw [h'.slots x fun hrs => hx (List.mem_cons_of_mem _ hrs)]
    exact h.slots x fun hr => hx (by simp_all [slotsOf])
  · intro ev hev x hx
    rcases List.mem_append.mp hev with hev | hev
    · have hr := h.accesses ev hev x hx
      simp_all [slotsOf]
    · exact List.mem_cons_of_mem _ (h'.accesses ev hev x hx)
  · intro p hp
    rcases List.mem_append.mp hp with hp | hp
    · have hr := h.frees p hp
      simp_all [originals]
    · have hrs := h'.frees p hp
      rw [hsame] at hrs
      exact List.mem_cons_of_mem _ hrs
  · intro a ha hn
    obtain ⟨hr, hrs⟩ := hout a hn
    have hfst := h.blocks a ha hr
    have hsnd := h'.blocks a (by rw [hfst.1]; exact ha) (by rw [hsame]; exact hrs)
    exact ⟨hsnd.1.trans hfst.1, hsnd.2.trans hfst.2⟩

/-- A step touches its own record only and settles it. -/
theorem step_touches {P : Process} {w w' : World} {r : AoScanfRecord} {bytes : List UInt8}
    (hb : w.memory.blocks (w.memory.slots r.slot) = some bytes) (h : Step P w r bytes w') :
    ∃ e, Touches [r] w w' e ∧ Settled w.memory w'.memory r.mode r.slot e ∧
      (w'.memory.slots r.slot = w.memory.slots r.slot ∨
        w.memory.blocks (w'.memory.slots r.slot) = none) := by
  cases h with
  | skipped hex =>
    refine ⟨[.readSlot r.slot], ⟨rfl, rfl, fun _ _ => rfl, ?_, by simp, fun _ _ _ => ⟨rfl, rfl⟩,
      fun _ h => h⟩, ⟨fun _ => ⟨rfl, rfl, by simp⟩, fun hne => (hne hex).elim⟩, Or.inl rfl⟩
    simp [Event.slot, slotsOf]
  | failed content hown hm hsame h0 =>
    have hmem : (cloned P (w.log (.readSlot r.slot)) content.length content).memory =
        { w.memory with errno := .enomem, calls := w.memory.calls + 1 } := by
      simp only [cloned, World.log, h0, ite_true]
    refine ⟨[.readSlot r.slot, .malloc content.length 0], ⟨rfl, ?_, ?_, ?_, by simp, ?_, ?_⟩,
      ⟨?_, ?_⟩, ?_⟩
    · simp [cloned, World.log, h0]
    · intro x _
      rw [hmem]
    · simp [Event.slot, slotsOf]
    · intro a _ _
      rw [hmem]
      exact ⟨rfl, rfl⟩
    · intro a ha
      rw [hmem]
      exact ha
    · rintro (hex | hex)
      · rw [hown] at hex
        cases hex
      · exact (hm hex).elim
    · refine fun _ => Or.inr ⟨⟨?_, ?_, by simp⟩, bytes, content, hb, hsame, List.infix_rfl⟩
      · rw [hmem]
      · rw [hmem]
    · rw [hmem]
      exact Or.inl rfl
  | moved content hown hm hsame h0 =>
    have hfresh := P.fresh w.memory content.length h0
    have hne : w.memory.slots r.slot ≠ P.answer w.memory content.length := by
      rintro heq
      rw [← heq, hb] at hfresh
      cases hfresh
    have hmem : (bridgeLibcFree (aoStorePointerSlot (cloned P (w.log (.readSlot r.slot))
        content.length content) r.slot (P.answer w.memory content.length))
        (w.memory.slots r.slot)).memory =
        { w.memory with
          slots := Function.update w.memory.slots r.slot (P.answer w.memory content.length)
          blocks := Function.update (Function.update w.memory.blocks (P.answer w.memory content.length)
            (some content)) (w.memory.slots r.slot) none
          owned := Function.update w.memory.owned (P.answer w.memory content.length) true
          calls := w.memory.calls + 1 } := by
      simp only [bridgeLibcFree, aoStorePointerSlot, cloned, World.log, h0, ite_false]
    refine ⟨[.readSlot r.slot, .malloc content.length (P.answer w.memory content.length),
      .writeSlot r.slot (P.answer w.memory content.length), .libcFree (w.memory.slots r.slot)],
      ⟨rfl, ?_, ?_, ?_, ?_, ?_, ?_⟩, ⟨?_, ?_⟩, ?_⟩
    · simp [bridgeLibcFree, aoStorePointerSlot, cloned, World.log]
    · intro x hx
      rw [hmem]
      exact Function.update_of_ne (fun heq => hx (by simp [slotsOf, heq])) _ _
    · simp [Event.slot, slotsOf]
    · simp [originals]
    · intro a ha hn
      have hap : a ≠ w.memory.slots r.slot := fun heq => hn (by simp [originals, heq])
      have haq : a ≠ P.answer w.memory content.length := by
        rintro rfl
        exact ha hfresh
      rw [hmem]
      exact ⟨by simp [hap, haq], by simp [haq]⟩
    · intro a ha
      rw [hmem]
      by_cases haq : a = P.answer w.memory content.length <;> simp [haq, ha]
    · rintro (hex | hex)
      · rw [hown] at hex
        cases hex
      · exact (hm hex).elim
    · refine fun _ => Or.inl ⟨?_, ?_, by simp⟩
      · rw [hmem]
        constructor <;> simp [h0]
      · refine ⟨bytes, content, hb, ?_, hsame, ?_⟩
        · rw [hmem]
          simp [hne.symm]
        · rw [hmem]
          simp
    · rw [hmem]
      right
      simp [hfresh]

/-! ### A run over records -/

/-- The records refer to distinct slots that hold distinct readable blocks. -/
structure Prepared (m : Memory) (rs : List AoScanfRecord) : Prop where
  slots : (slotsOf rs).Nodup
  blocks : (originals m rs).Nodup
  holds : ∀ r ∈ rs, m.slots r.slot ≠ 0 ∧
    ∃ bytes, m.blocks (m.slots r.slot) = some bytes ∧ Readable r.mode r.width bytes

/-- The rest of the records finds its slots and blocks as they were. -/
theorem touches_rest {r : AoScanfRecord} {rs : List AoScanfRecord} {w w' : World}
    {e : List Event} (hp : Prepared w.memory (r :: rs)) (h : Touches [r] w w' e) {r' : AoScanfRecord}
    (hr' : r' ∈ rs) : w'.memory.slots r'.slot = w.memory.slots r'.slot ∧
      w'.memory.blocks (w.memory.slots r'.slot) = w.memory.blocks (w.memory.slots r'.slot) ∧
      w'.memory.owned (w.memory.slots r'.slot) = w.memory.owned (w.memory.slots r'.slot) ∧
      .libcFree (w.memory.slots r'.slot) ∉ e := by
  have hslot : r'.slot ∉ slotsOf [r] := by
    intro hmem
    have heq : r'.slot = r.slot := List.mem_singleton.mp hmem
    exact (List.nodup_cons.mp hp.slots).1 (List.mem_map.mpr ⟨r', hr', heq⟩)
  have horig : w.memory.slots r'.slot ∉ originals w.memory [r] := by
    intro hmem
    have heq : w.memory.slots r'.slot = w.memory.slots r.slot := List.mem_singleton.mp hmem
    exact (List.nodup_cons.mp hp.blocks).1 (List.mem_map.mpr ⟨r', hr', heq⟩)
  obtain ⟨_, bytes, hb, _⟩ := hp.holds r' (List.mem_cons_of_mem _ hr')
  have hblock := h.blocks _ (by rw [hb]; exact Option.some_ne_none _) horig
  exact ⟨h.slots _ hslot, hblock.1, hblock.2, fun hf => horig (h.frees _ hf)⟩

theorem originals_rest {r : AoScanfRecord} {rs : List AoScanfRecord} {w w' : World}
    {e : List Event} (hp : Prepared w.memory (r :: rs)) (h : Touches [r] w w' e) :
    originals w'.memory rs = originals w.memory rs :=
  List.map_congr_left fun _ hr' => (touches_rest hp h hr').1

theorem prepared_rest {r : AoScanfRecord} {rs : List AoScanfRecord} {w w' : World}
    {e : List Event} (hp : Prepared w.memory (r :: rs)) (h : Touches [r] w w' e) :
    Prepared w'.memory rs := by
  refine ⟨(List.nodup_cons.mp hp.slots).2, ?_, ?_⟩
  · rw [originals_rest hp h]
    exact (List.nodup_cons.mp hp.blocks).2
  · intro r' hr'
    obtain ⟨hslot, hblock, _⟩ := touches_rest hp h hr'
    rw [hslot, hblock]
    exact hp.holds r' (List.mem_cons_of_mem _ hr')

/-- What a later run settles was not disturbed before it. -/
theorem settled_before {m m' m'' : Memory} {mode : AoRehomeMode} {slot : ℕ} {e e' : List Event}
    (hslot : m'.slots slot = m.slots slot)
    (hblock : m'.blocks (m.slots slot) = m.blocks (m.slots slot))
    (howned : m'.owned (m.slots slot) = m.owned (m.slots slot))
    (hfree : .libcFree (m.slots slot) ∉ e) (h : Settled m' m'' mode slot e') :
    Settled m m'' mode slot (e ++ e') := by
  have hkept : Kept m' m'' slot e' → Kept m m'' slot (e ++ e') := by
    intro hk
    refine ⟨hk.value.trans hslot, ?_, ?_⟩
    · have hb := hk.block
      rwa [hslot, hblock] at hb
    · have hn := hk.notFreed
      rw [hslot] at hn
      simp [hfree, hn]
  have hex : Exempt m' mode slot ↔ Exempt m mode slot := by
    unfold Exempt
    rw [hslot, howned]
  refine ⟨fun h' => hkept (h.exempt (hex.mpr h')), fun h' => ?_⟩
  rcases h.other (fun hc => h' (hex.mp hc)) with hm | ⟨hk, bytes, content, hb, hsame, hinfix⟩
  · obtain ⟨htracked, ⟨bytes, content, hb, hc, hsame, hmalloc⟩, hfreed⟩ := hm
    rw [hslot, hblock] at hb
    rw [hslot] at hfreed
    refine Or.inl ⟨htracked, ⟨bytes, content, hb, hc, hsame, List.mem_append_right _ hmalloc⟩, ?_⟩
    rw [List.count_append, List.count_eq_zero.mpr hfree, hfreed]
  · rw [hslot, hblock] at hb
    exact Or.inr ⟨hkept hk, bytes, content, hb, hsame,
      hinfix.trans (List.suffix_append e e').isInfix⟩

/-- What was settled stays so in a run over other records. -/
theorem settled_after {rs : List AoScanfRecord} {m : Memory} {v w : World} {mode : AoRehomeMode}
    {slot : ℕ} {e e' : List Event} {bytes : List UInt8}
    (hb : m.blocks (m.slots slot) = some bytes) (hslot : slot ∉ slotsOf rs)
    (horig : m.slots slot ∉ originals v.memory rs)
    (hnow : v.memory.slots slot ∉ originals v.memory rs)
    (ht : Touches rs v w e') (h : Settled m v.memory mode slot e) :
    Settled m w.memory mode slot (e ++ e') := by
  have hfree : .libcFree (m.slots slot) ∉ e' := fun hf => horig (ht.frees _ hf)
  have hkept : Kept m v.memory slot e → Kept m w.memory slot (e ++ e') := by
    intro hk
    have hsome : v.memory.blocks (m.slots slot) ≠ none := by
      rw [hk.block, hb]
      exact Option.some_ne_none _
    refine ⟨(ht.slots _ hslot).trans hk.value, (ht.blocks _ hsome horig).1.trans hk.block, ?_⟩
    simp [hk.notFreed, hfree]
  refine ⟨fun h' => hkept (h.exempt h'), fun h' => ?_⟩
  rcases h.other h' with hm | ⟨hk, bytes', content, hb', hsame, hinfix⟩
  · obtain ⟨⟨hne, hown⟩, ⟨bytes', content, hb', hc, hsame, hmalloc⟩, hfreed⟩ := hm
    have hval := ht.slots _ hslot
    have hsome : v.memory.blocks (v.memory.slots slot) ≠ none := by
      rw [hc]
      exact Option.some_ne_none _
    refine Or.inl ⟨?_, ⟨bytes', content, hb', ?_, hsame, ?_⟩, ?_⟩
    · rw [hval]
      exact ⟨hne, ht.owned _ hown⟩
    · rw [hval, (ht.blocks _ hsome hnow).1, hc]
    · rw [hval]
      exact List.mem_append_left _ hmalloc
    · rw [List.count_append, List.count_eq_zero.mpr hfree, hfreed]
  · exact Or.inr ⟨hkept hk, bytes', content, hb', hsame,
      hinfix.trans (List.prefix_append e e').isInfix⟩

/-- Rehoming prepared records settles each of them and touches nothing else. -/
theorem rehomeRecords_settled (P : Process) {rs : List AoScanfRecord} {w : World}
    (hready : w.lib.bridgeReady = true) (hp : Prepared w.memory rs) :
    ∃ w' e, rs.foldlM (aoRehomeScanfRecord P) w = some w' ∧ Touches rs w w' e ∧
      ∀ r ∈ rs, Settled w.memory w'.memory r.mode r.slot e := by
  induction rs generalizing w with
  | nil => exact ⟨w, [], rfl, touches_nil w, by simp⟩
  | cons r rs ih =>
    obtain ⟨hnull, bytes, hb, hr⟩ := hp.holds r (List.mem_cons_self ..)
    obtain ⟨v, hv, hstep⟩ := rehomeRecord_step P hready hnull hb hr
    obtain ⟨e, ht, hs, hval⟩ := step_touches hb hstep
    have hsame := originals_rest hp ht
    obtain ⟨hfst, _⟩ := List.nodup_cons.mp hp.slots
    obtain ⟨hfst', _⟩ := List.nodup_cons.mp hp.blocks
    obtain ⟨w', e', hrun, ht', hs'⟩ := ih (by rw [ht.lib]; exact hready) (prepared_rest hp ht)
    refine ⟨w', e ++ e', ?_, touches_cons ht ht' hsame, ?_⟩
    · rw [List.foldlM_cons, hv]
      exact hrun
    · intro r' hr'
      rcases List.mem_cons.mp hr' with rfl | hr'
      · refine settled_after hb hfst (by rw [hsame]; exact hfst') ?_ ht' hs
        rw [hsame]
        rcases hval with hval | hval
        · rw [hval]
          exact hfst'
        · intro hmem
          obtain ⟨s, hs, heq⟩ := List.mem_map.mp hmem
          obtain ⟨_, _, hb', _⟩ := hp.holds s (List.mem_cons_of_mem _ hs)
          rw [← heq, hb'] at hval
          cases hval
      · obtain ⟨hslot, hblock, howned, hfree⟩ := touches_rest hp ht hr'
        exact settled_before hslot hblock howned hfree (hs' r' hr')

/-- The loop stops at the first record beyond the result. -/
theorem rehomePlan_takeWhile (P : Process) (rs : List AoScanfRecord) (w : World) (matched : ℤ) :
    aoRehomeScanfPlan P w rs matched =
      (rs.takeWhile fun r => decide (toInt r.ordinal ≤ matched)).foldlM (aoRehomeScanfRecord P) w := by
  induction rs generalizing w with
  | nil => rfl
  | cons r rs ih =>
    rw [aoRehomeScanfPlan]
    by_cases h : toInt r.ordinal > matched
    · rw [if_pos h, List.takeWhile_cons_of_neg (by simpa using h)]
      rfl
    · rw [if_neg h, List.takeWhile_cons_of_pos (by simpa using h), List.foldlM_cons]
      exact bind_congr fun w' => ih w'

/-! ### Conversions of a format -/

/-- The conversion `k` stands in `ds` right behind `before`. -/
def Occurs (ds before : List Directive) (k : Conversion) : Prop :=
  ∃ after, ds = before ++ .conversion k :: after

theorem occurs_alone {k' k : Conversion} {before : List Directive}
    (h : Occurs [.conversion k'] before k) : before = [] ∧ k = k' := by
  obtain ⟨after, heq⟩ := h
  cases before with
  | nil =>
    obtain ⟨hk, _⟩ := List.cons.inj heq
    exact ⟨rfl, (Directive.conversion.inj hk).symm⟩
  | cons d before =>
    obtain ⟨_, htl⟩ := List.cons.inj heq
    cases before <;> cases htl

/-- The number of a counted conversion behind `before`. -/
def number (before : List Directive) : ℕ := 1 + before.countP Directive.counted

/-- A `%m` conversion with a destination. -/
def Conversion.Allocates (k : Conversion) : Prop :=
  k.alloc = true ∧ k.spec.isString = true ∧ k.destination ≠ .suppressed

def Conversion.elements (k : Conversion) : ℕ := max 1 (digitsValue k.width)

def Conversion.record (charMode : AoRehomeMode) (args : ℕ → ℕ) (before : List Directive)
    (k : Conversion) : AoScanfRecord :=
  ⟨k.argument args before, number before, k.mode charMode, k.recordWidth⟩

theorem allocates_counted {k : Conversion} (h : k.Allocates) :
    (Directive.conversion k).counted = true := by
  obtain ⟨_, hs, hd⟩ := h
  simp only [Directive.counted, decide_eq_true_eq]
  refine ⟨hd, ?_⟩
  intro heq
  rw [heq] at hs
  cases hs

theorem mem_expectedRecords {charMode : AoRehomeMode} {args : ℕ → ℕ} {before ds : List Directive}
    {r : AoScanfRecord} : r ∈ expectedRecords charMode args before ds ↔
      ∃ mid k, Occurs ds mid k ∧ k.Allocates ∧ k.argument args (before ++ mid) ≠ 0 ∧
        r = k.record charMode args (before ++ mid) := by
  induction ds generalizing before with
  | nil => simp [expectedRecords, Occurs]
  | cons d ds ih =>
    rw [expectedRecords, List.mem_append, ih, Option.mem_toList]
    constructor
    · rintro (hr | ⟨mid, k, ⟨after, rfl⟩, ha, hn, rfl⟩)
      · cases d with
        | literal c => cases hr
        | percent => cases hr
        | conversion k =>
          simp only [expectedRecord] at hr
          split at hr
          · rename_i hcond
            refine ⟨[], k, ⟨ds, rfl⟩, ⟨hcond.1, hcond.2.1, hcond.2.2.1⟩, ?_, ?_⟩
            · rw [List.append_nil]
              exact hcond.2.2.2
            · rw [List.append_nil]
              exact (Option.some.inj hr).symm
          · cases hr
      · refine ⟨d :: mid, k, ⟨after, rfl⟩, ha, ?_, ?_⟩
        · simpa only [List.append_assoc, List.singleton_append] using hn
        · simp only [List.append_assoc, List.singleton_append]
    · rintro ⟨mid, k, ⟨after, hds⟩, ha, hn, rfl⟩
      cases mid with
      | nil =>
        obtain ⟨rfl, rfl⟩ := List.cons.inj hds
        rw [List.append_nil] at hn ⊢
        refine Or.inl ?_
        simp only [expectedRecord]
        rw [if_pos ⟨ha.1, ha.2.1, ha.2.2, hn⟩]
        rfl
      | cons d' mid =>
        obtain ⟨rfl, rfl⟩ := List.cons.inj hds
        refine Or.inr ⟨mid, k, ⟨after, rfl⟩, ha, ?_, ?_⟩
        · simpa only [List.append_assoc, List.singleton_append] using hn
        · simp only [List.append_assoc, List.singleton_append]

/-- Records come in the order of their ordinals. -/
theorem expectedRecords_sorted (charMode : AoRehomeMode) (args : ℕ → ℕ)
    (before ds : List Directive) :
    (expectedRecords charMode args before ds).Pairwise fun r r' => r.ordinal < r'.ordinal := by
  induction ds generalizing before with
  | nil => exact List.Pairwise.nil
  | cons d ds ih =>
    rw [expectedRecords, List.pairwise_append]
    refine ⟨?_, ih _, ?_⟩
    · cases expectedRecord charMode args before d <;> simp
    · intro r hr r' hr'
      obtain ⟨mid, k, _, _, _, rfl⟩ := mem_expectedRecords.mp hr'
      rw [Option.mem_toList] at hr
      cases d with
      | literal c => cases hr
      | percent => cases hr
      | conversion j =>
        simp only [expectedRecord] at hr
        split at hr
        · rename_i hcond
          rw [← Option.some.inj hr]
          have hcounted := allocates_counted (k := j) ⟨hcond.1, hcond.2.1, hcond.2.2.1⟩
          simp only [Conversion.record, number, List.countP_append, List.countP_singleton,
            hcounted, ite_true]
          omega
        · cases hr

/-- Of sorted records, the loop takes those up to the result. -/
theorem mem_takeWhile_sorted {rs : List AoScanfRecord} {matched : ℤ}
    (h : rs.Pairwise fun r r' => r.ordinal < r'.ordinal)
    (hint : ∀ r ∈ rs, toInt r.ordinal = r.ordinal) {r : AoScanfRecord} :
    r ∈ rs.takeWhile (fun r => decide (toInt r.ordinal ≤ matched)) ↔
      r ∈ rs ∧ (r.ordinal : ℤ) ≤ matched := by
  induction rs with
  | nil => simp
  | cons s rs ih =>
    obtain ⟨hlt, htail⟩ := List.pairwise_cons.mp h
    have hs := hint s (List.mem_cons_self ..)
    by_cases hle : (s.ordinal : ℤ) ≤ matched
    · rw [List.takeWhile_cons_of_pos (by simp [hs, hle]), List.mem_cons, List.mem_cons,
        ih htail fun r hr => hint r (List.mem_cons_of_mem _ hr)]
      constructor
      · rintro (rfl | ⟨hr, hb⟩)
        · exact ⟨Or.inl rfl, hle⟩
        · exact ⟨Or.inr hr, hb⟩
      · rintro ⟨rfl | hr, hb⟩
        · exact Or.inl rfl
        · exact Or.inr ⟨hr, hb⟩
    · rw [List.takeWhile_cons_of_neg (by simp [hs, hle])]
      refine ⟨fun hr => (List.not_mem_nil hr).elim, ?_⟩
      rintro ⟨hr, hb⟩
      rcases List.mem_cons.mp hr with rfl | hr
      · exact (hle hb).elim
      · have hlt' := hlt r hr
        omega

theorem toInt_eq {n : ℕ} (h : n < 2 ^ 31) : toInt n = n := by
  unfold toInt
  rw [Int.bmod_def]
  omega

/-! ### The wrappers on a well-formed format -/

def Format.text : Format → List ℤ
  | .narrow text => uchars text
  | .wide text => text

/-- The mode that the format's parser records for `%mc`. -/
def Format.charMode : Format → AoRehomeMode
  | .narrow _ => .charCount
  | .wide _ => .unsupportedWideCharCount

/-- The common wrapper for the kind of input and format. -/
def aoWrapCommon (P : Process) (w : World) (fromString : Bool) (fn input : ℕ) (format : Format)
    (args : ℕ → ℕ) : Option (ℤ × World) :=
  match fromString, format with
  | false, .narrow text => aoWrapVfscanfCommon P w fn input text args
  | true, .narrow text => aoWrapVsscanfCommon P w fn input text args
  | false, .wide text => aoWrapVfwscanfCommon P w fn input text args
  | true, .wide text => aoWrapVswscanfCommon P w fn input text args

theorem wrapCommon_scan (P : Process) (w : World) (fromString : Bool) (fn input : ℕ)
    (format : Format) (args : ℕ → ℕ) : aoWrapCommon P w fromString fn input format args =
      wrapCommon P w fn input format args fun env =>
        scanFormat format.charMode env format.text := by
  cases format with
  | narrow text =>
    have hparse : (fun env => aoParseScanfFormat env text) =
        fun env => scanFormat .charCount env (uchars text) := by
      funext env
      exact parseScanfFormat_eq env text
    cases fromString <;>
      simp only [aoWrapCommon, aoWrapVfscanfCommon, aoWrapVsscanfCommon, hparse, Format.charMode,
        Format.text]
  | wide text => cases fromString <;> rfl

/-- The destinations of the unsuppressed conversions are distinct and not NULL. -/
structure DistinctDestinations (args : ℕ → ℕ) (ds : List Directive) : Prop where
  nonNull : ∀ before k, Occurs ds before k → k.destination ≠ .suppressed →
    k.argument args before ≠ 0
  distinct : ∀ before k before' k', Occurs ds before k → Occurs ds before' k' →
    k.destination ≠ .suppressed → k'.destination ≠ .suppressed →
    k.argument args before = k'.argument args before' → before = before'

/-- A `%m` conversion among the first `ret` that count. -/
def Assigned (ds : List Directive) (ret : ℤ) (before : List Directive) (k : Conversion) : Prop :=
  Occurs ds before k ∧ k.Allocates ∧ (number before : ℤ) ≤ ret

/-- What the real scanner leaves: `ret` conversions are assigned, in order, and
each `%m` conversion among them has its own block in its slot. -/
structure Scanned (charMode : AoRehomeMode) (args : ℕ → ℕ) (ds : List Directive) (ret : ℤ)
    (m : Memory) : Prop where
  range : ret = eof ∨ (0 ≤ ret ∧ ret ≤ ds.countP Directive.counted)
  block : ∀ before k, Assigned ds ret before k → m.slots (k.argument args before) ≠ 0 ∧
    ∃ bytes, m.blocks (m.slots (k.argument args before)) = some bytes ∧
      Readable (k.mode charMode) k.elements bytes
  distinct : ∀ before k before' k', Assigned ds ret before k → Assigned ds ret before' k' →
    m.slots (k.argument args before) = m.slots (k'.argument args before') → before = before'

/-- What the wrapper does with the scanner's memory `m`; `grow` is for the
`realloc`s of the plan. A slot that need not be exempt is left as it was only if
the `malloc` of its own copy was refused, or if the plan was refused room, and
then nothing at all is done. -/
structure Rehomed (charMode : AoRehomeMode) (args : ℕ → ℕ) (ds : List Directive) (ret : ℤ)
    (grow : ℕ → Bool) (m m' : Memory) (events : List Event) : Prop where
  beyond : ∀ before k, Occurs ds before k → k.destination ≠ .suppressed → ret < number before →
    ∀ e ∈ events, e.slot ≠ some (k.argument args before)
  others : ∀ x, (∀ before k, Assigned ds ret before k → k.argument args before ≠ x) →
    m'.slots x = m.slots x
  blocks : ∀ a, m.blocks a ≠ none →
    (∀ before k, Assigned ds ret before k → m.slots (k.argument args before) ≠ a) →
    m'.blocks a = m.blocks a ∧ m'.owned a = m.owned a
  freed : ∀ p, .libcFree p ∈ events → ∃ before k, Assigned ds ret before k ∧
    m.slots (k.argument args before) = p
  exempt : ∀ before k, Assigned ds ret before k →
    Exempt m (k.mode charMode) (k.argument args before) →
    Kept m m' (k.argument args before) events
  moved : ∀ before k, Assigned ds ret before k →
    ¬ Exempt m (k.mode charMode) (k.argument args before) →
    Moved m m' (k.mode charMode) (k.argument args before) events ∨
      (Kept m m' (k.argument args before) events ∧
        (CopyRefused m (k.mode charMode) (k.argument args before) events ∨
          PlanRefused grow (expectedRecords charMode args [] ds).length ∧ events = []))

/-- A call of a common wrapper does its part. -/
def Rehomes (P : Process) (w : World) (fromString : Bool) (fn input : ℕ) (format : Format)
    (args : ℕ → ℕ) (ds : List Directive) : Prop :=
  ∃ w' events,
    aoWrapCommon P w fromString fn input format args =
      some ((P.real ⟨fn, input, format, args⟩ w.memory).1, w') ∧
    w'.trace = w.trace ++ .invoke fn input format :: events ∧
    Rehomed format.charMode args ds (P.real ⟨fn, input, format, args⟩ w.memory).1
      (P.grow w.memory) (P.real ⟨fn, input, format, args⟩ w.memory).2 w'.memory events

/-- The width that the parser records is the number of elements of the block. -/
theorem readable_record {charMode : AoRehomeMode} {k : Conversion} {bytes : List UInt8}
    (h : Readable (k.mode charMode) k.elements bytes) :
    Readable (k.mode charMode) k.recordWidth bytes := by
  by_cases hc : k.spec.isChar = true
  · obtain ⟨hfit, hread⟩ := h
    refine ⟨hfit, ?_⟩
    have hwidth : digitsValue k.width < 2 ^ 63 → k.recordWidth = k.elements := by
      intro hlt
      have hsat : saturate (digitsValue k.width) = digitsValue k.width := by
        unfold saturate
        rw [if_pos]
        simp only [sizeMax]
        omega
      simp only [Conversion.recordWidth, Conversion.elements, hc, hsat, true_and]
      split <;> omega
    cases hmode : k.mode charMode with
    | charString => rwa [hmode] at hread
    | wideString => rwa [hmode] at hread
    | charCount =>
      rw [hmode] at hread
      have hlen : bytes.length = max 1 (digitsValue k.width) := hread
      rw [hwidth (by omega)]
      exact hread
    | wideCount =>
      rw [hmode] at hread
      have hlen : bytes.length = max 1 (digitsValue k.width) * 4 := hread
      rw [hwidth (by omega)]
      exact hread
    | unsupportedWideCharCount => trivial
  · have hmode : k.mode charMode = .wideString ∨ k.mode charMode = .charString := by
      unfold Conversion.mode
      rw [if_neg hc]
      split
      · exact Or.inl rfl
      · exact Or.inr rfl
    rcases hmode with hmode | hmode <;> rw [hmode] at h ⊢ <;> exact h

/-- The records that the loop reaches. -/
def reached (charMode : AoRehomeMode) (args : ℕ → ℕ) (ds : List Directive) (ret : ℤ) :
    List AoScanfRecord :=
  (expectedRecords charMode args [] ds).takeWhile fun r => decide (toInt r.ordinal ≤ ret)

theorem occurs_number {ds before : List Directive} {k : Conversion} (h : Occurs ds before k)
    (ha : k.Allocates) : number before ≤ ds.countP Directive.counted := by
  obtain ⟨after, rfl⟩ := h
  rw [List.countP_append, List.countP_cons, allocates_counted ha, if_pos rfl, number]
  omega

theorem expectedRecords_ordinal {charMode : AoRehomeMode} {args : ℕ → ℕ} {ds : List Directive}
    {r : AoScanfRecord} (h : r ∈ expectedRecords charMode args [] ds) :
    r.ordinal ≤ ds.countP Directive.counted := by
  obtain ⟨before, k, ho, ha, _, rfl⟩ := mem_expectedRecords.mp h
  exact occurs_number ho ha

/-- The three counts agree: the loop reaches the records of the conversions that
the scanner assigned. -/
theorem mem_reached {charMode : AoRehomeMode} {args : ℕ → ℕ} {ds : List Directive} {ret : ℤ}
    (hcount : ds.countP Directive.counted < 2 ^ 31) (hdist : DistinctDestinations args ds)
    {r : AoScanfRecord} : r ∈ reached charMode args ds ret ↔
      ∃ before k, Assigned ds ret before k ∧ r = k.record charMode args before := by
  have hint : ∀ r ∈ expectedRecords charMode args [] ds, toInt r.ordinal = r.ordinal :=
    fun r hr => toInt_eq (lt_of_le_of_lt (expectedRecords_ordinal hr) hcount)
  rw [reached, mem_takeWhile_sorted (expectedRecords_sorted charMode args [] ds) hint,
    mem_expectedRecords]
  constructor
  · rintro ⟨⟨before, k, ho, ha, _, rfl⟩, hle⟩
    exact ⟨before, k, ⟨ho, ha, hle⟩, rfl⟩
  · rintro ⟨before, k, ⟨ho, ha, hle⟩, rfl⟩
    exact ⟨⟨before, k, ho, ha, hdist.nonNull before k ho ha.2.2, rfl⟩, hle⟩

theorem reached_sorted (charMode : AoRehomeMode) (args : ℕ → ℕ) (ds : List Directive) (ret : ℤ) :
    (reached charMode args ds ret).Pairwise fun r r' => r.ordinal < r'.ordinal :=
  (expectedRecords_sorted charMode args [] ds).sublist (List.takeWhile_sublist _)

theorem reached_prepared {charMode : AoRehomeMode} {args : ℕ → ℕ} {ds : List Directive} {ret : ℤ}
    {m : Memory} (hcount : ds.countP Directive.counted < 2 ^ 31)
    (hdist : DistinctDestinations args ds) (hscan : Scanned charMode args ds ret m) :
    Prepared m (reached charMode args ds ret) := by
  have hmem := fun r => (@mem_reached charMode args ds ret hcount hdist r).mp
  refine ⟨?_, ?_, ?_⟩
  · refine List.pairwise_map.mpr ((reached_sorted charMode args ds ret).imp_of_mem ?_)
    intro r r' hr hr' hlt heq
    obtain ⟨before, k, ⟨ho, ha, _⟩, rfl⟩ := hmem r hr
    obtain ⟨before', k', ⟨ho', ha', _⟩, rfl⟩ := hmem r' hr'
    have hsame := hdist.distinct before k before' k' ho ho' ha.2.2 ha'.2.2 heq
    rw [Conversion.record, Conversion.record, hsame] at hlt
    exact lt_irrefl _ hlt
  · refine List.pairwise_map.mpr ((reached_sorted charMode args ds ret).imp_of_mem ?_)
    intro r r' hr hr' hlt heq
    obtain ⟨before, k, ha, rfl⟩ := hmem r hr
    obtain ⟨before', k', ha', rfl⟩ := hmem r' hr'
    have hsame := hscan.distinct before k before' k' ha ha' heq
    rw [Conversion.record, Conversion.record, hsame] at hlt
    exact lt_irrefl _ hlt
  · intro r hr
    obtain ⟨before, k, ha, rfl⟩ := hmem r hr
    obtain ⟨hnull, bytes, hb, hread⟩ := hscan.block before k ha
    exact ⟨hnull, bytes, hb, readable_record hread⟩

/-- A run that touches the reached records and settles them does what the
wrapper should. -/
theorem rehomed_of_touches {charMode : AoRehomeMode} {args : ℕ → ℕ} {ds : List Directive} {ret : ℤ}
    {grow : ℕ → Bool} {w w' : World} {events : List Event}
    (hcount : ds.countP Directive.counted < 2 ^ 31) (hdist : DistinctDestinations args ds)
    (ht : Touches (reached charMode args ds ret) w w' events)
    (hs : ∀ r ∈ reached charMode args ds ret,
      Settled w.memory w'.memory r.mode r.slot events) :
    Rehomed charMode args ds ret grow w.memory w'.memory events := by
  have hmem := fun r => @mem_reached charMode args ds ret hcount hdist r
  have hsettled : ∀ before k, Assigned ds ret before k →
      Settled w.memory w'.memory (k.mode charMode) (k.argument args before) events :=
    fun before k ha => hs _ ((hmem _).mpr ⟨before, k, ha, rfl⟩)
  refine ⟨?_, ?_, ?_, ?_, fun before k ha => (hsettled before k ha).exempt, ?_⟩
  · intro before k ho hd hlt e he hslot
    obtain ⟨r, hr, heq⟩ := List.mem_map.mp (ht.accesses e he _ hslot)
    obtain ⟨before', k', ⟨ho', ha', hle⟩, rfl⟩ := (hmem r).mp hr
    have hsame := hdist.distinct before' k' before k ho' ho ha'.2.2 hd heq
    rw [hsame] at hle
    omega
  · intro x hx
    refine ht.slots x fun hin => ?_
    obtain ⟨r, hr, heq⟩ := List.mem_map.mp hin
    obtain ⟨before, k, ha, rfl⟩ := (hmem r).mp hr
    exact hx before k ha heq
  · intro a ha hne
    refine ht.blocks a ha fun hin => ?_
    obtain ⟨r, hr, heq⟩ := List.mem_map.mp hin
    obtain ⟨before, k, hassigned, rfl⟩ := (hmem r).mp hr
    exact hne before k hassigned heq
  · intro p hp
    obtain ⟨r, hr, heq⟩ := List.mem_map.mp (ht.frees p hp)
    obtain ⟨before, k, ha, rfl⟩ := (hmem r).mp hr
    exact ⟨before, k, ha, heq⟩
  · intro before k ha hex
    exact ((hsettled before k ha).other hex).imp_right fun h => ⟨h.1, Or.inl h.2⟩

/-- So does a wrapper that leaves everything alone, when nothing was assigned or
the plan was refused room. -/
theorem rehomed_refl {charMode : AoRehomeMode} {args : ℕ → ℕ} {ds : List Directive} {ret : ℤ}
    {grow : ℕ → Bool} (m : Memory)
    (h : (∀ before k, ¬ Assigned ds ret before k) ∨
      PlanRefused grow (expectedRecords charMode args [] ds).length) :
    Rehomed charMode args ds ret grow m m [] := by
  refine ⟨by simp, fun _ _ => rfl, fun _ _ _ => ⟨rfl, rfl⟩, by simp,
    fun _ _ _ _ => ⟨rfl, rfl, by simp⟩, ?_⟩
  intro before k ha _
  rcases h with h | h
  · exact (h before k ha).elim
  · exact Or.inr ⟨⟨rfl, rfl, by simp⟩, Or.inr ⟨h, rfl⟩⟩

theorem expectedRecords_wrap {charMode : AoRehomeMode} {args : ℕ → ℕ} {ds : List Directive}
    (hcount : ds.countP Directive.counted < 2 ^ 32) :
    (expectedRecords charMode args [] ds).map AoScanfRecord.wrap =
      expectedRecords charMode args [] ds := by
  refine (List.map_congr_left ?_).trans (List.map_id _)
  intro r hr
  have hle := expectedRecords_ordinal hr
  simp only [AoScanfRecord.wrap, Nat.mod_eq_of_lt (lt_of_le_of_lt hle hcount), id_eq]

/-- The common wrappers on a well-formed format with fewer than `2 ^ 31` counted
conversions and positions below `2 ^ 32`. -/
theorem wrapCommon_rehomes (P : Process) (w : World) (fromString : Bool) (fn input : ℕ)
    (format : Format) (args : ℕ → ℕ) (ds : List Directive) (htext : format.text = formatText ds)
    (hwf : WellFormed ds) (hfits : ∀ d ∈ ds, d.Fits)
    (hcount : ds.countP Directive.counted < 2 ^ 31) (hdist : DistinctDestinations args ds)
    (hfn : fn ≠ 0) (hready : (aoEnsureScanfSymbols P w).lib.bridgeReady = true)
    (hscan : Scanned format.charMode args ds (P.real ⟨fn, input, format, args⟩ w.memory).1
      (P.real ⟨fn, input, format, args⟩ w.memory).2) :
    Rehomes P w fromString fn input format args ds := by
  have hmem : (aoEnsureScanfSymbols P w).memory = w.memory := by
    unfold aoEnsureScanfSymbols
    split <;> rfl
  unfold Rehomes
  simp only [wrapCommon_scan]
  generalize hcall : P.real ⟨fn, input, format, args⟩ w.memory = call at *
  obtain ⟨ret, m⟩ := call
  have hnone : ret ≤ 0 → ∀ before k, ¬ Assigned ds ret before k := by
    rintro hle before k ⟨_, _, hnum⟩
    unfold number at hnum
    omega
  rcases scanFormat_text format.charMode ⟨args, P.grow w.memory⟩ hwf hfits with
    ⟨⟨s, hs⟩, hgrow⟩ | ⟨s, hs, hrec⟩
  · rw [wrapCommon_real input format hfn (by rw [hmem, htext]; exact hs)]
    simp only [hmem, hcall, ensure_trace]
    exact ⟨_, [], rfl, rfl, rehomed_refl m (Or.inr hgrow)⟩
  · rw [wrapCommon_real input format hfn (by rw [hmem, htext]; exact hs)]
    simp only [hmem, hcall, ensure_trace, hready, true_and]
    by_cases hret : ret > 0
    · rw [if_pos hret, hrec, expectedRecords_wrap (by omega), rehomePlan_takeWhile]
      obtain ⟨w', e, hrun, ht, hset⟩ := rehomeRecords_settled P
        (w := ⟨(aoEnsureScanfSymbols P w).lib, m, w.trace ++ [.invoke fn input format]⟩) hready
        (reached_prepared hcount hdist hscan)
      refine ⟨w', e, ?_, ?_, rehomed_of_touches hcount hdist ht hset⟩
      · unfold reached at hrun
        rw [hrun]
        rfl
      · rw [ht.trace, List.append_assoc]
        rfl
    · rw [if_neg hret]
      exact ⟨_, [], rfl, rfl, rehomed_refl m (Or.inl (hnone (by omega)))⟩

/-! ### Runs -/

theorem occurs_cons {d : Directive} {ds before : List Directive} {k : Conversion} :
    Occurs (d :: ds) before k ↔
      before = [] ∧ d = .conversion k ∨ ∃ mid, before = d :: mid ∧ Occurs ds mid k := by
  constructor
  · rintro ⟨after, heq⟩
    cases before with
    | nil => exact Or.inl ⟨rfl, (List.cons.inj heq).1⟩
    | cons d' mid =>
      obtain ⟨rfl, hrest⟩ := List.cons.inj heq
      exact Or.inr ⟨mid, rfl, after, hrest⟩
  · rintro (⟨rfl, rfl⟩ | ⟨mid, rfl, after, rfl⟩)
    · exact ⟨ds, rfl⟩
    · exact ⟨after, rfl⟩

theorem occurs_nil {before : List Directive} {k : Conversion} : ¬ Occurs [] before k := by
  rintro ⟨after, heq⟩
  cases before <;> cases heq

theorem occurs_take {ds before : List Directive} {k : Conversion} (h : Occurs ds before k) :
    before = ds.take before.length := by
  obtain ⟨after, rfl⟩ := h
  exact List.take_left.symm

def sampleMemory : Memory := ⟨fun _ => 0, fun _ => none, fun _ => false, .other, 0⟩

/-- `%ms%d%3mc%ms` -/
def mixedFormat : List Directive :=
  [.conversion ⟨.next, [], true, .none, .letter .s⟩,
    .conversion ⟨.next, [], false, .none, .letter .d⟩,
    .conversion ⟨.next, [⟨3, by decide⟩], true, .none, .letter .c⟩,
    .conversion ⟨.next, [], true, .none, .letter .s⟩]

def mixedText : List Int8 := [37, 109, 115, 37, 100, 37, 51, 109, 99, 37, 109, 115, 0]

def mixedArgs (i : ℕ) : ℕ := 1024 + 8 * i

/-- A scanner of this format whose input ends before the last conversion, and an
allocator with one block left. -/
def mixedScanner : Process where
  stdin := 64
  symbol _ := 128
  defaultSymbol _ := 256
  real call m := (3, { m with
    slots := Function.update (Function.update m.slots (call.args 0) 4096) (call.args 2) 4112
    blocks := Function.update (Function.update m.blocks 4096 (some [104, 105, 0])) 4112
      (some [97, 98, 99]) })
  grow _ size := decide (size = 192)
  answer m size := if m.blocks 8192 = none then 8192 else 0
  fresh m size h := by
    split at h
    · rename_i hb
      rw [if_pos hb]
      exact hb
    · exact (h rfl).elim

/-- What it leaves. -/
def mixedMemory : Memory :=
  (mixedScanner.real ⟨128, 512, .narrow mixedText, mixedArgs⟩ sampleMemory).2

theorem mixedFormat_valid {d : Directive} (h : d ∈ mixedFormat) : d.Valid ∧ d.Fits := by
  simp only [mixedFormat, List.mem_cons, List.not_mem_nil, or_false] at h
  rcases h with rfl | rfl | rfl | rfl <;>
    exact ⟨⟨trivial, fun _ => Or.inl rfl, trivial⟩, trivial⟩

theorem mixed_occurs {before : List Directive} {k : Conversion} (h : Occurs mixedFormat before k) :
    k.argument mixedArgs before = 1024 + 8 * before.length := by
  simp only [mixedFormat, occurs_cons, occurs_nil, and_false, exists_const, or_false] at h
  rcases h with ⟨rfl, hk⟩ | ⟨_, rfl, ⟨rfl, hk⟩ | ⟨_, rfl, ⟨rfl, hk⟩ | ⟨_, rfl, rfl, hk⟩⟩⟩ <;>
    cases hk <;> rfl

theorem mixed_assigned {before : List Directive} {k : Conversion}
    (h : Assigned mixedFormat 3 before k) :
    before.length = 0 ∧ k = ⟨.next, [], true, .none, .letter .s⟩ ∨
      before.length = 2 ∧ k = ⟨.next, [⟨3, by decide⟩], true, .none, .letter .c⟩ := by
  obtain ⟨ho, ha, hle⟩ := h
  simp only [mixedFormat, occurs_cons, occurs_nil, and_false, exists_const, or_false] at ho
  rcases ho with ⟨rfl, hk⟩ | ⟨_, rfl, ⟨rfl, hk⟩ | ⟨_, rfl, ⟨rfl, hk⟩ | ⟨_, rfl, rfl, hk⟩⟩⟩
  · cases hk
    exact Or.inl ⟨rfl, rfl⟩
  · cases hk
    cases ha.1
  · cases hk
    exact Or.inr ⟨rfl, rfl⟩
  · exact absurd hle (by decide)

theorem mixed_scanned : Scanned .charCount mixedArgs mixedFormat 3 mixedMemory := by
  refine ⟨Or.inr (by decide), ?_, ?_⟩
  · intro before k ha
    rw [mixed_occurs ha.1]
    rcases mixed_assigned ha with ⟨hlen, rfl⟩ | ⟨hlen, rfl⟩ <;> rw [hlen]
    · exact ⟨by decide, [104, 105, 0], rfl, by decide, show strlen [104, 105, 0] ≠ none by decide⟩
    · exact ⟨by decide, [97, 98, 99], rfl, by decide, rfl⟩
  · intro before k before' k' ha ha' heq
    rw [mixed_occurs ha.1, mixed_occurs ha'.1] at heq
    rw [occurs_take ha.1, occurs_take ha'.1]
    rcases mixed_assigned ha with ⟨hlen, -⟩ | ⟨hlen, -⟩ <;>
      rcases mixed_assigned ha' with ⟨hlen', -⟩ | ⟨hlen', -⟩ <;> rw [hlen, hlen'] at heq ⊢ <;>
      first | rfl | exact absurd heq (by decide)

/-- The word is moved, the copy of the characters is refused, and the last slot is not
looked at. -/
theorem wrapCommon_rehomes_sample : Rehomes mixedScanner ⟨startGlobals, sampleMemory, []⟩ true 128
    512 (.narrow mixedText) mixedArgs mixedFormat := by
  refine wrapCommon_rehomes mixedScanner ⟨startGlobals, sampleMemory, []⟩ true 128 512
    (.narrow mixedText) mixedArgs mixedFormat (by decide)
    ⟨fun d hd => (mixedFormat_valid hd).1, Or.inr (by decide)⟩ (fun d hd => (mixedFormat_valid hd).2)
    (by decide) ⟨?_, ?_⟩ (by decide) (by decide) mixed_scanned
  · intro before k ho _
    rw [mixed_occurs ho]
    omega
  · intro before k before' k' ho ho' _ _ heq
    rw [mixed_occurs ho, mixed_occurs ho'] at heq
    rw [occurs_take ho, occurs_take ho', show before.length = before'.length by omega]

/-- The wrappers do their part on all well-formed formats that are admitted. -/
def RehomesAll (admitted : List Directive → Prop) : Prop :=
  ∀ (P : Process) (w : World) (fromString : Bool) (fn input : ℕ) (format : Format) (args : ℕ → ℕ)
    (ds : List Directive), format.text = formatText ds → WellFormed ds → admitted ds →
    DistinctDestinations args ds → fn ≠ 0 → (aoEnsureScanfSymbols P w).lib.bridgeReady = true →
    Scanned format.charMode args ds (P.real ⟨fn, input, format, args⟩ w.memory).1
      (P.real ⟨fn, input, format, args⟩ w.memory).2 →
    Rehomes P w fromString fn input format args ds

theorem expectedRecords_append (charMode : AoRehomeMode) (args : ℕ → ℕ)
    (before ds ds' : List Directive) : expectedRecords charMode args before (ds ++ ds') =
      expectedRecords charMode args before ds ++ expectedRecords charMode args (before ++ ds) ds' := by
  induction ds generalizing before with
  | nil => simp [expectedRecords]
  | cons d ds ih =>
    rw [List.cons_append, expectedRecords, expectedRecords, ih]
    simp only [List.append_assoc, List.singleton_append]

def wordFormat : List Directive := [.conversion ⟨.next, [], true, .none, .letter .s⟩]

/-- `n` times `%d`, then `%ms`. -/
def longFormat (n : ℕ) : List Directive :=
  List.replicate n (.conversion ⟨.next, [], false, .none, .letter .d⟩) ++ wordFormat

theorem longFormat_mem {n : ℕ} {d : Directive} (h : d ∈ longFormat n) :
    d.Valid ∧ d.Fits ∧ d.isNumbered = false ∧ d.unsuppressed = true ∧ d.counted = true := by
  have hcases : d = .conversion ⟨.next, [], false, .none, .letter .d⟩ ∨
      d = .conversion ⟨.next, [], true, .none, .letter .s⟩ :=
    (List.mem_append.mp h).imp List.eq_of_mem_replicate List.mem_singleton.mp
  rcases hcases with rfl | rfl
  · exact ⟨⟨trivial, (fun h => by cases h), trivial⟩, trivial, rfl, rfl, rfl⟩
  · exact ⟨⟨trivial, fun _ => Or.inl rfl, trivial⟩, trivial, rfl, rfl, rfl⟩

theorem longFormat_count {n : ℕ} {before : List Directive} {k : Conversion}
    (h : Occurs (longFormat n) before k) :
    before.countP Directive.unsuppressed = before.length ∧ number before = 1 + before.length ∧
      k.destination ≠ .suppressed := by
  obtain ⟨after, heq⟩ := h
  have hall : ∀ d ∈ before, d ∈ longFormat n := fun d hd => heq ▸ List.mem_append_left _ hd
  have hk : Directive.conversion k ∈ longFormat n :=
    heq ▸ List.mem_append_right _ (List.mem_cons_self ..)
  refine ⟨?_, ?_, ?_⟩
  · exact List.countP_eq_length.mpr fun d hd => (longFormat_mem (hall d hd)).2.2.2.1
  · rw [number, List.countP_eq_length.mpr fun d hd => (longFormat_mem (hall d hd)).2.2.2.2]
  · have hun := (longFormat_mem hk).2.2.2.1
    simpa [Directive.unsuppressed] using hun

theorem longFormat_destinations (n : ℕ) :
    DistinctDestinations (fun i => i + 1) (longFormat n) := by
  have harg : ∀ before k, Occurs (longFormat n) before k →
      k.argument (fun i => i + 1) before ≠ 0 ∧
      (k.argument (fun i => i + 1) before = before.length + 1) := by
    intro before k ho
    obtain ⟨hun, _, hd⟩ := longFormat_count ho
    obtain ⟨after, heq⟩ := ho
    have hk := (longFormat_mem (heq ▸ List.mem_append_right _ (List.mem_cons_self ..) :
      Directive.conversion k ∈ longFormat n)).2.2.1
    have hnext : k.destination = .next := by
      simpa [Directive.isNumbered, Directive.unsuppressed, Directive.isNext, hd] using hk
    unfold Conversion.argument
    rw [hnext]
    simp [hun]
  refine ⟨fun before k ho _ => (harg before k ho).1, ?_⟩
  intro before k before' k' ho ho' _ _ heq
  rw [(harg before k ho).2, (harg before' k' ho').2] at heq
  obtain ⟨after, hds⟩ := ho
  obtain ⟨after', hds'⟩ := ho'
  exact (List.append_inj (hds.symm.trans hds') (by omega)).1

/-- A scanner that matches one conversion and stores nothing a pointer can see. -/
def oneScanner : Process :=
  { mixedScanner with real := fun _ m => (1, m), grow := fun _ _ => true }

theorem longFormat_records (charMode : AoRehomeMode) (n : ℕ) :
    expectedRecords charMode (fun i => i + 1) [] (longFormat n) =
      [⟨n + 1, n + 1, .charString, 0⟩] := by
  have hnone : expectedRecords charMode (fun i => i + 1) []
      (List.replicate n (.conversion ⟨.next, [], false, .none, .letter .d⟩)) = [] := by
    refine List.eq_nil_iff_forall_not_mem.mpr fun r hr => ?_
    obtain ⟨before, k, ⟨after, heq⟩, ha, _⟩ := mem_expectedRecords.mp hr
    have hk : Directive.conversion k ∈ List.replicate n
        (.conversion ⟨.next, [], false, .none, .letter .d⟩) :=
      heq ▸ List.mem_append_right _ (List.mem_cons_self ..)
    rw [Directive.conversion.inj (List.eq_of_mem_replicate hk)] at ha
    cases ha.1
  rw [longFormat, expectedRecords_append, hnone, List.nil_append, List.nil_append, wordFormat,
    expectedRecords, expectedRecords, List.append_nil]
  have hun : (Directive.conversion ⟨.next, [], false, .none, .letter .d⟩).unsuppressed = true := rfl
  have hcounted : (Directive.conversion ⟨.next, [], false, .none, .letter .d⟩).counted = true := rfl
  simp [expectedRecord, Conversion.argument, List.countP_replicate, hun, hcounted,
    Spec.isString, Conversion.mode, Conversion.isWide, Spec.isChar, Conversion.recordWidth,
    digitsValue, saturate, Nat.add_comm 1 n]

/-- The ordinal of the last conversion is a negative `int`. -/
theorem longFormat_reads {n : ℕ} (hn : n + 1 = 2 ^ 31) (P : Process) (w : World)
    (hslots : w.memory.slots (n + 1) = 0) :
    aoRehomeScanfPlan P w
      ((expectedRecords .unsupportedWideCharCount (fun i => i + 1) [] (longFormat n)).map
        AoScanfRecord.wrap) 1 = some (w.log (.readSlot (n + 1))) := by
  have hneg : ¬ toInt ((n + 1) % 2 ^ 32) > 1 := by
    rw [hn]
    decide
  simp only [longFormat_records, List.map_singleton, aoRehomeScanfPlan, AoScanfRecord.wrap, hneg,
    ite_false, aoRehomeScanfRecord, aoLoadPointerSlot, hslots, true_or, ite_true, Option.bind_some]

theorem longFormat_scanned {n : ℕ} (hpos : 0 < n) (charMode : AoRehomeMode) (m : Memory) :
    Scanned charMode (fun i => i + 1) (longFormat n) 1 m := by
  have hlast : Occurs (longFormat n)
      (List.replicate n (.conversion ⟨.next, [], false, .none, .letter .d⟩))
      ⟨.next, [], true, .none, .letter .s⟩ := ⟨[], rfl⟩
  have hle := occurs_number hlast ⟨rfl, rfl, by decide⟩
  have hnone : ∀ before k, ¬ Assigned (longFormat n) 1 before k := by
    rintro before k ⟨ho, ha, hnum⟩
    rw [(longFormat_count ho).2.1] at hnum
    obtain ⟨after, heq⟩ := ho
    obtain rfl : before = [] := List.eq_nil_of_length_eq_zero (by omega)
    obtain ⟨n, rfl⟩ : ∃ j, n = j + 1 := Nat.exists_eq_succ_of_ne_zero hpos.ne'
    rw [longFormat, List.replicate_succ] at heq
    rw [← Directive.conversion.inj (List.cons.inj heq).1] at ha
    cases ha.1
  refine ⟨Or.inr ⟨by decide, ?_⟩, fun before k ha => (hnone before k ha).elim,
    fun before k _ _ ha => (hnone before k ha).elim⟩
  unfold number at hle
  omega

/-- With `2 ^ 31` counted conversions, of which the scanner assigns one, the slot
of the last is read. -/
theorem longFormat_fails : ¬ RehomesAll fun ds => ∀ d ∈ ds, d.Fits := by
  intro h
  obtain ⟨n, hn⟩ : ∃ n, n + 1 = 2 ^ 31 := ⟨2 ^ 31 - 1, rfl⟩
  have hwf : WellFormed (longFormat n) :=
    ⟨fun d hd => (longFormat_mem hd).1, Or.inr fun d hd => (longFormat_mem hd).2.2.1⟩
  have hlast : Occurs (longFormat n)
      (List.replicate n (.conversion ⟨.next, [], false, .none, .letter .d⟩))
      ⟨.next, [], true, .none, .letter .s⟩ := ⟨[], rfl⟩
  obtain ⟨w', events, hrun, htrace, hre⟩ := h oneScanner ⟨startGlobals, sampleMemory, []⟩ true 128
    512 (.wide (formatText (longFormat n))) (fun i => i + 1) (longFormat n) rfl hwf
    (fun d hd => (longFormat_mem hd).2.1) (longFormat_destinations n) (by decide) rfl
    (longFormat_scanned (by omega) _ _)
  rcases scanFormat_text .unsupportedWideCharCount ⟨fun i => i + 1, fun _ => true⟩ hwf
    (fun d hd => (longFormat_mem hd).2.1) with ⟨_, _, _, hgrow⟩ | ⟨s, hs, hrec⟩
  · cases hgrow
  · have hplan := longFormat_reads hn oneScanner
      ⟨(aoEnsureScanfSymbols oneScanner ⟨startGlobals, sampleMemory, []⟩).lib, sampleMemory,
        [.invoke 128 512 (.wide (formatText (longFormat n)))]⟩ rfl
    rw [wrapCommon_scan, wrapCommon_real _ _ (by decide) hs, hrec] at hrun
    have hw := congrArg (Option.map (Prod.mk (1 : ℤ))) hplan
    obtain ⟨-, rfl⟩ := Prod.mk.inj (Option.some.inj (hw.symm.trans hrun))
    have hevents : [.readSlot (n + 1)] = events := (List.cons.inj htrace).2
    have hlt : (1 : ℤ) < number (List.replicate n
        (.conversion ⟨.next, [], false, .none, .letter .d⟩)) := by
      rw [(longFormat_count hlast).2.1, List.length_replicate]
      omega
    refine hre.beyond _ _ hlast (by decide) hlt (.readSlot (n + 1)) (by simp [← hevents]) ?_
    rw [Conversion.argument, (longFormat_count hlast).1, List.length_replicate]
    rfl

/-- A scanner that finds the argument at that position. -/
def farScanner : Process := { mixedScanner with
  real := fun call m => (1, { m with
    slots := Function.update m.slots (call.args 4294967296) 4096
    blocks := Function.update m.blocks 4096 (some [104, 105, 0]) })
  grow := fun _ _ => true }

/-- The parser takes the first argument, whose slot is NULL, and the block that
the scanner allocated is never looked at. -/
theorem farFormat_fails : ¬ RehomesAll fun ds => ds.countP Directive.counted < 2 ^ 31 := by
  intro h
  have hocc : Occurs farFormat []
      ⟨.numbered [4, 2, 9, 4, 9, 6, 7, 2, 9, 7], [], true, .none, .letter .s⟩ := ⟨[], rfl⟩
  obtain ⟨w', events, hrun, htrace, hre⟩ := h farScanner ⟨startGlobals, sampleMemory, []⟩ true 128
    512 (.narrow farText) (fun i => i + 1) farFormat (by decide)
    ⟨fun d hd => by
      rw [List.mem_singleton.mp hd]
      exact ⟨⟨by decide, by decide⟩, fun _ => Or.inl rfl, trivial⟩, Or.inl (by decide)⟩
    (by decide)
    ⟨fun before k ho _ => by
      obtain ⟨rfl, rfl⟩ := occurs_alone ho
      decide,
     fun before k before' k' ho ho' _ _ _ => by
      rw [(occurs_alone ho).1, (occurs_alone ho').1]⟩
    (by decide) (by decide)
    ⟨Or.inr (by decide), fun before k ha => by
      obtain ⟨rfl, rfl⟩ := occurs_alone ha.1
      exact ⟨by decide, [104, 105, 0], rfl, by decide, show strlen [104, 105, 0] ≠ none by decide⟩,
     fun before k before' k' ha ha' _ => by
      rw [(occurs_alone ha.1).1, (occurs_alone ha'.1).1]⟩
  have hparse : aoParseScanfFormat ⟨fun i => i + 1, fun _ => true⟩ farText =
      some (0, ⟨0, [0], ⟨[⟨1, 1, .charString, 0⟩], 8⟩, 1⟩) := by decide
  have hcall := @wrapCommon_real farScanner ⟨startGlobals, sampleMemory, []⟩ 128 512
    (.narrow farText) (fun i => i + 1) (fun env => aoParseScanfFormat env farText) 0 _ (by decide)
    hparse
  obtain ⟨-, rfl⟩ := Prod.mk.inj (Option.some.inj (hcall.symm.trans hrun))
  have hevents : [.readSlot 1] = events := (List.cons.inj htrace).2
  rcases hre.moved [] _ ⟨hocc, ⟨rfl, rfl, by decide⟩, by decide⟩ (by
    rintro (hex | hex)
    · cases hex
    · cases hex) with hmoved | ⟨-, ⟨_, content, -, -, hinfix⟩ | ⟨⟨size, -, hsize⟩, -⟩⟩
  · obtain ⟨_, content, -, -, -, hmalloc⟩ := hmoved.content
    rw [← hevents] at hmalloc
    cases List.mem_singleton.mp hmalloc
  · rw [← hevents] at hinfix
    exact absurd hinfix.length_le (by simp)
  · cases hsize

/-- Neither bound can be left out. -/
theorem rehomesAll_fails : (¬ RehomesAll fun _ => True) ∧
    (¬ RehomesAll fun ds => ∀ d ∈ ds, d.Fits) ∧
    ¬ RehomesAll fun ds => ds.countP Directive.counted < 2 ^ 31 := by
  refine ⟨fun h => longFormat_fails ?_, longFormat_fails, farFormat_fails⟩
  intro P w fromString fn input format args ds htext hwf _
  exact h P w fromString fn input format args ds htext hwf trivial

end LibcOverride.Scanf

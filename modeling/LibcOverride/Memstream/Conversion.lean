import LibcOverride.Memstream.Streams

/-!
# Multibyte text
(src/memstream_overrides.c:173)

How far `mbsnrtowcs` comes on a chunk, when the room is no limit.
-/

namespace LibcOverride.Memstream

namespace Locale

variable {L : Locale}

/-- `bytes` are one character. -/
inductive Char (L : Locale) : L.State → UInt32 → List UInt8 → L.State → Prop where
  | last {s s' : L.State} {c : UInt32} {b : UInt8} (h : L.feed s b = .char c s') : Char L s c [b] s'
  | more {s s₁ s' : L.State} {c : UInt32} {b : UInt8} {bytes : List UInt8}
    (h : L.feed s b = .more s₁) (hrest : Char L s₁ c bytes s') : Char L s c (b :: bytes) s'

/-- `bytes` are the encoding of a list of characters. -/
inductive Encodes (L : Locale) : L.State → List UInt32 → List UInt8 → L.State → Prop where
  | nil (s : L.State) : Encodes L s [] [] s
  | cons {s s₁ s' : L.State} {c : UInt32} {cs : List UInt32} {bytes rest : List UInt8}
    (hc : Char L s c bytes s₁) (hrest : Encodes L s₁ cs rest s') :
    Encodes L s (c :: cs) (bytes ++ rest) s'

theorem Char.length_pos {s s' : L.State} {c : UInt32} {bytes : List UInt8}
    (hc : Char L s c bytes s') : 0 < bytes.length := by
  cases hc with
  | last h => exact Nat.zero_lt_one
  | more h hrest => exact Nat.succ_pos _

/-- The conversion of a chunk with room for all of it. -/
def scan (L : Locale) (s : L.State) (src : List UInt8) : List UInt32 × Ending L.State :=
  L.decode s s src.length src

theorem decode_room (bytes : List UInt8) (first s : L.State) {room room' : ℕ}
    (h : bytes.length ≤ room) (h' : bytes.length ≤ room') :
    L.decode first s room bytes = L.decode first s room' bytes := by
  induction bytes generalizing first s room room' with
  | nil => simp [decode]
  | cons b bytes ih =>
    cases room with
    | zero => simp at h
    | succ room =>
      cases room' with
      | zero => simp at h'
      | succ room' =>
        simp only [List.length_cons, Nat.add_le_add_iff_right] at h h'
        simp only [decode]
        cases L.feed s b with
        | more s₁ => exact ih first s₁ (by omega) (by omega)
        | char c s₁ => simp only [ih s₁ s₁ h h']
        | invalid => rfl

theorem decode_eq_scan {s : L.State} {src : List UInt8} {room : ℕ} (h : src.length ≤ room) :
    L.decode s s room src = L.scan s src :=
  decode_room src s s h le_rfl

theorem decode_length (bytes : List UInt8) (first s : L.State) (room : ℕ) :
    (L.decode first s room bytes).1.length ≤ bytes.length ∧
      ((L.decode first s room bytes).2 = .null →
        (L.decode first s room bytes).1.length < bytes.length) := by
  induction bytes generalizing first s room with
  | nil => simp [decode]
  | cons b bytes ih =>
    cases room with
    | zero => simp [decode]
    | succ room =>
      simp only [decode]
      cases L.feed s b with
      | more s₁ =>
        have h := ih first s₁ (room + 1)
        refine ⟨Nat.le_succ_of_le h.1, fun he => Nat.lt_succ_of_lt (h.2 he)⟩
      | char c s₁ =>
        have h := ih s₁ s₁ room
        by_cases hc : c = 0
        · simp [hc]
        · simp only [hc, if_false, List.length_cons]
          exact ⟨Nat.succ_le_succ h.1, fun he => Nat.succ_lt_succ (h.2 he)⟩
      | invalid => simp

theorem decode_char {s s₁ : L.State} {c : UInt32} {bytes : List UInt8} (hc : Char L s c bytes s₁)
    (first : L.State) (rest : List UInt8) (room : ℕ) :
    L.decode first s (room + 1) (bytes ++ rest) =
      if c = 0 then ([], .null)
      else (c :: (L.decode s₁ s₁ room rest).1, (L.decode s₁ s₁ room rest).2) := by
  induction hc with
  | last h =>
    simp only [List.singleton_append, decode, h]
  | more h hrest ih =>
    simp only [List.cons_append, decode, h]
    exact ih

/-- Text without a null is converted whole, text with one up to the first. -/
theorem decode_text {s s' : L.State} {cs : List UInt32} {bytes : List UInt8}
    (he : Encodes L s cs bytes s') {room : ℕ} (hroom : bytes.length ≤ room) :
    (0 ∉ cs → L.decode s s room bytes = (cs, .limit s')) ∧
      (0 ∈ cs → (L.decode s s room bytes).2 = .null ∧
        (L.decode s s room bytes).1.length < cs.length) := by
  induction he generalizing room with
  | nil s => simp [decode]
  | cons hc hrest ih =>
    rename_i s s₁ s' c cs bytes rest
    have hpos := hc.length_pos
    rw [List.length_append] at hroom
    obtain ⟨room, rfl⟩ := Nat.exists_eq_add_of_le' (show 1 ≤ room by omega)
    have hr := @ih room (by omega)
    rw [decode_char hc]
    by_cases hzero : c = 0
    · subst hzero
      simp
    · simp only [hzero, if_false, List.mem_cons, not_or, List.length_cons]
      refine ⟨fun h => ?_, fun h => ?_⟩
      · rw [hr.1 h.2]
      · have h0 : 0 ∈ cs := h.resolve_left fun h0 => hzero h0.symm
        exact ⟨(hr.2 h0).1, Nat.succ_lt_succ (hr.2 h0).2⟩

theorem Encodes.length_le {s s' : L.State} {cs : List UInt32} {bytes : List UInt8}
    (he : Encodes L s cs bytes s') : cs.length ≤ bytes.length := by
  induction he with
  | nil s => exact le_rfl
  | cons hc hrest ih =>
    have hpos := hc.length_pos
    rw [List.length_cons, List.length_append]
    omega

/-! ### The conversion as a whole -/

theorem stored_length (s : L.State) (src : List UInt8) (room : ℕ) :
    (L.mbsnrtowcs s src room).stored.length ≤ src.length := by
  have h := decode_length src s s room (L := L)
  unfold mbsnrtowcs
  split
  · rename_i heq
    rw [heq] at h
    exact h.1
  · rename_i heq
    rw [heq] at h
    have hl := h.2 rfl
    dsimp only at hl
    simp only [List.length_append, List.length_singleton]
    omega
  · rename_i heq
    rw [heq] at h
    exact h.1

theorem result_le {s : L.State} {src : List UInt8} {room n : ℕ}
    (h : (L.mbsnrtowcs s src room).result = some n) :
    n ≤ (L.mbsnrtowcs s src room).stored.length := by
  unfold mbsnrtowcs at h ⊢
  split at h
  · cases h
    exact le_rfl
  · cases h
    simp
  · cases h

/-- Only a null is stored behind what is counted. -/
theorem stored_behind {s : L.State} {src : List UInt8} {room n : ℕ}
    (h : (L.mbsnrtowcs s src room).result = some n) {j : ℕ} (hj : n ≤ j)
    (hlt : j < (L.mbsnrtowcs s src room).stored.length) :
    (L.mbsnrtowcs s src room).stored[j]? = some 0 := by
  unfold mbsnrtowcs at h hlt ⊢
  generalize L.decode s s room src = r at h hlt ⊢
  obtain ⟨cs, e⟩ := r
  cases e with
  | limit s' =>
    cases h
    exact absurd hlt (Nat.not_lt.mpr hj)
  | null =>
    cases h
    have hlen : j < cs.length + 1 := by simpa using hlt
    obtain rfl : j = cs.length := by omega
    simp
  | invalid => cases h

theorem mbsnrtowcs_text {cs : List UInt32} {src : List UInt8}
    (he : Encodes L L.initial cs src L.initial) {room : ℕ} (hroom : src.length ≤ room)
    (hcs : 0 ∉ cs) : L.mbsnrtowcs L.initial src room = ⟨cs, some cs.length, L.initial⟩ := by
  rw [mbsnrtowcs, (decode_text he hroom).1 hcs]

theorem mbsnrtowcs_null {cs : List UInt32} {src : List UInt8}
    (he : Encodes L L.initial cs src L.initial) {room : ℕ} (hroom : src.length ≤ room)
    (hcs : 0 ∈ cs) : ∃ n, n < cs.length ∧ (L.mbsnrtowcs L.initial src room).result = some n ∧
      (L.mbsnrtowcs L.initial src room).state = L.initial := by
  obtain ⟨hnull, hlen⟩ := (decode_text he hroom).2 hcs
  unfold mbsnrtowcs
  split
  · rename_i heq
    rw [heq] at hnull
    cases hnull
  · rename_i heq
    rw [heq] at hlen
    exact ⟨_, hlen, rfl, rfl⟩
  · rename_i heq
    rw [heq] at hnull
    cases hnull

theorem mbsnrtowcs_invalid {s : L.State} {src : List UInt8} {room : ℕ} (hroom : src.length ≤ room)
    {cs : List UInt32} (h : L.scan s src = (cs, .invalid)) :
    L.mbsnrtowcs s src room = ⟨cs, none, L.spoilt s src⟩ := by
  rw [mbsnrtowcs, decode_eq_scan hroom, h]

theorem result_none_iff {s : L.State} {src : List UInt8} {room : ℕ} (hroom : src.length ≤ room) :
    (L.mbsnrtowcs s src room).result = none ↔ ∃ cs, L.scan s src = (cs, .invalid) := by
  rw [mbsnrtowcs, decode_eq_scan hroom]
  cases L.scan s src with
  | mk cs e => cases e <;> simp

end Locale

end LibcOverride.Memstream

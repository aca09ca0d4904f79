import LibcOverride.Memstream.Wide

/-!
# Wide writes that fail
(src/memstream_overrides.c:118-185)

A conversion stores what it decoded before an invalid sequence, and the write
then returns 0.
-/

namespace LibcOverride.Memstream
open Buffer

variable {L : Locale}

def Stream.elem {α σ : Type} (s : Stream α σ) (i : ℕ) : Option α :=
  (s.heap.read s.cookie.buf).bind fun b => b[i]?

/-- Nothing that shows differs. -/
structure Unchanged {α σ : Type} (s s' : Stream α σ) : Prop where
  pos : s'.cookie.pos = s.cookie.pos
  len : s'.cookie.len = s.cookie.len
  sizep : s'.sizep = s.sizep
  state : s'.cookie.state = s.cookie.state
  elements : ∀ i, i ≤ s.cookie.len → s'.elem i = s.elem i

/-- The write returns, and if it returns 0 it changed nothing that shows and
left a terminator. -/
def Invisible (L : Locale) (s : Stream UInt32 L.State) (buf : List UInt8)
    (a : Heap.Answer UInt32) : Prop :=
  ∃ n s', aoWmemstreamWrite L s buf a = some (n, s') ∧
    (n = 0 → Unchanged s s' ∧ s'.elem s'.cookie.len = some 0)

/-- The conversion meets an invalid sequence after `cs`. -/
def Breaks (L : Locale) (s : Stream UInt32 L.State) (buf : List UInt8) (cs : List UInt32) : Prop :=
  L.scan s.cookie.state buf = (cs, .invalid)

/-- Either the write does not fail, or the terminator stood before it and the
failed conversion keeps its state and stores, up to the length, what is there. -/
def Harmless (L : Locale) (s : Stream UInt32 L.State) (buf : List UInt8)
    (a : Heap.Answer UInt32) : Prop :=
  Room maxChars s buf.length a ∧ (∀ cs, ¬ Breaks L s buf cs) ∨
    s.elem s.cookie.len = some 0 ∧ (Room maxChars s buf.length a → ∀ cs, Breaks L s buf cs →
      L.spoilt s.cookie.state buf = s.cookie.state ∧
        ∀ k c, cs[k]? = some c → s.cookie.pos + k ≤ s.cookie.len →
          s.elem (s.cookie.pos + k) = some c)

/-- A write that does not fail, or fails without storing anything new. -/
def Clean (L : Locale) (s : Stream UInt32 L.State) : Op UInt32 → Prop
  | .write buf a => buf.length ≤ ssizeMax ∧ (Room maxChars s buf.length a → ∀ cs,
      Breaks L s buf cs → L.spoilt s.cookie.state buf = s.cookie.state ∧
        ∀ k c, cs[k]? = some c → s.cookie.pos + k < s.cookie.len ∧
          s.elem (s.cookie.pos + k) = some c)
  | .seek _ _ => True

theorem elem_eq {α σ : Type} [Zero α] {cap : ℕ} {s : Stream α σ} {b : List α} (hs : Sound cap s b)
    (i : ℕ) : s.elem i = b[i]? := by
  rw [Stream.elem, hs.read, Option.bind_some]

theorem converted_getElem? {s s' : Stream UInt32 L.State} {b b' : List UInt32} {len : ℕ}
    (hr : Roomy maxChars s b (s.cookie.pos + len + 1) s' b') {v : List UInt32}
    (hv : v.length ≤ len) {i : ℕ} (hi : i < b.length) :
    (overwritten b' s'.cookie.pos v)[i]? =
      if s.cookie.pos ≤ i ∧ i < s.cookie.pos + v.length then v[i - s.cookie.pos]? else b[i]? := by
  have hroom := hr.room
  have hpos := hr.pos
  have hsize := hr.sound.size
  obtain ⟨k, hk⟩ := hr.longer
  rw [getElem?_overwritten (by omega), hpos]
  split
  · rfl
  · rw [hk, List.getElem?_append_left hi]

/-- A conversion that fails does not show just when it keeps the state and stores
no other character up to the length. -/
theorem failed_unchanged_iff {s s' : Stream UInt32 L.State} {b b' : List UInt32} {len : ℕ}
    (hs : Sound maxChars s b) (hr : Roomy maxChars s b (s.cookie.pos + len + 1) s' b')
    {cs : List UInt32} {state : L.State} (hstored : cs.length ≤ len) :
    Unchanged s ((converted s' b' ⟨cs, none, state⟩).fail .eilseq) ↔
      state = s.cookie.state ∧ ∀ k c, cs[k]? = some c → s.cookie.pos + k ≤ s.cookie.len →
        s.elem (s.cookie.pos + k) = some c := by
  have hkept := hr.len
  have hsound := converted_sound hr (r := ⟨cs, none, state⟩) hstored
  have helem (i : ℕ) (hi : i ≤ s.cookie.len) :
      ((converted s' b' ⟨cs, none, state⟩).fail .eilseq).elem i =
        if s.cookie.pos ≤ i ∧ i < s.cookie.pos + cs.length then cs[i - s.cookie.pos]?
        else b[i]? := by
    have hlt := hs.len
    rw [elem_eq (hsound.fail .eilseq)]
    exact converted_getElem? hr hstored (by omega)
  constructor
  · intro hun
    refine ⟨hun.state, ?_⟩
    intro k c hk hle
    have hlt : k < cs.length := (List.getElem?_eq_some_iff.mp hk).1
    have hel := hun.elements _ hle
    rw [helem _ hle, if_pos (by omega), Nat.add_sub_cancel_left, hk] at hel
    exact hel.symm
  · rintro ⟨hst, hels⟩
    refine ⟨hr.pos, hr.len, hr.sizep, hst, ?_⟩
    intro i hi
    rw [helem i hi]
    split
    · rename_i hin
      obtain ⟨k, rfl⟩ := Nat.exists_eq_add_of_le hin.1
      have hk : k < cs.length := by omega
      rw [Nat.add_sub_cancel_left, hels k cs[k] (List.getElem?_eq_getElem hk) hi]
      exact List.getElem?_eq_getElem hk
    · exact (elem_eq hs i).symm

theorem invisible_iff {s : Stream UInt32 L.State} {b : List UInt32} (hs : Sound maxChars s b)
    {buf : List UInt8} (hne : buf ≠ []) (hlen : buf.length ≤ ssizeMax) (a : Heap.Answer UInt32) :
    Invisible L s buf a ↔ Harmless L s buf a := by
  have hpos : buf.length ≠ 0 := fun h => hne (List.length_eq_zero_iff.mp h)
  rcases aoWmemstreamWrite_cases hs hlen a with ⟨hno, hw⟩ | ⟨hyes, s', b', room, hr, hle, hw⟩
  · constructor
    · rintro ⟨n, s', heq, h⟩
      rw [hw] at heq
      cases heq
      exact Or.inr ⟨(h rfl).2, fun hroom => absurd hroom hno⟩
    · rintro (⟨hroom, -⟩ | ⟨hterm, -⟩)
      · exact absurd hroom hno
      · exact ⟨0, _, hw, fun _ => ⟨⟨rfl, rfl, rfl, rfl, fun i _ => rfl⟩, hterm⟩⟩
  · cases hres : (L.mbsnrtowcs s.cookie.state buf room).result with
    | some n =>
      rw [hres] at hw
      have hvalid (cs : List UInt32) : ¬ Breaks L s buf cs := by
        intro hcs
        rw [(Locale.result_none_iff hle).mpr ⟨cs, hcs⟩] at hres
        cases hres
      constructor
      · intro _
        exact Or.inl ⟨hyes, hvalid⟩
      · intro _
        exact ⟨_, _, hw, fun h => absurd h hpos⟩
    | none =>
      obtain ⟨cs, hcs⟩ := (Locale.result_none_iff hle).mp hres
      have hconv := Locale.mbsnrtowcs_invalid hle hcs
      rw [hconv] at hw
      have hstored : cs.length ≤ buf.length := by
        have h := Locale.stored_length s.cookie.state buf room (L := L)
        rwa [hconv] at h
      have hunchanged := @failed_unchanged_iff _ _ _ _ _ _ hs hr _ (L.spoilt s.cookie.state buf) hstored
      constructor
      · rintro ⟨n, t, heq, h⟩
        rw [hw] at heq
        cases heq
        obtain ⟨hun, hterm⟩ := h rfl
        rw [hun.len, hun.elements _ le_rfl] at hterm
        refine Or.inr ⟨hterm, fun _ cs' hcs' => ?_⟩
        have hsame : cs' = cs := by
          rw [Breaks, hcs] at hcs'
          exact (congrArg Prod.fst hcs').symm
        subst hsame
        exact hunchanged.mp hun
      · rintro (⟨-, hvalid⟩ | ⟨hterm, hcond⟩)
        · exact absurd hcs (hvalid cs)
        · have hun := hunchanged.mpr (hcond hyes cs hcs)
          refine ⟨0, _, hw, fun _ => ⟨hun, ?_⟩⟩
          rw [hun.len, hun.elements _ le_rfl]
          exact hterm

/-- The elements behind the end are zero. -/
def Ended {α σ : Type} [Zero α] (s : Stream α σ) (b : List α) : Prop :=
  ∀ i, s.cookie.len ≤ i → i < b.length → b[i]? = some 0

theorem Ended.longer {α : Type} [Zero α] {b : List α} {n : ℕ}
    (h : ∀ i, n ≤ i → i < b.length → b[i]? = some 0) (k : ℕ) :
    ∀ i, n ≤ i → i < (b ++ List.replicate k 0).length → (b ++ List.replicate k (0 : α))[i]? = some 0 := by
  intro i hn hi
  rw [List.length_append, List.length_replicate] at hi
  rw [List.getElem?_append]
  split
  · rename_i hlt
    exact h i hn hlt
  · rw [List.getElem?_replicate, if_pos (by omega)]

theorem Roomy.ended {s s' : Stream UInt32 L.State} {b b' : List UInt32} {need : ℕ}
    (hr : Roomy maxChars s b need s' b') (he : Ended s b) : Ended s' b' := by
  obtain ⟨k, hk⟩ := hr.longer
  rw [Ended, hr.len, hk]
  exact Ended.longer he k

/-- What a failed conversion decoded below the length leaves the end alone. -/
theorem failed_ended {s s' : Stream UInt32 L.State} {b b' : List UInt32} {len : ℕ}
    (hr : Roomy maxChars s b (s.cookie.pos + len + 1) s' b') (he : Ended s b)
    {cs : List UInt32} (state : L.State) (e : Errno) (hstored : cs.length ≤ len)
    (hlow : ∀ k c, cs[k]? = some c → s.cookie.pos + k < s.cookie.len) :
    Ended ((converted s' b' ⟨cs, none, state⟩).fail e) (overwritten b' s'.cookie.pos cs) := by
  have hroom := hr.room
  have hpos := hr.pos
  have hsize := hr.sound.size
  intro i hi hib
  change s'.cookie.len ≤ i at hi
  rw [length_overwritten (by omega)] at hib
  rw [getElem?_overwritten (by omega)]
  split
  · rename_i hin
    obtain ⟨j, rfl⟩ := Nat.exists_eq_add_of_le hin.1
    have hj : j < cs.length := by omega
    have hlt := hlow j cs[j] (List.getElem?_eq_getElem hj)
    have hkept := hr.len
    omega
  · exact hr.ended he i hi hib

theorem stored_ended {s s' : Stream UInt32 L.State} {b b' : List UInt32} {buf : List UInt8}
    {room n : ℕ} (hr : Roomy maxChars s b (s.cookie.pos + buf.length + 1) s' b') (he : Ended s b)
    (hres : (L.mbsnrtowcs s.cookie.state buf room).result = some n) :
    Ended ((converted s' b' (L.mbsnrtowcs s.cookie.state buf room)).advance n)
      (overwritten b' s'.cookie.pos (L.mbsnrtowcs s.cookie.state buf room).stored) := by
  have hstored := Locale.stored_length s.cookie.state buf room (L := L)
  have hroom := hr.room
  have hpos := hr.pos
  have hsize := hr.sound.size
  intro i hi hib
  change (if s'.cookie.pos + n ≥ s'.cookie.len then s'.cookie.pos + n else s'.cookie.len) ≤ i at hi
  rw [length_overwritten (by omega)] at hib
  rw [getElem?_overwritten (by omega)]
  split
  · rename_i hin
    refine Locale.stored_behind hres ?_ (by omega)
    split at hi <;> omega
  · refine hr.ended he i ?_ hib
    split at hi <;> omega

/-- A clean call leaves zeros behind the end. -/
theorem clean_step {s s' : Stream UInt32 L.State} {b : List UInt32} {op : Op UInt32} {r : Reply}
    (hs : Sound maxChars s b) (he : Ended s b) (hk : Clean L s op)
    (hstep : (wmemstreamFuncs L).step s op = some (r, s')) :
    ∃ b', Sound maxChars s' b' ∧ Ended s' b' := by
  cases op with
  | write buf a =>
    obtain ⟨hlen, hclean⟩ := hk
    rcases aoWmemstreamWrite_cases hs hlen a with ⟨-, hw⟩ | ⟨hyes, s₁, b₁, room, hr, hle, hw⟩
    · simp only [IoFuncs.step, wmemstreamFuncs, hw, Option.map_some, Option.some.injEq,
        Prod.mk.injEq] at hstep
      rw [← hstep.2]
      exact ⟨b, hs.fail _, he⟩
    · have hstored := Locale.stored_length s.cookie.state buf room (L := L)
      have hsound := converted_sound hr hstored
      cases hres : (L.mbsnrtowcs s.cookie.state buf room).result with
      | none =>
        obtain ⟨cs, hcs⟩ := (Locale.result_none_iff hle).mp hres
        have hconv := Locale.mbsnrtowcs_invalid hle hcs
        rw [hconv] at hw hstored hsound
        obtain ⟨-, hels⟩ := hclean hyes cs hcs
        simp only [IoFuncs.step, wmemstreamFuncs, hw, Option.map_some, Option.some.injEq,
          Prod.mk.injEq] at hstep
        rw [← hstep.2]
        exact ⟨_, hsound.fail _, failed_ended hr he _ _ hstored fun k c hc => (hels k c hc).1⟩
      | some n =>
        have hn := Locale.result_le hres
        have hroom := hr.room
        have hpos := hr.pos
        simp only [IoFuncs.step, wmemstreamFuncs, hw, hres, Option.map_some, Option.some.injEq,
          Prod.mk.injEq] at hstep
        rw [← hstep.2]
        refine ⟨_, hsound.advance (n := n) ?_, stored_ended hr he hres⟩
        change s₁.cookie.pos + n < s₁.cookie.space
        omega
  | seek offset whence =>
    have heq := aoWmemstreamSeek_eq hs offset whence
    by_cases hr : Reaches maxChars s offset whence
    · have hp := hr.toNat_le
      simp only [IoFuncs.step, wmemstreamFuncs, heq, hr, if_true, Option.map_some,
        Option.some.injEq, Prod.mk.injEq] at hstep
      rw [← hstep.2]
      exact ⟨b, (hs.at_pos hp).withState L.initial, he⟩
    · simp only [IoFuncs.step, wmemstreamFuncs, heq, hr, if_false, Option.map_some,
        Option.some.injEq, Prod.mk.injEq] at hstep
      rw [← hstep.2]
      exact ⟨b, hs.fail _, he⟩

theorem clean_runs {s₀ s : Stream UInt32 L.State} {b₀ : List UInt32} {ops : List (Op UInt32)}
    (hs : Sound maxChars s₀ b₀) (he : Ended s₀ b₀) (h : (wmemstreamFuncs L).Runs (Clean L) s₀ ops s) :
    ∃ b, Sound maxChars s b ∧ Ended s b := by
  induction h with
  | opened => exact ⟨b₀, hs, he⟩
  | call h hk hstep ih =>
    obtain ⟨b, hb, heb⟩ := ih
    exact clean_step hb heb hk hstep

/-- In every state that calls can reach, a write is invisible if it fails
exactly when it is harmless; clean calls never lose the terminator. -/
theorem failed_write_invisible_iff {w : World UInt32} {a : OpenAnswers UInt32}
    {s₀ s : Stream UInt32 L.State} (hopen : openWmemstream L w a = some (.stream s₀))
    {ops : List (Op UInt32)} (hrun : (wmemstreamFuncs L).Runs (fun _ op => op.Fits) s₀ ops s) :
    (∀ buf a, buf ≠ [] → buf.length ≤ ssizeMax → (Invisible L s buf a ↔ Harmless L s buf a)) ∧
      ((wmemstreamFuncs L).Runs (Clean L) s₀ ops s → s.elem s.cookie.len = some 0) := by
  rw [openWmemstream, openStream_eq w L.initial a (by decide) (by decide)] at hopen
  have hs₀ := openResult_stream (Option.some.inj hopen)
  subst hs₀
  have hsound := openedStream_sound maxChars w L.initial
  constructor
  · intro buf a hne hlen
    obtain ⟨b, hb⟩ := wmemstream_runs_sound (fun _ _ h => h) hsound hrun
    exact invisible_iff hb hne hlen a
  · intro hclean
    have hended : Ended (openedStream w L.initial) [(0 : UInt32)] := by
      intro i _ hi
      have hi0 : i = 0 := by simpa using hi
      subst hi0
      rfl
    obtain ⟨b, hb, heb⟩ := clean_runs hsound hended hclean
    rw [elem_eq hb]
    exact heb _ le_rfl hb.len

/-- The text `"ab"`. -/
def written : Stream UInt32 ascii.State :=
  { heap := (openedWide.heap.release 1).alloc [97, 98, 0]
    bufp := some 2, sizep := 2, errno := .other 0, self := 0
    cookie := ⟨2, 2, 2, 3, ()⟩ }

def rewound : Stream UInt32 ascii.State :=
  { written with cookie := { written.cookie with pos := 0 } }

theorem written_reachable : (wmemstreamFuncs ascii).Runs (fun _ op => op.Fits) openedWide
    ([] ++ [.write [97, 98] (grantedAll UInt32)]) written :=
  .call (.opened _) (Nat.le_of_ble_eq_true rfl) rfl

theorem rewound_reachable : (wmemstreamFuncs ascii).Runs (fun _ op => op.Fits) openedWide
    ([.write [97, 98] (grantedAll UInt32)] ++ [.seek 0 0]) rewound :=
  .call written_reachable trivial rfl

theorem rewound_clean : (wmemstreamFuncs ascii).Runs (Clean ascii) openedWide
    ([] ++ [.write [97, 98] (grantedAll UInt32)] ++ [.seek 0 0]) rewound := by
  have hvalid : ∀ cs, ¬ Breaks ascii openedWide [97, 98] cs := fun cs hcs => by cases hcs
  have hwrite : Clean ascii openedWide (.write [97, 98] (grantedAll UInt32)) :=
    ⟨Nat.le_of_ble_eq_true rfl, fun _ cs hcs => (hvalid cs hcs).elim⟩
  exact .call (.call (.opened _) hwrite rfl) trivial rfl

/-- At the start of `"ab"` an invalid byte behind `"a"` shows nothing, and behind `"c"` it
shows; the terminator stands before them. -/
theorem failed_write_invisible_iff_sample :
    (Invisible ascii rewound [97, 255] (grantedAll UInt32) ∧
      ¬ Harmless ascii rewound [99, 255] (grantedAll UInt32)) ∧
    rewound.elem rewound.cookie.len = some 0 := by
  obtain ⟨hiff, hclean⟩ := failed_write_invisible_iff openedWide_opens rewound_reachable
  refine ⟨⟨?_, ?_⟩, hclean rewound_clean⟩
  · refine (hiff [97, 255] (grantedAll UInt32) (by decide) (Nat.le_of_ble_eq_true rfl)).mpr
      (Or.inr ⟨rfl, fun _ cs hcs => ?_⟩)
    cases hcs
    refine ⟨rfl, fun k c hk _ => ?_⟩
    cases k with
    | zero =>
      cases hk
      rfl
    | succ k => cases hk
  · intro h
    have hinvisible :=
      (hiff [99, 255] (grantedAll UInt32) (by decide) (Nat.le_of_ble_eq_true rfl)).mpr h
    obtain ⟨n, s', heq, hkept⟩ := hinvisible
    have hw : aoWmemstreamWrite ascii rewound [99, 255] (grantedAll UInt32) = some (n, s') := heq
    cases hw
    exact absurd ((hkept rfl).1.elements 0 (by decide)) (by decide)

/-- `"c"` and an invalid byte at the start of `"ab"` leave `"cb"` and return 0. -/
theorem failed_write_visible :
    (wmemstreamFuncs ascii).Runs (fun _ op => op.Fits) openedWide
      ([.write [97, 98] (grantedAll UInt32)] ++ [.seek 0 0]) rewound ∧
    ¬ Invisible ascii rewound [99, 255] (grantedAll UInt32) := by
  refine ⟨rewound_reachable, ?_⟩
  intro h
  obtain ⟨n, s', heq, h⟩ := h
  have hw : aoWmemstreamWrite ascii rewound [99, 255] (grantedAll UInt32) = some (n, s') := heq
  cases hw
  exact absurd ((h rfl).1.elements 0 (by decide)) (by decide)

end LibcOverride.Memstream

import LibcOverride.Line.Growing

/-!
# One getdelim call
(src/line_overrides.c:38-80)

The line a stream has next, and the ways a call on it can end.
-/

namespace LibcOverride.Line
open Buffer

/-- What ends a line. -/
inductive Stop where
  | delim
  | eof
  | error
  deriving Repr, DecidableEq

/-- The next line with its delimiter, what ended it, and what follows. -/
def scanLine (delim : ℤ) : List Read → List UInt8 × Stop × List Read
  | [] => ([], .eof, [])
  | .eof :: rest => ([], .eof, rest)
  | .error :: rest => ([], .error, rest)
  | .byte b :: rest =>
    if (b.toNat : ℤ) = delim then ([b], .delim, rest)
    else (b :: (scanLine delim rest).1, (scanLine delim rest).2)

/-- The read that ended a line without a delimiter. -/
def Stop.reads : Stop → List Read
  | .delim => []
  | .eof => [.eof]
  | .error => [.error]

/-- `m` more reads, from `length` on and with `k` requests made, meet no growth
whose two requests fail. -/
def enough (env : Env) : ℕ → ℕ → ℕ → ℕ → Bool
  | 0, _, _, _ => true
  | m + 1, k, n, length =>
    if length + 1 ≥ n then
      match growth env k length with
      | some c => enough env m (k + (requests env k length).length) c (length + 1)
      | none => false
    else enough env m k n (length + 1)

/-- No fallback request was refused. -/
def Granted (rs : List Request) : Prop := ∀ r ∈ rs, r.fallback = true → r.granted = true

/-- The loop after the bytes of `line`; `m` counts reads to come. -/
structure Inv (env : Env) (w₀ w : World) (b line : List UInt8) : Prop where
  buffered : Buffered w₀ w b
  text : b.take line.length = line
  room : line = [] ∨ line.length < w.n
  grows : w₀.n ≤ w.n
  reads : w.reads = w₀.reads ++ line.map .byte
  stores : ∃ st, w.stores = w₀.stores ++ st ∧ ∀ x ∈ st, x.1 < x.2
  asked : ∃ rs, w.asked = w₀.asked ++ rs ∧ Granted rs
  error : w.file.error = w₀.file.error
  locks : w.file.locks = w₀.file.locks
  schedule : ∀ m, enough env (line.length + m) w₀.asked.length w₀.n 0 =
    enough env m w.asked.length w.n line.length

/-- What every call leaves. -/
structure Final (w₀ w' : World) (b : List UInt8) : Prop where
  buffered : Buffered w₀ w' b
  grows : w₀.n ≤ w'.n
  stores : ∃ st, w'.stores = w₀.stores ++ st ∧ ∀ x ∈ st, x.1 < x.2
  locks : w'.file.locks = w₀.file.locks - 1

/-- How a call ends on a stream whose next line is `line`. -/
inductive Outcome (env : Env) (w₀ : World) (line : List UInt8) (stop : Stop) (rest : List Read) :
    ℤ → World → Prop where
  | returned (w' : World) (b : List UInt8) (hf : Final w₀ w' b) (hne : line ≠ [])
    (hstop : stop = .delim ∨ stop = .eof ∧ w₀.file.error = false)
    (htext : b.take line.length = line) (hnul : b[line.length]? = some 0)
    (hroom : line.length + 1 ≤ w'.n) (hscript : w'.file.script = rest)
    (herror : w'.file.error = w₀.file.error)
    (hreads : w'.reads = w₀.reads ++ (line.map .byte ++ stop.reads))
    (hasked : ∃ rs, w'.asked = w₀.asked ++ rs ∧ Granted rs) :
    Outcome env w₀ line stop rest (ssizeT line.length) w'
  | ended (w' : World) (b : List UInt8) (hf : Final w₀ w' b)
    (hstop : stop = .error ∨ stop = .eof ∧ (line = [] ∨ w₀.file.error = true))
    (hscript : w'.file.script = rest)
    (hreads : w'.reads = w₀.reads ++ (line.map .byte ++ stop.reads))
    (hasked : ∃ rs, w'.asked = w₀.asked ++ rs ∧ Granted rs)
    (henough : enough env (line.length + 1) w₀.asked.length w₀.n 0 = true) :
    Outcome env w₀ line stop rest (-1) w'
  | refused (w' : World) (b : List UInt8) (hf : Final w₀ w' b) (l : List UInt8) (hl : l <+: line)
    (hshort : l = line → stop ≠ .delim)
    (hreads : w'.reads = w₀.reads ++ l.map .byte)
    (hasked : ∃ rs q, w'.asked = w₀.asked ++ (rs ++ [q]) ∧ q.fallback = true ∧ q.granted = false)
    (henough : ∀ m, l.length < m → enough env m w₀.asked.length w₀.n 0 = false) :
    Outcome env w₀ line stop rest (-1) w'

theorem Held.bounds {w : World} {b : List UInt8} (hw : Held w b) :
    w.n ≤ b.length ∧ b.length ≤ ptrdiffMax := by
  cases hw with
  | null hs hn => simp [hn]
  | block p b hs hr hn hb => exact ⟨hn, hb⟩

theorem enough_free (env : Env) (k : ℕ) {n length : ℕ} (h : length + 1 < n) (m : ℕ) :
    enough env (m + 1) k n length = enough env m k n (length + 1) := by
  rw [enough, if_neg (by omega)]

theorem enough_grown {env : Env} {k n length c : ℕ} (hfull : length + 1 ≥ n)
    (hg : growth env k length = some c) (m : ℕ) :
    enough env m k n length = enough env m (k + (requests env k length).length) c length := by
  have hc := (growth_bounds hg).1
  cases m with
  | zero => rfl
  | succ m =>
    have hfree := enough_free env (k + (requests env k length).length) (Nat.lt_of_succ_le hc) m
    rw [hfree, enough, if_pos hfull, hg]

theorem makeRoom_spec {env : Env} {w₀ w : World} {b line : List UInt8}
    (hw : Inv env w₀ w b line) :
    (∃ w' b', makeRoom env w line.length = some (true, w') ∧ Inv env w₀ w' b' line ∧
        line.length + 1 < w'.n ∧ w'.file = w.file) ∨
      (∃ w', makeRoom env w line.length = some (false, w') ∧ Final w₀ (funlockfile w') b ∧
        w'.reads = w.reads ∧
        (∃ rs q, w'.asked = w₀.asked ++ (rs ++ [q]) ∧ q.fallback = true ∧ q.granted = false) ∧
        ∀ m, enough env (m + 1) w.asked.length w.n line.length = false) := by
  obtain ⟨hn, hb⟩ := hw.buffered.held.bounds
  have htake : line.length ≤ b.length := by
    have h := congrArg List.length hw.text
    rw [List.length_take] at h
    omega
  have hlen : line.length < 2 ^ 63 := Nat.lt_of_le_of_lt (htake.trans hb) (by decide)
  have hadd : Word.add line.length 1 = line.length + 1 := Nat.mod_eq_of_lt (by omega)
  have hmax : line.length ≤ Word.sizeMax - 2 := by
    simp only [Word.sizeMax]
    omega
  obtain ⟨rs, hasked, hgranted⟩ := hw.asked
  have hgrows := hw.grows
  rw [makeRoom, hadd]
  split
  · rename_i hfull
    cases hg : growth env w.asked.length line.length with
    | some c =>
      left
      obtain ⟨junk, hgrow⟩ := grow_some hw.buffered.held hmax hg
      obtain ⟨hc, hcmax⟩ := growth_bounds hg
      refine ⟨_, Heap.resized b c junk, hgrow, ?_, ?_, rfl⟩
      · refine ⟨hw.buffered.rebased (by simpa using hcmax) _, ?_, ?_, ?_, hw.reads, hw.stores, ?_,
          hw.error, hw.locks, ?_⟩
        · rw [Heap.take_resized junk htake (by omega)]
          exact hw.text
        · simp only [World.rebased, Heap.length_resized]
          omega
        · simp only [World.rebased, Heap.length_resized]
          omega
        · refine ⟨rs ++ requests env w.asked.length line.length, ?_, ?_⟩
          · simp only [World.rebased, hasked, List.append_assoc]
          · intro r hr
            rcases List.mem_append.mp hr with hr | hr
            · exact hgranted r hr
            · exact requests_granted hg r hr
        · intro m
          simp only [World.rebased, Heap.length_resized, List.length_append]
          rw [hw.schedule m, enough_grown hfull hg]
      · simp only [World.rebased, Heap.length_resized]
        omega
    | none =>
      right
      refine ⟨_, grow_none hw.buffered.held hmax hg, ?_, rfl, ?_, ?_⟩
      · exact ⟨hw.buffered.of_eq rfl rfl rfl, hgrows, hw.stores,
          congrArg (fun n => n - 1) hw.locks⟩
      · exact ⟨rs ++ [⟨newCapacity line.length, false, false⟩],
          ⟨minCapacity line.length, true, false⟩, by simp [hasked], rfl, rfl⟩
      · intro m
        simp only [enough, if_pos hfull, hg]
  · rename_i hfree
    left
    exact ⟨w, b, rfl, hw, by omega, rfl⟩

theorem store_spec {w₀ w : World} {b : List UInt8} (hw : Buffered w₀ w b) {i : ℕ} (hi : i < w.n)
    (c : UInt8) : ∃ heap, store w i c =
        some { w with heap, stores := w.stores ++ [(i, w.n)] } ∧
      Buffered w₀ { w with heap, stores := w.stores ++ [(i, w.n)] } (overwritten b i [c]) := by
  obtain ⟨hheld, hexact, hmine, hothers, hold, hlater, hfresh, hcaller⟩ := hw
  cases hheld with
  | null hs hn => omega
  | block p b hs hr hn hb =>
    have hfit : i + [c].length ≤ b.length := by
      rw [List.length_singleton]
      omega
    have hread (q : ℕ) : (w.heap.store p (overwritten b i [c])).read q =
        if q = p then some (overwritten b i [c]) else w.heap.read q := by
      rw [Heap.read_store, hr]
      rfl
    refine ⟨w.heap.store p (overwritten b i [c]), ?_, ?_, ?_, ?_, ?_, ?_, ?_, hfresh, hcaller⟩
    · simp [store, hs, Heap.copyIn_eq hr hfit]
    · refine .block p _ hs ?_ ?_ ?_
      · rw [hread, if_pos rfl]
      · rw [length_overwritten hfit]
        exact hn
      · rw [length_overwritten hfit]
        exact hb
    · rw [length_overwritten hfit]
      exact hexact
    · intro q d hq hd
      rw [hread] at hd
      split at hd
      · rename_i heq
        rw [heq]
        exact hs
      · exact hmine q d hq hd
    · intro q hq hne
      rw [hread]
      split
      · rename_i heq
        subst heq
        rcases hfresh q hs with h | h
        · exact absurd h hne
        · omega
      · exact hothers q hq hne
    · intro q hq
      rw [hread, Heap.frees_store]
      split
      · rename_i heq
        rw [heq]
        exact Or.inl hs
      · exact hold q hq
    · simpa using hlater

theorem take_overwritten {b v : List UInt8} {i : ℕ} (h : i + v.length ≤ b.length) :
    (overwritten b i v).take i = b.take i := by
  have hlen : (b.take i).length = i := List.length_take_of_le (by omega)
  rw [overwritten, List.take_append_of_le_length (by omega), List.take_of_length_le (by omega)]

theorem Inv.byte {env : Env} {w₀ w : World} {b line : List UInt8} {c : UInt8} {script : List Read}
    (hw : Inv env w₀ w b line) (hroom : line.length + 1 < w.n) :
    ∃ w' b', store { w with
        file := { w.file with script }, reads := w.reads ++ [.byte c] } line.length c = some w' ∧
      Inv env w₀ w' b' (line ++ [c]) ∧ w'.file.script = script := by
  have hbuf : Buffered w₀ { w with
      file := { w.file with script }, reads := w.reads ++ [.byte c] } b :=
    hw.buffered.of_eq rfl rfl rfl
  obtain ⟨heap, hstore, hbuf'⟩ := store_spec hbuf (i := line.length) (by dsimp only; omega) c
  obtain ⟨st, hst, hlow⟩ := hw.stores
  obtain ⟨hn, -⟩ := hw.buffered.held.bounds
  have hfit : line.length + [c].length ≤ b.length := by
    rw [List.length_singleton]
    omega
  refine ⟨_, _, hstore, ⟨hbuf', ?_, ?_, hw.grows, ?_, ?_, hw.asked, hw.error, hw.locks, ?_⟩, rfl⟩
  · have hget : (overwritten b line.length [c])[line.length]? = some c := by
      rw [getElem?_overwritten hfit, if_pos (by simp)]
      simp
    rw [List.length_append, List.length_singleton, List.take_add_one, take_overwritten hfit,
      hw.text, hget]
    rfl
  · right
    rw [List.length_append, List.length_singleton]
    exact hroom
  · simp [hw.reads]
  · refine ⟨st ++ [(line.length, w.n)], by simp [hst], ?_⟩
    intro x hx
    rcases List.mem_append.mp hx with hx | hx
    · exact hlow x hx
    · rw [List.mem_singleton.mp hx]
      dsimp only
      omega
  · intro m
    have h := hw.schedule (m + 1)
    rw [enough_free env _ hroom] at h
    rw [List.length_append, List.length_singleton, ← h]
    congr 1
    omega

theorem finish_spec {env : Env} {w₀ w : World} {b line : List UInt8}
    (hw : Inv env w₀ w b line) {w₁ : World} (hheap : w₁.heap = w.heap) (hs : w₁.s = w.s)
    (hn : w₁.n = w.n) (hasked : w₁.asked = w.asked) (hstores : w₁.stores = w.stores)
    (hlocks : w₁.file.locks = w.file.locks) (hroom : line.length < w.n) :
    ∃ w' b', finish w₁ line.length = some (ssizeT line.length, w') ∧ Final w₀ w' b' ∧
      b'.take line.length = line ∧ b'[line.length]? = some 0 ∧ w'.n = w.n ∧
      w'.asked = w.asked ∧ w'.reads = w₁.reads ∧ w'.file.script = w₁.file.script ∧
      w'.file.error = w₁.file.error := by
  obtain ⟨hle, -⟩ := hw.buffered.held.bounds
  have hfit : line.length + [(0 : UInt8)].length ≤ b.length := by
    rw [List.length_singleton]
    omega
  obtain ⟨heap, hstore, hbuf⟩ :=
    store_spec (hw.buffered.of_eq hheap hs hn) (i := line.length) (by omega) 0
  obtain ⟨st, hst, hlow⟩ := hw.stores
  have hfinish : finish w₁ line.length = some (ssizeT line.length, funlockfile
      { w₁ with heap, stores := w₁.stores ++ [(line.length, w₁.n)] }) := by
    rw [finish, hstore]
    rfl
  refine ⟨_, _, hfinish, ⟨hbuf.of_eq rfl rfl rfl, ?_, ?_, ?_⟩, ?_, ?_, hn, hasked, rfl, rfl, rfl⟩
  · dsimp only [funlockfile]
    rw [hn]
    exact hw.grows
  · refine ⟨st ++ [(line.length, w.n)], by simp [funlockfile, hstores, hst, hn], ?_⟩
    intro x hx
    rcases List.mem_append.mp hx with hx | hx
    · exact hlow x hx
    · rw [List.mem_singleton.mp hx]
      exact hroom
  · exact congrArg (fun n => n - 1) (hlocks.trans hw.locks)
  · rw [take_overwritten hfit]
    exact hw.text
  · rw [getElem?_overwritten hfit, if_pos (by simp)]
    simp

theorem Inv.enough {env : Env} {w₀ w : World} {b line : List UInt8} (hw : Inv env w₀ w b line)
    (hroom : line.length + 1 < w.n) :
    enough env (line.length + 1) w₀.asked.length w₀.n 0 = true := by
  rw [hw.schedule 1, enough_free env _ hroom]
  rfl

theorem eof_outcome {env : Env} {w₀ w : World} {b line : List UInt8} (hw : Inv env w₀ w b line)
    (hroom : line.length + 1 < w.n) (script : List Read) {w₁ : World}
    (hw₁ : w₁ = { w with file := { w.file with script }, reads := w.reads ++ [.eof] }) :
    ∃ r w', (if line.length = 0 ∨ w₁.file.error = true then some (-1, funlockfile w₁)
        else finish w₁ line.length) = some (r, w') ∧ Outcome env w₀ line .eof script r w' := by
  have hreads : w₁.reads = w₀.reads ++ (line.map .byte ++ Stop.eof.reads) := by
    rw [hw₁]
    simp [hw.reads, Stop.reads]
  have herror : w₁.file.error = w₀.file.error := by
    rw [hw₁]
    exact hw.error
  split
  · rename_i hend
    refine ⟨_, _, rfl, .ended _ b ⟨?_, ?_, ?_, ?_⟩ ?_ ?_ hreads ?_ (hw.enough hroom)⟩
    · exact hw.buffered.of_eq (by rw [hw₁]; rfl) (by rw [hw₁]; rfl) (by rw [hw₁]; rfl)
    · rw [hw₁]
      exact hw.grows
    · rw [hw₁]
      exact hw.stores
    · rw [hw₁]
      exact congrArg (fun n => n - 1) hw.locks
    · rw [herror, List.length_eq_zero_iff] at hend
      exact Or.inr ⟨rfl, hend⟩
    · rw [hw₁]
      rfl
    · rw [hw₁]
      exact hw.asked
  · rename_i hend
    rw [not_or, herror, Bool.not_eq_true, List.length_eq_zero_iff] at hend
    obtain ⟨w', b', hfinish, hfinal, htext, hnul, hn, hasked, hr, hsc, he⟩ :=
      @finish_spec _ _ _ _ _ hw w₁ (by rw [hw₁]) (by rw [hw₁]) (by rw [hw₁]) (by rw [hw₁]) (by rw [hw₁])
        (by rw [hw₁]) (by omega)
    refine ⟨_, w', hfinish, .returned w' b' hfinal hend.1 (Or.inr ⟨rfl, hend.2⟩) htext hnul
      (by omega) ?_ (he.trans herror) (hr.trans hreads) ?_⟩
    · rw [hsc, hw₁]
    · rw [hasked]
      exact hw.asked

theorem scanLine_delim {delim : ℤ} {script : List Read} (h : (scanLine delim script).2.1 = .delim) :
    (scanLine delim script).1 ≠ [] := by
  cases script with
  | nil => cases h
  | cons r rest =>
    cases r with
    | byte c =>
      unfold scanLine
      split <;> simp
    | error => cases h
    | eof => cases h

theorem refused_outcome {env : Env} {w₀ w : World} {b line more : List UInt8} {stop : Stop}
    {rest : List Read} (hw : Inv env w₀ w b line) {w' : World} (hf : Final w₀ (funlockfile w') b)
    (hreads : w'.reads = w.reads)
    (hasked : ∃ rs q, w'.asked = w₀.asked ++ (rs ++ [q]) ∧ q.fallback = true ∧ q.granted = false)
    (hnot : ∀ m, enough env (m + 1) w.asked.length w.n line.length = false)
    (hstop : stop = .delim → more ≠ []) :
    Outcome env w₀ (line ++ more) stop rest (-1) (funlockfile w') := by
  refine .refused _ b hf line (List.prefix_append line more) ?_ ?_ hasked ?_
  · intro heq hdelim
    exact hstop hdelim (List.append_right_eq_self.mp heq.symm)
  · exact hreads.trans hw.reads
  · intro m hm
    obtain ⟨k, rfl⟩ := Nat.exists_eq_add_of_lt hm
    rw [Nat.add_assoc, hw.schedule (k + 1)]
    exact hnot k

/-- The loop, by induction on what the stream still has. -/
theorem readLoop_spec {env : Env} {delim : ℤ} {w₀ w : World} {b line : List UInt8}
    (hw : Inv env w₀ w b line) {script : List Read} (hscript : w.file.script = script) {fuel : ℕ}
    (hfuel : script.length < fuel) :
    ∃ r w', readLoop env delim fuel w line.length = some (r, w') ∧
      Outcome env w₀ (line ++ (scanLine delim script).1) (scanLine delim script).2.1
        (scanLine delim script).2.2 r w' := by
  induction script generalizing w b line fuel with
  | nil =>
    obtain ⟨fuel, rfl⟩ := Nat.exists_eq_add_of_lt hfuel
    simp only [readLoop]
    rcases makeRoom_spec hw with ⟨w₁, b₁, hroom, hw₁, hlt, hfile⟩ | ⟨w₁, hroom, hf, hr, ha, hno⟩
    · obtain ⟨r, w', hrun, ho⟩ := eof_outcome hw₁ hlt [] rfl
      refine ⟨r, w', ?_, ?_⟩
      · simpa only [hroom, getcUnlocked, hfile, hscript, Option.bind_eq_bind, Option.bind_some]
          using hrun
      · simpa only [scanLine, List.append_nil] using ho
    · refine ⟨_, _, ?_, refused_outcome hw hf hr ha hno (by intro h; cases h)⟩
      simp only [hroom, Option.bind_eq_bind, Option.bind_some]
  | cons e rest ih =>
    obtain ⟨fuel, rfl⟩ := Nat.exists_eq_add_of_lt hfuel
    simp only [readLoop]
    rcases makeRoom_spec hw with ⟨w₁, b₁, hroom, hw₁, hlt, hfile⟩ | ⟨w₁, hroom, hf, hr, ha, hno⟩
    · cases e with
      | eof =>
        obtain ⟨r, w', hrun, ho⟩ := eof_outcome hw₁ hlt rest rfl
        refine ⟨r, w', ?_, ?_⟩
        · simpa only [hroom, getcUnlocked, hfile, hscript, Option.bind_eq_bind, Option.bind_some]
            using hrun
        · simpa only [scanLine, List.append_nil] using ho
      | error =>
        refine ⟨-1, funlockfile { w₁ with
          file := { w₁.file with script := rest, error := true }
          reads := w₁.reads ++ [.error] }, ?_, ?_⟩
        · simp [hroom, getcUnlocked, hfile, hscript]
        · refine .ended _ b₁ ⟨hw₁.buffered.of_eq rfl rfl rfl, hw₁.grows, hw₁.stores,
            congrArg (fun n => n - 1) hw₁.locks⟩ (Or.inl rfl) rfl ?_ hw₁.asked ?_
          · simp [funlockfile, scanLine, Stop.reads, hw₁.reads]
          · simpa only [scanLine, List.append_nil] using hw₁.enough hlt
      | byte c =>
        obtain ⟨w₂, b₂, hstore, hw₂, hscript₂⟩ := @Inv.byte _ _ _ _ _ c rest hw₁ hlt
        have hlen : line.length + 1 < 2 ^ 64 := by
          obtain ⟨hn, hb⟩ := hw₁.buffered.held.bounds
          exact Nat.lt_of_le_of_lt ((hlt.le.trans hn).trans hb) (by decide)
        have hadd : Word.add line.length 1 = (line ++ [c]).length := by
          rw [List.length_append, List.length_singleton]
          exact Nat.mod_eq_of_lt hlen
        simp only [hroom, getcUnlocked, hfile, hscript, Option.bind_eq_bind, Option.bind_some]
        rw [hfile] at hstore
        rw [hstore, Option.bind_some, hadd]
        by_cases hd : (c.toNat : ℤ) = delim
        · have hlt₂ := hw₂.room.resolve_left (List.append_ne_nil_of_right_ne_nil line (by simp))
          obtain ⟨w', b', hfinish, hfinal, htext, hnul, hn, hasked, hr, hsc, he⟩ :=
            @finish_spec _ _ _ _ _ hw₂ w₂ rfl rfl rfl rfl rfl rfl hlt₂
          rw [if_pos hd]
          simp only [scanLine, if_pos hd]
          refine ⟨_, w', hfinish, .returned w' b' hfinal (by simp) (Or.inl rfl) htext hnul
            (by omega) (hsc.trans hscript₂) (he.trans hw₂.error) ?_ ?_⟩
          · rw [hr, hw₂.reads, Stop.reads, List.append_nil]
          · rw [hasked]
            exact hw₂.asked
        · rw [if_neg hd]
          simp only [scanLine, if_neg hd]
          have hnext := @ih _ _ _ hw₂ hscript₂ (rest.length + 1 + fuel) (by omega)
          rw [List.append_assoc] at hnext
          exact hnext
    · refine ⟨_, _, ?_, refused_outcome hw hf hr ha hno scanLine_delim⟩
      simp only [hroom, Option.bind_eq_bind, Option.bind_some]

/-! ### A call -/

/-- The byte string a call returns. -/
def returned (c : ℤ × World) : List UInt8 := c.2.bytes.take c.1.toNat

/-- `*s` is null, or a block of at least `*n` bytes. -/
def World.Ready (w : World) : Prop :=
  ∀ p, w.s = some p → ∃ b, w.heap.read p = some b ∧ w.n ≤ b.length ∧ b.length ≤ ptrdiffMax

/-- Lines 48-52. -/
def World.opened (w : World) : World := flockfile (if w.s = none then { w with n := 0 } else w)

theorem opened_eq (w : World) : w.opened = { w with
    n := if w.s = none then 0 else w.n
    file := { w.file with locks := w.file.locks + 1 } } := by
  unfold World.opened flockfile
  split <;> rfl

theorem Held.ready {w : World} {b : List UInt8} (hw : Held w b) : w.Ready := by
  intro p hp
  cases hw with
  | null hs hn =>
    rw [hs] at hp
    cases hp
  | block q b hs hr hn hb =>
    rw [hs] at hp
    cases hp
    exact ⟨b, hr, hn, hb⟩

theorem World.Ready.opened {w : World} (hw : w.Ready) : ∃ b, Buffered w.opened w.opened b := by
  have hnext (p : ℕ) (hp : w.s = some p) : p < w.heap.next := by
    obtain ⟨b, hr, -, -⟩ := hw p hp
    exact Heap.lt_next_of_read hr
  have hheld : ∃ b, Held w.opened b := by
    rw [opened_eq]
    cases hs : w.s with
    | none => exact ⟨[], .null rfl rfl⟩
    | some p =>
      obtain ⟨b, hr, hn, hb⟩ := hw p hs
      exact ⟨b, .block p b rfl hr hn hb⟩
  obtain ⟨b, hb⟩ := hheld
  refine ⟨b, hb, Or.inr ⟨rfl, rfl⟩, ?_, fun q _ _ => rfl, fun q hq => Or.inl hq, le_rfl,
    fun q hq => Or.inl hq, ?_⟩
  · intro q c hq hr
    exact absurd (Heap.lt_next_of_read hr) (Nat.not_lt.mpr hq)
  · intro q hq
    exact hb.lt_next hq

theorem getdelim_spec {w : World} (hw : w.Ready) (env : Env) (delim : ℤ) :
    ∃ r w', getdelim env true delim w = some (r, w') ∧
      Outcome env w.opened (scanLine delim w.file.script).1 (scanLine delim w.file.script).2.1
        (scanLine delim w.file.script).2.2 r w' := by
  obtain ⟨b, hb⟩ := hw.opened
  have hinv : Inv env w.opened w.opened b [] := by
    refine ⟨hb, rfl, Or.inl rfl, le_rfl, by simp, ⟨[], by simp, by simp⟩,
      ⟨[], by simp, by simp [Granted]⟩, rfl, rfl, ?_⟩
    intro m
    rw [List.length_nil, Nat.zero_add]
  have hscript : w.opened.file.script = w.file.script := by
    rw [opened_eq]
  obtain ⟨r, w', hrun, ho⟩ := @readLoop_spec _ delim _ _ _ _ hinv _ hscript
    (w.file.script.length + 1) (Nat.lt_succ_self _)
  refine ⟨r, w', ?_, ho⟩
  rw [getdelim, if_neg (by simp), ← hrun, World.opened]
  split <;> rfl

end LibcOverride.Line

import LibcOverride.Scanf.RehomeRuns

/-!
# Which calls are forwarded (src/scanf_overrides.c:92-125, 634-956)

A process and its scanf calls from the start, in any order.
-/

namespace LibcOverride.Scanf

/-! ### Runs -/

/-- Everything that a process may do between its start and a call: `n` scanf
calls, and changes of its own memory. -/
inductive Reaches (P : Process) : ℕ → World → Prop where
  | start (m : Memory) : Reaches P 0 ⟨startGlobals, m, []⟩
  | call (n : ℕ) (w w' : World) (c : Call) (ret : ℤ) (h : Reaches P n w)
      (hs : c.run P w = some (ret, w')) : Reaches P (n + 1) w'
  | program (n : ℕ) (w : World) (m : Memory) (h : Reaches P n w) :
      Reaches P n { w with memory := m }

theorem lib_of_reaches {P : Process} {n : ℕ} {w : World} (h : Reaches P n w) :
    n = 0 ∧ w.lib = startGlobals ∨
      0 < n ∧ ∃ g : Globals, g.once = true ∧ w.lib = aoResolveScanfSymbols P g := by
  induction h with
  | start m => exact Or.inl ⟨rfl, rfl⟩
  | call n w w' c ret _ hs ih =>
    rw [run_eq] at hs
    have hlib := wrapCommon_lib hs
    refine Or.inr ⟨Nat.succ_pos n, ?_⟩
    rcases ih with ⟨_, hstart⟩ | ⟨_, g, hg, hres⟩
    · refine ⟨{ startGlobals with once := true }, rfl, ?_⟩
      rw [hlib, aoEnsureScanfSymbols, hstart]
      rfl
    · refine ⟨g, hg, ?_⟩
      have honce : w.lib.once = true := by
        rw [hres]
        exact hg
      rw [hlib, aoEnsureScanfSymbols, if_pos honce, hres]
  | program n w m _ ih => exact ih

/-! ### The real functions -/

/-- The plain real functions are there. -/
def Found (P : Process) : Prop :=
  P.symbol "vfscanf" ≠ 0 ∧ P.symbol "vsscanf" ≠ 0 ∧ P.symbol "vfwscanf" ≠ 0 ∧
    P.symbol "vswscanf" ≠ 0

def Call.Terminated : Call → Prop
  | .narrow _ _ _ format _ => Scanf.Terminated (uchars format)
  | .wide _ _ _ format _ => Scanf.Terminated format

/-- What the matching real function makes of a call in `m`. -/
def Call.reply (P : Process) (m : Memory) (c : Call) : ℤ × Memory :=
  P.real ⟨c.target P, c.source P, c.format, c.args⟩ m

/-- In this call the real function leaves, in the slots that it assigned, NULL or blocks that
can be copied, none of libc's in two of them; and it does not set `ENOSYS` itself. -/
structure Scans (P : Process) (c : Call) (m : Memory) : Prop where
  holds : ∀ s, c.parse ⟨c.args, P.grow m⟩ = some (0, s) →
    ∀ r ∈ assignedRecords s.plan.records (c.reply P m).1, Holds (c.reply P m).2 r
  apart : ∀ s, c.parse ⟨c.args, P.grow m⟩ = some (0, s) →
    Apart (c.reply P m).2 (assignedRecords s.plan.records (c.reply P m).1)
  errno : (c.reply P m).1 = eof → (c.reply P m).2.errno = .enosys → m.errno = .enosys

theorem target_found {P : Process} (h : Found P) (c : Call) : c.target P ≠ 0 := by
  obtain ⟨h1, h2, h3, h4⟩ := h
  have hstem : P.symbol c.stem ≠ 0 := by
    cases c with
    | narrow e b input format args => cases e <;> assumption
    | wide e b input format args => cases e <;> assumption
  unfold Call.target orPlain
  split
  · split
    · exact hstem
    · assumption
  · exact hstem

theorem parse_scan (c : Call) (env : Env) :
    c.parse env = scanFormat c.format.charMode env c.format.text := by
  cases c with
  | narrow e b input format args => exact parseScanfFormat_eq env format
  | wide e b input format args => rfl

theorem parse_returns {c : Call} (h : c.Terminated) (env : Env) :
    ∃ code s, c.parse env = some (code, s) := by
  rw [parse_scan]
  have hreturns : ∃ r, scanFormat c.format.charMode env c.format.text = some r := by
    cases c with
    | narrow e b input format args => exact scanFormat_returns .charCount env h
    | wide e b input format args => exact scanFormat_returns .unsupportedWideCharCount env h
  obtain ⟨⟨code, s⟩, hr⟩ := hreturns
  exact ⟨code, s, hr⟩

/-- A scanner that does its part for a well-formed format leaves such slots. -/
theorem scanned_scans {P : Process} {c : Call} {m : Memory} {ds : List Directive}
    (htext : c.format.text = formatText ds) (hwf : WellFormed ds) (hfits : ∀ d ∈ ds, d.Fits)
    (hcount : ds.countP Directive.counted < 2 ^ 31) (hdist : DistinctDestinations c.args ds)
    (hscan : Scanned c.format.charMode c.args ds (c.reply P m).1 (c.reply P m).2)
    (herrno : (c.reply P m).1 = eof → (c.reply P m).2.errno = .enosys → m.errno = .enosys) :
    Scans P c m := by
  have hready : ∀ s, c.parse ⟨c.args, P.grow m⟩ = some (0, s) →
      assignedRecords s.plan.records (c.reply P m).1 =
        reached c.format.charMode c.args ds (c.reply P m).1 := by
    intro s hs
    rw [parse_scan, htext] at hs
    rcases scanFormat_text c.format.charMode ⟨c.args, P.grow m⟩ hwf hfits with
      ⟨⟨s', hs'⟩, -⟩ | ⟨s', hs', hrecords⟩
    · rw [hs] at hs'
      cases hs'
    · rw [hs] at hs'
      cases hs'
      rw [assignedRecords, hrecords, expectedRecords_wrap (by omega), reached]
  obtain ⟨hholds, hapart⟩ := prepared_ready (reached_prepared hcount hdist hscan)
  refine ⟨fun s hs => ?_, fun s hs => ?_, herrno⟩
  · rw [hready s hs]
    exact hholds
  · rw [hready s hs]
    exact hapart

/-! ### The result -/

/-- The call invoked its real function once, with the caller's input and
format, and returned its result; if that is `EOF`, an `ENOSYS` is from before. -/
structure Forwarded (P : Process) (c : Call) (w : World) (ret : ℤ) (w' : World) : Prop where
  invoked : (w'.trace.drop w.trace.length).filter Event.isInvoke =
    [.invoke (c.target P) (c.source P) c.format]
  result : ret = (c.reply P w.memory).1
  errno : ret = eof → w'.memory.errno = .enosys → w.memory.errno = .enosys

/-- The first call of a process reads its variable before it is resolved. -/
theorem first_fails (P : Process) {w : World} (h : w.lib = startGlobals) (c : Call) :
    c.run P w = some (eof, { w with
      lib := aoResolveScanfSymbols P { startGlobals with once := true }
      memory := { w.memory with errno := .enosys } }) := by
  rw [run_eq, h, passed_start, wrapCommon, aoEnsureScanfSymbols, h]
  rfl

theorem later_forwards {P : Process} (hf : Found P) {w : World} {g : Globals}
    (hg : g.once = true) (hlib : w.lib = aoResolveScanfSymbols P g) {c : Call}
    (hc : c.Terminated) (hs : Scans P c w.memory) :
    ∃ ret w', c.run P w = some (ret, w') ∧ Forwarded P c w ret w' := by
  have honce : w.lib.once = true := by
    rw [hlib]
    exact hg
  have hens : aoEnsureScanfSymbols P w = w := if_pos honce
  have hpass : c.passed w.lib = c.target P := by
    rw [hlib, passed_resolved]
  have htarget := target_found hf c
  obtain ⟨code, s, hparse⟩ := parse_returns hc ⟨c.args, P.grow w.memory⟩
  have hreal := wrapCommon_real (w := w) (c.source P) c.format htarget (by rw [hens]; exact hparse)
  obtain ⟨hholds, hapart, herrno⟩ := hs
  rw [hens] at hreal
  rw [run_eq, hpass, hreal]
  dsimp only
  change ∃ ret w', (if code = 0 ∧ w.lib.bridgeReady ∧ (c.reply P w.memory).1 > 0 then
      (aoRehomeScanfPlan P ⟨w.lib, (c.reply P w.memory).2, _⟩ s.plan.records
        (c.reply P w.memory).1).map ((c.reply P w.memory).1, ·)
    else some ((c.reply P w.memory).1, ⟨w.lib, (c.reply P w.memory).2, _⟩)) = some (ret, w') ∧ _
  split
  · rename_i hcond
    obtain ⟨rfl, -, hret⟩ := hcond
    obtain ⟨es, v, hrun, -⟩ := rehomeRecords_run P _ ⟨w.lib, (c.reply P w.memory).2, w.trace ++
      [.invoke (c.target P) (c.source P) c.format]⟩ (hholds s hparse) (hapart s hparse)
    have hv : aoRehomeScanfPlan P ⟨w.lib, (c.reply P w.memory).2, w.trace ++
        [.invoke (c.target P) (c.source P) c.format]⟩ s.plan.records (c.reply P w.memory).1 =
        some v := (rehomePlan_takeWhile ..).trans hrun
    rw [hv]
    refine ⟨_, v, rfl, ?_, rfl, ?_⟩
    · obtain ⟨_, es, hes, hquiet⟩ := silent_plan hv
      have hnone : es.filter Event.isInvoke = [] := by
        rw [List.filter_eq_nil_iff]
        intro e he
        rw [hquiet e he]
        decide
      rw [hes, List.append_assoc, List.drop_left, List.filter_append, hnone]
      rfl
    · intro heof
      rw [heof] at hret
      exact absurd hret (by decide)
  · refine ⟨_, _, rfl, ?_, rfl, herrno⟩
    rw [List.drop_left]
    rfl

/-- In every reachable state of a process a scanf call returns, and it is
forwarded exactly when the once-flag was set before it, which is from the
second call on. -/
theorem forwarded_iff {P : Process} (hf : Found P) {n : ℕ} {w : World} (h : Reaches P n w)
    {c : Call} (hc : c.Terminated) (hs : Scans P c w.memory) :
    (∃ ret w', c.run P w = some (ret, w') ∧ (Forwarded P c w ret w' ↔ w.lib.once = true)) ∧
      (w.lib.once = true ↔ 0 < n) := by
  rcases lib_of_reaches h with ⟨hn, hlib⟩ | ⟨hn, g, hg, hlib⟩
  · have honce : w.lib.once = false := by rw [hlib]; rfl
    refine ⟨⟨eof, _, first_fails P hlib c, ?_⟩, ?_⟩
    · refine iff_of_false ?_ (by rw [honce]; decide)
      intro hfwd
      have hnone := hfwd.invoked
      rw [List.drop_length] at hnone
      cases hnone
    · rw [honce, hn]
      decide
  · have honce : w.lib.once = true := by rw [hlib]; exact hg
    obtain ⟨ret, w', hrun, hfwd⟩ := later_forwards hf hg hlib hc hs
    exact ⟨⟨ret, w', hrun, iff_of_true hfwd honce⟩, iff_of_true honce hn⟩

/-! A process whose input has ended, without the bridge. -/

def sampleProcess : Process where
  stdin := 4096
  symbol name := if name = "vfscanf" then 1 else if name = "vsscanf" then 2
    else if name = "vfwscanf" then 3 else if name = "vswscanf" then 4 else 0
  defaultSymbol _ := 0
  real _ m := (eof, m)
  grow _ _ := true
  answer _ _ := 0
  fresh _ _ h := (h rfl).elim

/-- `__isoc99_sscanf(input, "%d", ...)` -/
def sampleCall : Call := .narrow .s true 8192 [37, 100, 0] fun i => 16384 + 8 * i

theorem sampleCall_terminated : sampleCall.Terminated :=
  terminated_append (q := [37, 100]) (by decide)

theorem sampleProcess_found : Found sampleProcess :=
  ⟨by decide, by decide, by decide, by decide⟩

theorem sampleProcess_scans (m : Memory) : Scans sampleProcess sampleCall m := by
  have hparse : sampleCall.parse ⟨sampleCall.args, sampleProcess.grow m⟩ =
      some (0, ⟨1, [0], emptyPlan, 1⟩) := rfl
  refine ⟨fun s hs => ?_, fun s hs => ?_, fun _ h => h⟩
  · rw [hparse] at hs
    cases hs
    exact List.forall_mem_nil _
  · rw [hparse] at hs
    cases hs
    exact List.forall_mem_nil _

/-- `__isoc99_sscanf(input, "%ms%d%3mc%ms", ...)` -/
def mixedCall : Call := .narrow .s true 512 mixedText mixedArgs

theorem mixedCall_scans {m : Memory} : Scans mixedScanner mixedCall m := by
  have hparse : mixedCall.parse ⟨mixedArgs, fun size => decide (size = 192)⟩ = some (0,
      ⟨4, [0, 1, 2, 3], ⟨[⟨1024, 1, .charString, 0⟩, ⟨1040, 3, .charCount, 3⟩,
        ⟨1048, 4, .charString, 0⟩], 8⟩, 4⟩) := rfl
  have hready := @mixed_ready (mixedCall.reply mixedScanner m).2 _ ⟨rfl, rfl⟩ ⟨rfl, rfl⟩ rfl
  refine ⟨fun s hs => ?_, fun s hs => ?_, fun heof => ?_⟩
  · cases hparse.symm.trans hs
    exact hready.1
  · cases hparse.symm.trans hs
    exact hready.2
  · have hthree : (3 : ℤ) = eof := heof
    exact absurd hthree (by decide)

/-- A second call finds the `ENOSYS` of the first where the input has ended, and is
forwarded; so is one that rehomes what it assigned. -/
theorem forwarded_iff_sample :
    (∃ w w', Reaches sampleProcess 1 w ∧ sampleCall.run sampleProcess w = some (eof, w') ∧
      w'.memory.errno = .enosys ∧ Forwarded sampleProcess sampleCall w eof w') ∧
    ∃ w w', Reaches mixedScanner 1 w ∧ mixedCall.run mixedScanner w = some (3, w') ∧
      w'.memory.slots 1024 = 8192 ∧ Forwarded mixedScanner mixedCall w 3 w' := by
  constructor
  · have h := Reaches.call _ _ _ sampleCall _ (.start sampleMemory) (first_fails sampleProcess rfl _)
    obtain ⟨⟨ret, w', hrun, hiff⟩, honce⟩ := forwarded_iff sampleProcess_found h
      sampleCall_terminated (sampleProcess_scans _)
    cases hrun
    exact ⟨_, _, h, rfl, rfl, hiff.mpr (honce.mpr Nat.one_pos)⟩
  · have h := Reaches.call _ _ _ mixedCall _ (.start sampleMemory) (first_fails mixedScanner rfl _)
    have hterminated : mixedCall.Terminated :=
      @terminated_append [37, 109, 115, 37, 100, 37, 51, 109, 99, 37, 109, 115] (by decide)
    obtain ⟨⟨ret, w', hrun, hiff⟩, honce⟩ := @forwarded_iff mixedScanner
      ⟨by decide, by decide, by decide, by decide⟩ _ _ h _ hterminated mixedCall_scans
    cases hrun
    exact ⟨_, _, h, rfl, rfl, hiff.mpr (honce.mpr Nat.one_pos)⟩

/-- The first `__isoc99_sscanf` of a process returns `EOF` with `ENOSYS`. -/
theorem first_call_lost : ¬ ∀ (P : Process), Found P → ∀ n w, Reaches P n w →
    ∀ c : Call, c.Terminated → Scans P c w.memory →
      ∃ ret w', c.run P w = some (ret, w') ∧ Forwarded P c w ret w' := by
  intro h
  obtain ⟨ret, w', hrun, hfwd⟩ := h sampleProcess sampleProcess_found 0 _ (.start sampleMemory)
    sampleCall sampleCall_terminated (sampleProcess_scans _)
  rw [first_fails sampleProcess rfl] at hrun
  cases hrun
  exact absurd (hfwd.errno rfl rfl) (by decide)

end LibcOverride.Scanf

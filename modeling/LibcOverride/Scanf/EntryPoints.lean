import LibcOverride.Scanf.Lockstep
import LibcOverride.Scanf.Rehome

/-!
# The exported scanf functions (src/scanf_overrides.c:754-956)

Each one passes a `g_real_*` variable to its wrapper. The argument is read
before the wrapper resolves the symbols.
-/

namespace LibcOverride.Scanf

/-! ### Narrow names -/

def aoPlainVfscanf (P : Process) (w : World) (stream : ℕ) (format : List Int8)
    (args : ℕ → ℕ) : Option (ℤ × World) :=
  aoWrapVfscanfCommon P w w.lib.realVfscanf stream format args

def isoc99Vfscanf (P : Process) (w : World) (stream : ℕ) (format : List Int8)
    (args : ℕ → ℕ) : Option (ℤ × World) :=
  aoWrapVfscanfCommon P w w.lib.realIsoc99Vfscanf stream format args

def aoPlainVscanf (P : Process) (w : World) (format : List Int8) (args : ℕ → ℕ) :
    Option (ℤ × World) :=
  aoWrapVfscanfCommon P w w.lib.realVfscanf P.stdin format args

def isoc99Vscanf (P : Process) (w : World) (format : List Int8) (args : ℕ → ℕ) :
    Option (ℤ × World) :=
  aoWrapVfscanfCommon P w w.lib.realIsoc99Vfscanf P.stdin format args

def aoPlainFscanf (P : Process) (w : World) (stream : ℕ) (format : List Int8)
    (args : ℕ → ℕ) : Option (ℤ × World) :=
  aoWrapVfscanfCommon P w w.lib.realVfscanf stream format args

def isoc99Fscanf (P : Process) (w : World) (stream : ℕ) (format : List Int8)
    (args : ℕ → ℕ) : Option (ℤ × World) :=
  aoWrapVfscanfCommon P w w.lib.realIsoc99Vfscanf stream format args

def aoPlainScanf (P : Process) (w : World) (format : List Int8) (args : ℕ → ℕ) :
    Option (ℤ × World) :=
  aoWrapVfscanfCommon P w w.lib.realVfscanf P.stdin format args

def isoc99Scanf (P : Process) (w : World) (format : List Int8) (args : ℕ → ℕ) :
    Option (ℤ × World) :=
  aoWrapVfscanfCommon P w w.lib.realIsoc99Vfscanf P.stdin format args

def aoPlainVsscanf (P : Process) (w : World) (input : ℕ) (format : List Int8)
    (args : ℕ → ℕ) : Option (ℤ × World) :=
  aoWrapVsscanfCommon P w w.lib.realVsscanf input format args

def isoc99Vsscanf (P : Process) (w : World) (input : ℕ) (format : List Int8)
    (args : ℕ → ℕ) : Option (ℤ × World) :=
  aoWrapVsscanfCommon P w w.lib.realIsoc99Vsscanf input format args

def aoPlainSscanf (P : Process) (w : World) (input : ℕ) (format : List Int8)
    (args : ℕ → ℕ) : Option (ℤ × World) :=
  aoWrapVsscanfCommon P w w.lib.realVsscanf input format args

def isoc99Sscanf (P : Process) (w : World) (input : ℕ) (format : List Int8)
    (args : ℕ → ℕ) : Option (ℤ × World) :=
  aoWrapVsscanfCommon P w w.lib.realIsoc99Vsscanf input format args

/-! ### Wide names -/

def aoPlainVfwscanf (P : Process) (w : World) (stream : ℕ) (format : List ℤ)
    (args : ℕ → ℕ) : Option (ℤ × World) :=
  aoWrapVfwscanfCommon P w w.lib.realVfwscanf stream format args

def isoc99Vfwscanf (P : Process) (w : World) (stream : ℕ) (format : List ℤ)
    (args : ℕ → ℕ) : Option (ℤ × World) :=
  aoWrapVfwscanfCommon P w w.lib.realIsoc99Vfwscanf stream format args

def aoPlainVwscanf (P : Process) (w : World) (format : List ℤ) (args : ℕ → ℕ) :
    Option (ℤ × World) :=
  aoWrapVfwscanfCommon P w w.lib.realVfwscanf P.stdin format args

def isoc99Vwscanf (P : Process) (w : World) (format : List ℤ) (args : ℕ → ℕ) :
    Option (ℤ × World) :=
  aoWrapVfwscanfCommon P w w.lib.realIsoc99Vfwscanf P.stdin format args

def aoPlainFwscanf (P : Process) (w : World) (stream : ℕ) (format : List ℤ)
    (args : ℕ → ℕ) : Option (ℤ × World) :=
  aoWrapVfwscanfCommon P w w.lib.realVfwscanf stream format args

def isoc99Fwscanf (P : Process) (w : World) (stream : ℕ) (format : List ℤ)
    (args : ℕ → ℕ) : Option (ℤ × World) :=
  aoWrapVfwscanfCommon P w w.lib.realIsoc99Vfwscanf stream format args

def aoPlainWscanf (P : Process) (w : World) (format : List ℤ) (args : ℕ → ℕ) :
    Option (ℤ × World) :=
  aoWrapVfwscanfCommon P w w.lib.realVfwscanf P.stdin format args

def isoc99Wscanf (P : Process) (w : World) (format : List ℤ) (args : ℕ → ℕ) :
    Option (ℤ × World) :=
  aoWrapVfwscanfCommon P w w.lib.realIsoc99Vfwscanf P.stdin format args

def aoPlainVswscanf (P : Process) (w : World) (input : ℕ) (format : List ℤ)
    (args : ℕ → ℕ) : Option (ℤ × World) :=
  aoWrapVswscanfCommon P w w.lib.realVswscanf input format args

def isoc99Vswscanf (P : Process) (w : World) (input : ℕ) (format : List ℤ)
    (args : ℕ → ℕ) : Option (ℤ × World) :=
  aoWrapVswscanfCommon P w w.lib.realIsoc99Vswscanf input format args

def aoPlainSwscanf (P : Process) (w : World) (input : ℕ) (format : List ℤ)
    (args : ℕ → ℕ) : Option (ℤ × World) :=
  aoWrapVswscanfCommon P w w.lib.realVswscanf input format args

def isoc99Swscanf (P : Process) (w : World) (input : ℕ) (format : List ℤ)
    (args : ℕ → ℕ) : Option (ℤ × World) :=
  aoWrapVswscanfCommon P w w.lib.realIsoc99Vswscanf input format args

/-! ### Calls -/

/-- The twelve functions of one character kind. -/
inductive Entry where
  | vf | v | f | plain | vs | s
  deriving Repr, DecidableEq

/-- `input` is ignored by the functions that read `stdin`. -/
inductive Call where
  | narrow (entry : Entry) (isoc99 : Bool) (input : ℕ) (format : List Int8) (args : ℕ → ℕ)
  | wide (entry : Entry) (isoc99 : Bool) (input : ℕ) (format : List ℤ) (args : ℕ → ℕ)

def Call.run (P : Process) (w : World) : Call → Option (ℤ × World)
  | .narrow .vf false input format args => aoPlainVfscanf P w input format args
  | .narrow .vf true input format args => isoc99Vfscanf P w input format args
  | .narrow .v false _ format args => aoPlainVscanf P w format args
  | .narrow .v true _ format args => isoc99Vscanf P w format args
  | .narrow .f false input format args => aoPlainFscanf P w input format args
  | .narrow .f true input format args => isoc99Fscanf P w input format args
  | .narrow .plain false _ format args => aoPlainScanf P w format args
  | .narrow .plain true _ format args => isoc99Scanf P w format args
  | .narrow .vs false input format args => aoPlainVsscanf P w input format args
  | .narrow .vs true input format args => isoc99Vsscanf P w input format args
  | .narrow .s false input format args => aoPlainSscanf P w input format args
  | .narrow .s true input format args => isoc99Sscanf P w input format args
  | .wide .vf false input format args => aoPlainVfwscanf P w input format args
  | .wide .vf true input format args => isoc99Vfwscanf P w input format args
  | .wide .v false _ format args => aoPlainVwscanf P w format args
  | .wide .v true _ format args => isoc99Vwscanf P w format args
  | .wide .f false input format args => aoPlainFwscanf P w input format args
  | .wide .f true input format args => isoc99Fwscanf P w input format args
  | .wide .plain false _ format args => aoPlainWscanf P w format args
  | .wide .plain true _ format args => isoc99Wscanf P w format args
  | .wide .vs false input format args => aoPlainVswscanf P w input format args
  | .wide .vs true input format args => isoc99Vswscanf P w input format args
  | .wide .s false input format args => aoPlainSwscanf P w input format args
  | .wide .s true input format args => isoc99Swscanf P w input format args

def Call.isoc99 : Call → Bool
  | .narrow _ b _ _ _ => b
  | .wide _ b _ _ _ => b

def Call.format : Call → Format
  | .narrow _ _ _ format _ => .narrow format
  | .wide _ _ _ format _ => .wide format

def Call.args : Call → ℕ → ℕ
  | .narrow _ _ _ _ args => args
  | .wide _ _ _ _ args => args

def Call.parse : Call → Env → Option (ℤ × Scan)
  | .narrow _ _ _ format _, env => aoParseScanfFormat env format
  | .wide _ _ _ format _, env => aoParseWscanfFormat env format

/-- The name that a call stands for, without its prefix. -/
def Call.stem : Call → String
  | .narrow .vs _ _ _ _ | .narrow .s _ _ _ _ => "vsscanf"
  | .narrow _ _ _ _ _ => "vfscanf"
  | .wide .vs _ _ _ _ | .wide .s _ _ _ _ => "vswscanf"
  | .wide _ _ _ _ _ => "vfwscanf"

/-- The stream or string that the real function is to read. -/
def Call.source (P : Process) : Call → ℕ
  | .narrow .v _ _ _ _ | .narrow .plain _ _ _ _ => P.stdin
  | .narrow _ _ input _ _ => input
  | .wide .v _ _ _ _ | .wide .plain _ _ _ _ => P.stdin
  | .wide _ _ input _ _ => input

/-- The real function that matches a call. -/
def Call.target (P : Process) (c : Call) : ℕ :=
  if c.isoc99 then orPlain (P.symbol ("__isoc99_" ++ c.stem)) (P.symbol c.stem)
  else P.symbol c.stem

/-- The variable that a call passes to its wrapper. -/
def Call.passed (g : Globals) : Call → ℕ
  | .narrow .vs false _ _ _ | .narrow .s false _ _ _ => g.realVsscanf
  | .narrow .vs true _ _ _ | .narrow .s true _ _ _ => g.realIsoc99Vsscanf
  | .narrow _ false _ _ _ => g.realVfscanf
  | .narrow _ true _ _ _ => g.realIsoc99Vfscanf
  | .wide .vs false _ _ _ | .wide .s false _ _ _ => g.realVswscanf
  | .wide .vs true _ _ _ | .wide .s true _ _ _ => g.realIsoc99Vswscanf
  | .wide _ false _ _ _ => g.realVfwscanf
  | .wide _ true _ _ _ => g.realIsoc99Vfwscanf

theorem run_eq (P : Process) (w : World) (c : Call) : c.run P w =
    wrapCommon P w (c.passed w.lib) (c.source P) c.format c.args c.parse := by
  cases c with
  | narrow e b input format args => cases e <;> cases b <;> rfl
  | wide e b input format args => cases e <;> cases b <;> rfl

theorem passed_start (c : Call) : c.passed startGlobals = 0 := by
  cases c with
  | narrow e b input format args => cases e <;> cases b <;> rfl
  | wide e b input format args => cases e <;> cases b <;> rfl

theorem passed_resolved (P : Process) (g : Globals) (c : Call) :
    c.passed (aoResolveScanfSymbols P g) = c.target P := by
  cases c with
  | narrow e b input format args => cases e <;> cases b <;> rfl
  | wide e b input format args => cases e <;> cases b <;> rfl

/-! ### What rehoming leaves alone -/

def Event.isInvoke : Event → Bool
  | .invoke _ _ _ => true
  | _ => false

/-- The library's variables are unchanged and no real function was called. -/
def Silent (w w' : World) : Prop :=
  w'.lib = w.lib ∧ ∃ es, w'.trace = w.trace ++ es ∧ ∀ e ∈ es, e.isInvoke = false

theorem silent_refl (w : World) : Silent w w := ⟨rfl, [], (List.append_nil _).symm, by simp⟩

theorem silent_trans {u v w : World} (h : Silent u v) (h' : Silent v w) : Silent u w := by
  obtain ⟨hl, es, he, hn⟩ := h
  obtain ⟨hl', es', he', hn'⟩ := h'
  refine ⟨hl'.trans hl, es ++ es', ?_, ?_⟩
  · rw [he', he, List.append_assoc]
  · intro e hmem
    rcases List.mem_append.mp hmem with hm | hm
    · exact hn e hm
    · exact hn' e hm

theorem silent_event {w w' : World} (e : Event) (hl : w'.lib = w.lib)
    (ht : w'.trace = w.trace ++ [e]) (he : e.isInvoke = false) : Silent w w' := by
  refine ⟨hl, [e], ht, ?_⟩
  intro e' hmem
  rwa [List.mem_singleton.mp hmem]

theorem silent_malloc (P : Process) (w : World) (size : ℕ) : Silent w (malloc P w size).2 :=
  silent_event (.malloc size (P.answer w.memory size)) rfl rfl rfl

theorem silent_memcpy {w w' : World} {copy source len : ℕ} (h : memcpy w copy source len = some w') :
    Silent w w' := by
  unfold memcpy at h
  obtain ⟨bytes, _, h⟩ := Option.bind_eq_some_iff.mp h
  split at h
  · cases h
  · cases h
    exact silent_refl w

theorem silent_copy {P : Process} {w w' : World} {source size len r : ℕ}
    (h : (memcpy (malloc P w size).2 (malloc P w size).1 source len).map
      ((malloc P w size).1, ·) = some (r, w')) : Silent w w' := by
  obtain ⟨v, hv, heq⟩ := Option.map_eq_some_iff.mp h
  cases heq
  exact silent_trans (silent_malloc P w size) (silent_memcpy hv)

theorem silent_cloneString {P : Process} {w w' : World} {source len r : ℕ}
    (h : (if (malloc P w len).1 = 0 then some (0, (malloc P w len).2)
      else (memcpy (malloc P w len).2 (malloc P w len).1 source len).map
        ((malloc P w len).1, ·)) = some (r, w')) : Silent w w' := by
  split at h
  · cases h
    exact silent_malloc P w len
  · exact silent_copy h

theorem silent_cloneChar {P : Process} {w w' : World} {source r : ℕ}
    (h : aoCloneCharString P w source = some (r, w')) : Silent w w' := by
  unfold aoCloneCharString at h
  obtain ⟨bytes, _, h⟩ := Option.bind_eq_some_iff.mp h
  obtain ⟨n, _, h⟩ := Option.bind_eq_some_iff.mp h
  exact silent_cloneString h

theorem silent_cloneWide {P : Process} {w w' : World} {source r : ℕ}
    (h : aoCloneWideString P w source = some (r, w')) : Silent w w' := by
  unfold aoCloneWideString at h
  obtain ⟨bytes, _, h⟩ := Option.bind_eq_some_iff.mp h
  obtain ⟨n, _, h⟩ := Option.bind_eq_some_iff.mp h
  exact silent_cloneString h

theorem silent_cloneBytes {P : Process} {w w' : World} {source len r : ℕ}
    (h : aoCloneBytes P w source len = some (r, w')) : Silent w w' := by
  unfold aoCloneBytes at h
  dsimp only at h
  split at h
  · cases h
    exact silent_malloc P w _
  · split at h
    · exact silent_copy h
    · cases h
      exact silent_malloc P w _

theorem silent_cloneFor {P : Process} {w w' : World} {record : AoScanfRecord} {original r : ℕ}
    (h : cloneFor P w record original = some (r, w')) : Silent w w' := by
  unfold cloneFor at h
  split at h
  · exact silent_cloneChar h
  · exact silent_cloneWide h
  · exact silent_cloneBytes h
  · exact silent_cloneBytes h
  · cases h
    exact silent_refl w

theorem silent_record {P : Process} {w w' : World} {r : AoScanfRecord}
    (h : aoRehomeScanfRecord P w r = some w') : Silent w w' := by
  unfold aoRehomeScanfRecord at h
  have hread : Silent w (w.log (.readSlot r.slot)) := silent_event _ rfl rfl rfl
  dsimp only [aoLoadPointerSlot] at h
  split at h
  · cases h
    exact hread
  · obtain ⟨⟨copy, v⟩, hclone, h⟩ := Option.bind_eq_some_iff.mp h
    have hv := silent_trans hread (silent_cloneFor hclone)
    dsimp only at h
    split at h
    · cases h
      exact hv
    · cases h
      refine silent_trans hv (silent_trans (v := aoStorePointerSlot v r.slot copy) ?_ ?_)
      · exact silent_event (.writeSlot r.slot copy) rfl rfl rfl
      · exact silent_event (.libcFree (w.memory.slots r.slot)) rfl rfl rfl

theorem silent_plan {P : Process} {records : List AoScanfRecord} {w w' : World} {matched : ℤ}
    (h : aoRehomeScanfPlan P w records matched = some w') : Silent w w' := by
  induction records generalizing w with
  | nil =>
    cases h
    exact silent_refl _
  | cons r records ih =>
    rw [aoRehomeScanfPlan] at h
    split at h
    · cases h
      exact silent_refl _
    · obtain ⟨v, hv, h⟩ := Option.bind_eq_some_iff.mp h
      exact silent_trans (silent_record hv) (ih h)

/-! ### The common wrappers on their way -/

theorem ensure_trace (P : Process) (w : World) : (aoEnsureScanfSymbols P w).trace = w.trace := by
  unfold aoEnsureScanfSymbols
  split <;> rfl

/-- The wrapper after the symbols are there and the format is parsed. -/
theorem wrapCommon_real {P : Process} {w : World} {fn : ℕ} (input : ℕ) (format : Format)
    {args : ℕ → ℕ} {parse : Env → Option (ℤ × Scan)} {code : ℤ} {s : Scan} (hfn : fn ≠ 0)
    (hparse : parse ⟨args, P.grow (aoEnsureScanfSymbols P w).memory⟩ = some (code, s)) :
    wrapCommon P w fn input format args parse =
      let w := aoEnsureScanfSymbols P w
      let r := P.real ⟨fn, input, format, args⟩ w.memory
      let v : World := ⟨w.lib, r.2, w.trace ++ [.invoke fn input format]⟩
      if code = 0 ∧ w.lib.bridgeReady ∧ r.1 > 0 then
        (aoRehomeScanfPlan P v s.plan.records r.1).map (r.1, ·)
      else some (r.1, v) := by
  simp only [wrapCommon, hfn, ite_false, hparse, Option.bind_eq_bind, Option.bind_some]
  split
  · cases aoRehomeScanfPlan P _ s.plan.records _ <;> rfl
  · rfl

theorem wrapCommon_lib {P : Process} {w w' : World} {fn input : ℕ} {format : Format}
    {args : ℕ → ℕ} {parse : Env → Option (ℤ × Scan)} {ret : ℤ}
    (h : wrapCommon P w fn input format args parse = some (ret, w')) :
    w'.lib = (aoEnsureScanfSymbols P w).lib := by
  by_cases hfn : fn = 0
  · simp only [wrapCommon, hfn, ite_true] at h
    cases h
    rfl
  · cases hparse : parse ⟨args, P.grow (aoEnsureScanfSymbols P w).memory⟩ with
    | none =>
      simp only [wrapCommon, hfn, ite_false, hparse, Option.bind_eq_bind, Option.bind_none] at h
      cases h
    | some r =>
      obtain ⟨code, s⟩ := r
      rw [wrapCommon_real input format hfn hparse] at h
      dsimp only at h
      split at h
      · obtain ⟨v, hv, heq⟩ := Option.map_eq_some_iff.mp h
        cases heq
        exact (silent_plan hv).1
      · cases h
        rfl

end LibcOverride.Scanf

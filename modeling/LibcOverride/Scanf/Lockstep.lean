import LibcOverride.Scanf.NarrowParser
import Mathlib.Data.List.TakeWhile

/-!
# Both parsers on one text

On a terminated text the scanner never reads past the terminator and always
returns. The mode recorded for a `c` without `l` decides nothing else.
-/

namespace LibcOverride.Scanf
open Word

/-! ### Reads -/

/-- The only zero of the list is its last element. -/
inductive Terminated : List ℤ → Prop where
  | nul : Terminated [0]
  | cons (c : ℤ) (p : List ℤ) (hc : c ≠ 0) (h : Terminated p) : Terminated (c :: p)

/-- A helper that reads `p` returns, and leaves a cursor inside the text. -/
def Returns {α : Type} (p : List ℤ) (r : Option (α × List ℤ)) : Prop :=
  ∃ a q, r = some (a, q) ∧ Terminated q ∧ q.length ≤ p.length

theorem returns_some {α : Type} {p q : List ℤ} (a : α) (hq : Terminated q)
    (hle : q.length ≤ p.length) : Returns p (some (a, q)) := ⟨a, q, rfl, hq, hle⟩

theorem terminated_tail {c : ℤ} {p : List ℤ} (h : Terminated (c :: p)) (hc : c ≠ 0) :
    Terminated p := by
  cases h with
  | nul => exact (hc rfl).elim
  | cons _ _ _ hp => exact hp

theorem terminated_ne_nil (h : Terminated []) : False := by cases h

theorem widthLoop_returns {p : List ℤ} (h : Terminated p) (width : ℕ) :
    Returns p (widthLoopWchar p width) := by
  induction h generalizing width with
  | nul => exact returns_some _ .nul le_rfl
  | cons c p hc hp ih =>
    rw [widthLoopWchar]
    split
    · obtain ⟨a, q, hr, hq, hle⟩ := ih (widthStep width c)
      exact ⟨a, q, hr, hq, hle.trans (Nat.le_succ _)⟩
    · exact returns_some _ (.cons c p hc hp) le_rfl

theorem positionLoop_returns {p : List ℤ} (h : Terminated p) (value : ℕ) :
    Returns p (positionLoopWchar p value) := by
  induction h generalizing value with
  | nul => exact returns_some _ .nul le_rfl
  | cons c p hc hp ih =>
    rw [positionLoopWchar]
    split
    · obtain ⟨a, q, hr, hq, hle⟩ := ih (positionStep value c)
      exact ⟨a, q, hr, hq, hle.trans (Nat.le_succ _)⟩
    · exact returns_some _ (.cons c p hc hp) le_rfl

theorem parsePosition_returns {p : List ℤ} (h : Terminated p) :
    ∃ found position q, aoParsePositionWchar p = some (found, position, q) ∧ Terminated q ∧
      q.length ≤ p.length := by
  unfold aoParsePositionWchar
  cases p with
  | nil => exact (terminated_ne_nil h).elim
  | cons c p =>
    simp only [List.head?_cons, Option.bind_eq_bind, Option.bind_some]
    split
    · exact ⟨_, _, _, rfl, h, le_rfl⟩
    · obtain ⟨value, q, hr, hq, hle⟩ := positionLoop_returns h 0
      rw [hr]
      cases q with
      | nil => exact (terminated_ne_nil hq).elim
      | cons d q =>
        simp only [List.head?_cons, Option.bind_some, List.tail_cons]
        split
        · exact ⟨_, _, _, rfl, h, le_rfl⟩
        · rename_i hd
          rw [not_not] at hd
          subst hd
          exact ⟨_, _, _, rfl, terminated_tail hq (by decide), (Nat.le_succ _).trans hle⟩

theorem skipIf_returns {k : ℤ} (hk : k ≠ 0) {p : List ℤ} (h : Terminated p) :
    ∃ q, skipIfWchar k p = some q ∧ Terminated q ∧ q.length ≤ p.length := by
  cases p with
  | nil => exact (terminated_ne_nil h).elim
  | cons c p =>
    simp only [skipIfWchar, List.head?_cons, Option.bind_eq_bind, Option.bind_some, List.tail_cons]
    split
    · rename_i hc
      subst hc
      exact ⟨p, rfl, terminated_tail h hk, Nat.le_succ _⟩
    · exact ⟨_, rfl, h, le_rfl⟩

theorem scansetLoop_returns {p : List ℤ} (h : Terminated p) :
    ∃ q, scansetLoopWchar p = some q ∧ Terminated q ∧ q.length ≤ p.length := by
  induction h with
  | nul => exact ⟨[0], rfl, .nul, le_rfl⟩
  | cons c p hc hp ih =>
    rw [scansetLoopWchar]
    split
    · obtain ⟨q, hr, hq, hle⟩ := ih
      exact ⟨q, hr, hq, hle.trans (Nat.le_succ _)⟩
    · exact ⟨_, rfl, .cons c p hc hp, le_rfl⟩

theorem skipScanset_returns {p : List ℤ} (h : Terminated p) :
    ∃ q, aoSkipScansetWchar p = some q ∧ Terminated q ∧ q.length ≤ p.length := by
  obtain ⟨q1, h1, ht1, hle1⟩ := skipIf_returns (k := code '^') (by decide) h
  obtain ⟨q2, h2, ht2, hle2⟩ := skipIf_returns (k := code ']') (by decide) ht1
  obtain ⟨q3, h3, ht3, hle3⟩ := scansetLoop_returns ht2
  obtain ⟨q4, h4, ht4, hle4⟩ := skipIf_returns (k := code ']') (by decide) ht3
  refine ⟨q4, ?_, ht4, by omega⟩
  simp only [aoSkipScansetWchar, h1, h2, h3, h4, Option.bind_eq_bind, Option.bind_some]

theorem target_returns (args : ℕ → ℕ) (ap : ℕ) {p : List ℤ} (h : Terminated p) :
    Returns p (targetWchar args ap p) := by
  unfold targetWchar
  obtain ⟨found, position, q, hr, hq, hle⟩ := parsePosition_returns h
  cases p with
  | nil => exact (terminated_ne_nil h).elim
  | cons c p =>
    simp only [List.head?_cons, Option.bind_eq_bind, Option.bind_some, List.tail_cons]
    split
    · rename_i hc
      subst hc
      exact returns_some _ (terminated_tail h (by decide)) (Nat.le_succ _)
    · rw [hr]
      exact returns_some _ hq hle

theorem width_returns {p : List ℤ} (h : Terminated p) : Returns p (widthWchar p) := by
  unfold widthWchar
  have hloop := widthLoop_returns h 0
  cases p with
  | nil => exact (terminated_ne_nil h).elim
  | cons c p =>
    simp only [List.head?_cons, Option.bind_eq_bind, Option.bind_some]
    split
    · exact hloop
    · exact returns_some _ h le_rfl

theorem alloc_returns {p : List ℤ} (h : Terminated p) : Returns p (allocWchar p) := by
  cases p with
  | nil => exact (terminated_ne_nil h).elim
  | cons c p =>
    simp only [allocWchar, List.head?_cons, Option.bind_eq_bind, Option.bind_some, List.tail_cons]
    split
    · rename_i hc
      subst hc
      exact returns_some _ (terminated_tail h (by decide)) (Nat.le_succ _)
    · exact returns_some _ h le_rfl

theorem size_returns {p : List ℤ} (h : Terminated p) : Returns p (sizeWchar p) := by
  cases p with
  | nil => exact (terminated_ne_nil h).elim
  | cons c p =>
    have hstep : ∀ {k : ℤ}, c = k → k ≠ 0 → Returns (c :: p) (some (AoSize.sizeDef, p)) := by
      rintro k rfl hk
      exact returns_some _ (terminated_tail h hk) (Nat.le_succ _)
    have htwo : ∀ {d : ℤ} {q : List ℤ} {k : ℤ} (size : AoSize), p = d :: q → d = k → k ≠ 0 →
        c ≠ 0 → Returns (c :: p) (some (size, q)) := by
      rintro d q k size rfl rfl hk hc
      have htail := terminated_tail (terminated_tail h hc) hk
      exact returns_some _ htail ((Nat.le_succ _).trans (Nat.le_succ _))
    simp only [sizeWchar, List.head?_cons, Option.bind_eq_bind, Option.bind_some, List.tail_cons]
    split
    · rename_i hc
      have hc0 : c ≠ 0 := by
        rw [hc]
        decide
      cases p with
      | nil => exact (terminated_ne_nil (terminated_tail h hc0)).elim
      | cons d q =>
        simp only [List.head?_cons, Option.bind_some, List.tail_cons]
        split
        · exact returns_some _ (terminated_tail h hc0) (Nat.le_succ _)
        · rename_i hd
          exact htwo _ rfl (not_not.mp hd) (by decide) hc0
    · split
      · rename_i hc
        have hc0 : c ≠ 0 := by
          rw [hc]
          decide
        cases p with
        | nil => exact (terminated_ne_nil (terminated_tail h hc0)).elim
        | cons d q =>
          simp only [List.head?_cons, Option.bind_some, List.tail_cons]
          split
          · rename_i hd
            exact htwo _ rfl hd (by decide) hc0
          · exact returns_some _ (terminated_tail h hc0) (Nat.le_succ _)
      · split
        · rename_i hc
          rcases hc with hc | hc | hc | hc <;> exact hstep hc (by decide)
        · exact returns_some _ h le_rfl

/-- The end of an iteration that started with `n` characters to read. -/
def Advances (n : ℕ) : Option (Next (List ℤ)) → Prop
  | none => False
  | some (.more _ q) => Terminated q ∧ q.length ≤ n
  | some (.stop _) => True
  | some (.fail _) => True

theorem spec_advances (charMode : AoRehomeMode) (env : Env) (s : Scan) (t : Target) (width : ℕ)
    (alloc : Bool) (size : AoSize) (spec : ℤ) {p : List ℤ} (h : Terminated p) :
    Advances p.length (specWchar charMode env s t width alloc size spec p) := by
  obtain ⟨q, hr, hq, hle⟩ := skipScanset_returns h
  unfold specWchar
  dsimp only
  generalize (if (alloc && !t.suppressed && isStringSpec spec) = true then _ else _) = r
  split
  · trivial
  · split
    · rw [hr]
      exact ⟨hq, hle⟩
    · exact ⟨h, le_rfl⟩

theorem conversion_advances (charMode : AoRehomeMode) (env : Env) (s : Scan) {p : List ℤ}
    (h : Terminated p) : Advances p.length (conversionWchar charMode env s p) := by
  obtain ⟨t, p1, h1, ht1, hle1⟩ := target_returns env.args s.ap h
  obtain ⟨width, p2, h2, ht2, hle2⟩ := width_returns ht1
  obtain ⟨alloc, p3, h3, ht3, hle3⟩ := alloc_returns ht2
  obtain ⟨size, p4, h4, ht4, hle4⟩ := size_returns ht3
  simp only [conversionWchar, h1, h2, h3, h4, Option.bind_eq_bind, Option.bind_some]
  cases p4 with
  | nil => exact (terminated_ne_nil ht4).elim
  | cons c p4 =>
    simp only [List.head?_cons, Option.bind_some, List.tail_cons]
    split
    · trivial
    · rename_i hc
      have hs := spec_advances charMode env { s with ap := t.ap, taken := s.taken ++ t.taken } t
        width alloc (foldSpec c size).2 (foldSpec c size).1 (terminated_tail ht4 hc)
      rw [List.length_cons] at hle4
      revert hs
      generalize specWchar _ _ _ _ _ _ _ _ _ = r
      rcases r with _ | s' | s' | s'
      · exact id
      · rintro ⟨hq, hle⟩
        exact ⟨hq, by omega⟩
      · exact id
      · exact id

theorem iteration_advances (charMode : AoRehomeMode) (env : Env) (s : Scan) (c : ℤ) {p : List ℤ}
    (h : Terminated p) : Advances p.length (iterationWchar charMode env s c p) := by
  unfold iterationWchar
  split
  · exact ⟨h, le_rfl⟩
  · cases p with
    | nil => exact (terminated_ne_nil h).elim
    | cons d q =>
      simp only [List.head?_cons, Option.bind_eq_bind, Option.bind_some, List.tail_cons]
      split
      · rename_i hd
        subst hd
        exact ⟨terminated_tail h (by decide), Nat.le_succ _⟩
      · exact conversion_advances charMode env s h

theorem scanLoop_returns (charMode : AoRehomeMode) (env : Env) (fuel : ℕ) (s : Scan) {p : List ℤ}
    (h : Terminated p) (hfuel : p.length ≤ fuel) :
    ∃ r, scanLoop charMode env fuel s p = some r := by
  induction fuel generalizing s p with
  | zero =>
    have hnil : p = [] := List.eq_nil_of_length_eq_zero (Nat.le_zero.mp hfuel)
    subst hnil
    exact (terminated_ne_nil h).elim
  | succ fuel ih =>
    cases p with
    | nil => exact (terminated_ne_nil h).elim
    | cons c p =>
      rw [scanLoop]
      split
      · exact ⟨_, rfl⟩
      · rename_i hc
        have hadv := iteration_advances charMode env s c (terminated_tail h hc)
        revert hadv
        rcases iterationWchar charMode env s c p with _ | s' | s' | s'
        · exact False.elim
        · rintro ⟨hq, hle⟩
          rw [List.length_cons] at hfuel
          exact ih s' hq (by omega)
        · intro _
          exact ⟨_, rfl⟩
        · intro _
          exact ⟨_, rfl⟩

/-- A terminated format is never read past its terminator. -/
theorem scanFormat_returns (charMode : AoRehomeMode) (env : Env) {p : List ℤ}
    (h : Terminated p) : ∃ r, scanFormat charMode env p = some r :=
  scanLoop_returns charMode env p.length startScan h le_rfl

/-! ### The two modes of a `c` -/

def AoRehomeMode.widen : AoRehomeMode → AoRehomeMode
  | .charCount => .unsupportedWideCharCount
  | m => m

def AoScanfRecord.widen (r : AoScanfRecord) : AoScanfRecord := { r with mode := r.mode.widen }

def AoScanfPlan.widen (plan : AoScanfPlan) : AoScanfPlan :=
  { plan with records := plan.records.map AoScanfRecord.widen }

def Scan.widen (s : Scan) : Scan := { s with plan := s.plan.widen }

def Next.widen : Next (List ℤ) → Next (List ℤ)
  | .more s p => .more s.widen p
  | .stop s => .stop s.widen
  | .fail s => .fail s.widen

theorem planPush_widen (grow : ℕ → Bool) (plan : AoScanfPlan) (record : AoScanfRecord) :
    aoScanfPlanPush grow plan.widen record.widen =
      Prod.map id AoScanfPlan.widen (aoScanfPlanPush grow plan record) := by
  have hlen : plan.widen.records.length = plan.records.length := List.length_map _
  have hcap : plan.widen.capacity = plan.capacity := rfl
  have hnew : plan.widen.newCapacity = plan.newCapacity := rfl
  have happend : plan.widen.records ++ [record.widen] =
      (plan.records ++ [record]).map AoScanfRecord.widen := by
    rw [List.map_append]
    rfl
  unfold aoScanfPlanPush
  rw [hlen, hcap, hnew, happend]
  split
  · split <;> rfl
  · rfl

theorem recordMConversion_widen (grow : ℕ → Bool) (plan : AoScanfPlan) (dest ordinal : ℕ)
    (size : AoSize) (spec : ℤ) (width : ℕ) :
    aoRecordWideMConversion grow plan.widen dest ordinal size spec width =
      Prod.map id AoScanfPlan.widen
        (aoRecordNarrowMConversion grow plan dest ordinal size spec width) := by
  unfold aoRecordWideMConversion aoRecordNarrowMConversion recordMConversion
  split
  · rfl
  · rw [← planPush_widen]
    unfold AoScanfRecord.widen
    split
    · split <;> rfl
    · split <;> rfl

theorem spec_widen (env : Env) (s : Scan) (t : Target) (width : ℕ) (alloc : Bool)
    (size : AoSize) (spec : ℤ) (p : List ℤ) :
    specWchar .unsupportedWideCharCount env s.widen t width alloc size spec p =
      (specWchar .charCount env s t width alloc size spec p).map Next.widen := by
  have hrec := recordMConversion_widen env.grow s.plan t.dest ((s.ordinal + 1) % 2 ^ 32) size spec
    (effectiveWidth spec width)
  unfold aoRecordWideMConversion aoRecordNarrowMConversion at hrec
  have hpair : (if (alloc && !t.suppressed && isStringSpec spec) = true then
        recordMConversion .unsupportedWideCharCount env.grow s.widen.plan t.dest
          ((s.widen.ordinal + 1) % 2 ^ 32) size spec (effectiveWidth spec width)
      else (true, s.widen.plan)) = Prod.map id AoScanfPlan.widen
      (if (alloc && !t.suppressed && isStringSpec spec) = true then
        recordMConversion .charCount env.grow s.plan t.dest ((s.ordinal + 1) % 2 ^ 32) size spec
          (effectiveWidth spec width)
      else (true, s.plan)) := by
    split
    · exact hrec
    · rfl
  unfold specWchar
  dsimp only
  rw [hpair]
  generalize (if (alloc && !t.suppressed && isStringSpec spec) = true then _ else _) = r
  simp only [Prod.map, id_eq]
  split
  · rfl
  · split
    · cases aoSkipScansetWchar p <;> rfl
    · rfl

theorem conversion_widen (env : Env) (s : Scan) (p : List ℤ) :
    conversionWchar .unsupportedWideCharCount env s.widen p =
      (conversionWchar .charCount env s p).map Next.widen := by
  simp only [conversionWchar, Option.bind_eq_bind]
  refine bind_refines_same fun t => ?_
  refine bind_refines_same fun width => ?_
  refine bind_refines_same fun alloc => ?_
  refine bind_refines_same fun size => ?_
  refine bind_refines_same fun c => ?_
  split
  · rfl
  · exact spec_widen env { s with ap := t.1.ap, taken := s.taken ++ t.1.taken } t.1 width.1
      alloc.1 _ _ _

theorem iteration_widen (env : Env) (s : Scan) (c : ℤ) (p : List ℤ) :
    iterationWchar .unsupportedWideCharCount env s.widen c p =
      (iterationWchar .charCount env s c p).map Next.widen := by
  unfold iterationWchar
  rw [conversion_widen]
  split
  · rfl
  · cases p with
    | nil => rfl
    | cons d q =>
      simp only [List.head?_cons, Option.bind_eq_bind, Option.bind_some]
      split <;> rfl

theorem scanLoop_widen (env : Env) (fuel : ℕ) (s : Scan) (p : List ℤ) :
    scanLoop .unsupportedWideCharCount env fuel s.widen p =
      (scanLoop .charCount env fuel s p).map (Prod.map id Scan.widen) := by
  induction fuel generalizing s p with
  | zero => rfl
  | succ fuel ih =>
    cases p with
    | nil => rfl
    | cons c p =>
      rw [scanLoop, scanLoop, iteration_widen]
      split
      · rfl
      · rcases iterationWchar .charCount env s c p with _ | s' | s' | s'
        · rfl
        · exact ih s' _
        · rfl
        · rfl

/-! ### The result -/

/-- A byte string as a C string: it ends before the first zero byte. -/
def cString (bytes : List UInt8) : List Int8 :=
  (bytes.takeWhile fun b => b ≠ 0).map UInt8.toInt8 ++ [0]

/-- The same string as wide characters of the same unsigned values. -/
def wideString (bytes : List UInt8) : List ℤ :=
  (bytes.takeWhile fun b => b ≠ 0).map (fun b => (b.toNat : ℤ)) ++ [0]

theorem uchars_cString (bytes : List UInt8) : uchars (cString bytes) = wideString bytes := by
  simp only [uchars, cString, wideString, List.map_append, List.map_map, List.map_cons,
    List.map_nil]
  rfl

theorem terminated_append {q : List ℤ} (h : ∀ c ∈ q, c ≠ 0) : Terminated (q ++ [0]) := by
  induction q with
  | nil => exact .nul
  | cons c q ih =>
    exact .cons c _ (h c (List.mem_cons_self ..)) (ih fun d hd => h d (List.mem_cons_of_mem _ hd))

theorem terminated_wideString (bytes : List UInt8) : Terminated (wideString bytes) := by
  refine terminated_append ?_
  intro c hc
  obtain ⟨b, hb, rfl⟩ := List.mem_map.mp hc
  have hne : b ≠ 0 := by simpa using List.mem_takeWhile_imp hb
  intro hz
  exact hne (UInt8.toNat_inj.mp (by exact_mod_cast hz))

/-- Both parsers return on every byte string, without a read past the
terminator, with the same result code, arguments and records; a `c` without
`l` alone gets another mode. -/
theorem parsers_agree (env : Env) (bytes : List UInt8) : ∃ code s w,
    aoParseScanfFormat env (cString bytes) = some (code, s) ∧
    aoParseWscanfFormat env (wideString bytes) = some (code, w) ∧
    w.taken = s.taken ∧ w.ap = s.ap ∧
    w.plan.records = s.plan.records.map AoScanfRecord.widen := by
  obtain ⟨⟨code, s⟩, hs⟩ := scanFormat_returns .charCount env (terminated_wideString bytes)
  have hw : scanFormat .unsupportedWideCharCount env (wideString bytes) =
      (scanFormat .charCount env (wideString bytes)).map (Prod.map id Scan.widen) :=
    scanLoop_widen env _ startScan _
  rw [hs] at hw
  refine ⟨code, s, s.widen, ?_, hw, rfl, rfl, rfl⟩
  rw [parseScanfFormat_eq, uchars_cString, hs]

end LibcOverride.Scanf

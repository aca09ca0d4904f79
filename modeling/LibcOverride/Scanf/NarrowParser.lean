import LibcOverride.Scanf.WideParser

/-!
# The narrow format parser (src/scanf_overrides.c:154-206, 236-253, 355-441)

A `char` is signed and promoted to `int` in every comparison; the specifier
alone is read as an `unsigned char`.
-/

namespace LibcOverride.Scanf
open Word

def aoIsDigitChar (c : Int8) : Bool := decide (code '0' ≤ c.toInt ∧ c.toInt ≤ code '9')

def widthLoopChar : List Int8 → ℕ → Option (ℕ × List Int8)
  | [], _ => none
  | c :: p, width =>
    if aoIsDigitChar c then
      widthLoopChar p (widthStep width c.toInt)
    else some (width, c :: p)

def aoParseWidthChar (p : List Int8) : Option (ℕ × List Int8) := widthLoopChar p 0

def positionLoopChar : List Int8 → ℕ → Option (ℕ × List Int8)
  | [], _ => none
  | c :: p, value =>
    if aoIsDigitChar c then
      positionLoopChar p (positionStep value c.toInt)
    else some (value, c :: p)

/-- The result, the position and the new cursor. -/
def aoParsePositionChar (p : List Int8) : Option (Bool × ℕ × List Int8) := do
  let c ← p.head?
  if aoIsDigitChar c = false then some (false, 0, p)
  else
    let (value, q) ← positionLoopChar p 0
    let d ← q.head?
    if d.toInt ≠ code '$' then some (false, 0, p) else some (decide (value ≠ 0), value, q.tail)

/-- `if (*p == k) ++p;` -/
def skipIfChar (k : ℤ) (p : List Int8) : Option (List Int8) := do
  let c ← p.head?
  some (if c.toInt = k then p.tail else p)

def scansetLoopChar : List Int8 → Option (List Int8)
  | [] => none
  | c :: p => if c.toInt ≠ 0 ∧ c.toInt ≠ code ']' then scansetLoopChar p else some (c :: p)

def aoSkipScansetChar (p : List Int8) : Option (List Int8) := do
  let p ← skipIfChar (code '^') p
  let p ← skipIfChar (code ']') p
  let p ← scansetLoopChar p
  skipIfChar (code ']') p

/-! The body of the loop, one function for each `if` of the source. -/

def targetChar (args : ℕ → ℕ) (ap : ℕ) (p : List Int8) : Option (Target × List Int8) := do
  let c ← p.head?
  if c.toInt = code '*' then some (Target.suppress ap, p.tail)
  else
    let (found, position, p) ← aoParsePositionChar p
    some (if found then Target.nth args ap position else Target.next args ap, p)

def widthChar (p : List Int8) : Option (ℕ × List Int8) := do
  let c ← p.head?
  if aoIsDigitChar c then aoParseWidthChar p else some (0, p)

def allocChar (p : List Int8) : Option (Bool × List Int8) := do
  let c ← p.head?
  some (if c.toInt = code 'm' then (true, p.tail) else (false, p))

def sizeChar (p : List Int8) : Option (AoSize × List Int8) := do
  let c ← p.head?
  if c.toInt = code 'l' then
    let d ← p.tail.head?
    some (if d.toInt ≠ code 'l' then (.sizeL, p.tail) else (.sizeDef, p.tail.tail))
  else if c.toInt = code 'h' then
    let d ← p.tail.head?
    some (.sizeDef, if d.toInt = code 'h' then p.tail.tail else p.tail)
  else if c.toInt = code 'j' ∨ c.toInt = code 'z' ∨ c.toInt = code 't' ∨ c.toInt = code 'L' then
    some (.sizeDef, p.tail)
  else some (.sizeDef, p)

/-- `spec` is what the cast and the fold of `C` and `S` leave. -/
def specChar (env : Env) (s : Scan) (t : Target) (width : ℕ) (alloc : Bool) (size : AoSize)
    (spec : ℤ) (p : List Int8) : Option (Next (List Int8)) :=
  let r := if alloc && !t.suppressed && isStringSpec spec then
      aoRecordNarrowMConversion env.grow s.plan t.dest ((s.ordinal + 1) % 2 ^ 32) size spec
        (effectiveWidth spec width)
    else (true, s.plan)
  if r.1 = false then some (.fail { s with plan := r.2 })
  else do
    let p ← if spec = code '[' then aoSkipScansetChar p else some p
    some (.more { s with
      plan := r.2
      ordinal := if t.suppressed = false ∧ spec ≠ code 'n' then (s.ordinal + 1) % 2 ^ 32
        else s.ordinal } p)

def conversionChar (env : Env) (s : Scan) (p : List Int8) : Option (Next (List Int8)) := do
  let (t, p) ← targetChar env.args s.ap p
  let (width, p) ← widthChar p
  let (alloc, p) ← allocChar p
  let (size, p) ← sizeChar p
  let c ← p.head?
  let s := { s with ap := t.ap, taken := s.taken ++ t.taken }
  if c.toInt = 0 then some (.stop s)
  else
    let spec := c.toUInt8.toNat
    specChar env s t width alloc (foldSpec spec size).2 (foldSpec spec size).1 p.tail

def iterationChar (env : Env) (s : Scan) (c : Int8) (p : List Int8) :
    Option (Next (List Int8)) :=
  if c.toInt ≠ code '%' then some (.more s p)
  else do
    let d ← p.head?
    if d.toInt = code '%' then some (.more s p.tail) else conversionChar env s p

def scanLoopChar (env : Env) : ℕ → Scan → List Int8 → Option (ℤ × Scan)
  | 0, _, _ => none
  | _ + 1, _, [] => none
  | fuel + 1, s, c :: p =>
    if c.toInt = 0 then some (0, s)
    else
      match iterationChar env s c p with
      | none => none
      | some (.more s p) => scanLoopChar env fuel s p
      | some (.stop s) => some (0, s)
      | some (.fail s) => some (-1, s)

/-- `format` is the array up to and including its terminator. -/
def aoParseScanfFormat (env : Env) (format : List Int8) : Option (ℤ × Scan) :=
  scanLoopChar env format.length startScan format

/-! ### The copy refines the scanner -/

/-- The unsigned value of a `char`. -/
def uchar (c : Int8) : ℤ := c.toUInt8.toNat

abbrev uchars (p : List Int8) : List ℤ := p.map uchar

theorem uchar_cases (c : Int8) :
    (0 ≤ c.toInt ∧ c.toInt < 128 ∧ uchar c = c.toInt) ∨
    (-128 ≤ c.toInt ∧ c.toInt < 0 ∧ uchar c = c.toInt + 256) := by
  have hlo := Int8.le_toInt c
  have hhi := Int8.toInt_lt c
  have hu : uchar c = c.toInt % 256 := by
    have hnat := c.toBitVec.isLt
    have hint : c.toInt = c.toBitVec.toInt := rfl
    rw [hint, BitVec.toInt_eq_toNat_bmod]
    change (c.toBitVec.toNat : ℤ) = Int.bmod c.toBitVec.toNat 256 % (256 : ℕ)
    rw [Int.bmod_emod]
    omega
  omega

theorem uchar_eq (c : Int8) (k : ℤ) (h0 : 0 ≤ k) (h1 : k < 128) : uchar c = k ↔ c.toInt = k := by
  rcases uchar_cases c with h | h <;> omega

theorem isDigit_uchar (c : Int8) : aoIsDigitWchar (uchar c) = aoIsDigitChar c := by
  have h0 : code '0' = 48 := by decide
  have h9 : code '9' = 57 := by decide
  unfold aoIsDigitWchar aoIsDigitChar
  rw [h0, h9, decide_eq_decide]
  rcases uchar_cases c with h | h <;> omega

theorem digit_uchar {c : Int8} (h : aoIsDigitChar c = true) : uchar c = c.toInt := by
  have h0 : code '0' = 48 := by decide
  have hd := of_decide_eq_true h
  rcases uchar_cases c with hc | hc <;> omega

theorem widthLoop_uchars (p : List Int8) (width : ℕ) :
    widthLoopWchar (uchars p) width = (widthLoopChar p width).map (Prod.map id uchars) := by
  induction p generalizing width with
  | nil => rfl
  | cons c p ih =>
    simp only [uchars, List.map_cons, widthLoopWchar, widthLoopChar, isDigit_uchar]
    by_cases hd : aoIsDigitChar c = true
    · rw [if_pos hd, if_pos hd, widthStep, digit_uchar hd]
      exact ih _
    · rw [if_neg hd, if_neg hd]
      rfl

theorem positionLoop_uchars (p : List Int8) (value : ℕ) :
    positionLoopWchar (uchars p) value = (positionLoopChar p value).map (Prod.map id uchars) := by
  induction p generalizing value with
  | nil => rfl
  | cons c p ih =>
    simp only [uchars, List.map_cons, positionLoopWchar, positionLoopChar, isDigit_uchar]
    by_cases hd : aoIsDigitChar c = true
    · rw [if_pos hd, if_pos hd, positionStep, digit_uchar hd]
      exact ih _
    · rw [if_neg hd, if_neg hd]
      rfl

theorem parsePosition_uchars (p : List Int8) : aoParsePositionWchar (uchars p) =
    (aoParsePositionChar p).map (Prod.map id (Prod.map id uchars)) := by
  unfold aoParsePositionWchar aoParsePositionChar
  rw [positionLoop_uchars]
  cases p with
  | nil => rfl
  | cons c p =>
    simp only [uchars, List.map_cons, List.head?_cons, Option.bind_eq_bind, Option.bind_some,
      isDigit_uchar]
    by_cases hd : aoIsDigitChar c = false
    · rw [if_pos hd, if_pos hd]
      rfl
    · rw [if_neg hd, if_neg hd]
      rcases positionLoopChar (c :: p) 0 with _ | ⟨value, _ | ⟨d, q⟩⟩
      · rfl
      · rfl
      · have hk := uchar_eq d (code '$') (by decide) (by decide)
        by_cases hdollar : d.toInt = code '$'
        · simp [hk, hdollar]
        · simp [hk, hdollar]

theorem skipIf_uchars (k : ℤ) (h0 : 0 ≤ k) (h1 : k < 128) (p : List Int8) :
    skipIfWchar k (uchars p) = (skipIfChar k p).map uchars := by
  cases p with
  | nil => rfl
  | cons c p =>
    simp only [skipIfWchar, skipIfChar, uchars, List.map_cons, List.head?_cons, Option.bind_eq_bind,
      Option.bind_some, uchar_eq c k h0 h1, List.tail_cons]
    split <;> rfl

theorem scansetLoop_uchars (p : List Int8) :
    scansetLoopWchar (uchars p) = (scansetLoopChar p).map uchars := by
  induction p with
  | nil => rfl
  | cons c p ih =>
    have hz := uchar_eq c 0 (by decide) (by decide)
    have hk := uchar_eq c (code ']') (by decide) (by decide)
    simp only [uchars, List.map_cons, scansetLoopWchar, scansetLoopChar, ne_eq, hz, hk]
    split
    · exact ih
    · rfl

theorem skipScanset_uchars (p : List Int8) :
    aoSkipScansetWchar (uchars p) = (aoSkipScansetChar p).map uchars := by
  simp only [aoSkipScansetWchar, aoSkipScansetChar, Option.bind_eq_bind]
  rw [skipIf_uchars _ (by decide) (by decide)]
  refine bind_refines fun p => ?_
  rw [skipIf_uchars _ (by decide) (by decide)]
  refine bind_refines fun p => ?_
  rw [scansetLoop_uchars]
  refine bind_refines fun p => ?_
  exact skipIf_uchars _ (by decide) (by decide) p

theorem target_uchars (args : ℕ → ℕ) (ap : ℕ) (p : List Int8) :
    targetWchar args ap (uchars p) = (targetChar args ap p).map (Prod.map id uchars) := by
  unfold targetWchar targetChar
  rw [parsePosition_uchars]
  cases p with
  | nil => rfl
  | cons c p =>
    have hk := uchar_eq c (code '*') (by decide) (by decide)
    simp only [uchars, List.map_cons, List.head?_cons, Option.bind_eq_bind, Option.bind_some, hk]
    split
    · rfl
    · cases aoParsePositionChar (c :: p) <;> rfl

theorem width_uchars (p : List Int8) :
    widthWchar (uchars p) = (widthChar p).map (Prod.map id uchars) := by
  unfold widthWchar widthChar aoParseWidthWchar aoParseWidthChar
  rw [widthLoop_uchars]
  cases p with
  | nil => rfl
  | cons c p =>
    simp only [uchars, List.map_cons, List.head?_cons, Option.bind_eq_bind, Option.bind_some,
      isDigit_uchar]
    split <;> rfl

theorem alloc_uchars (p : List Int8) :
    allocWchar (uchars p) = (allocChar p).map (Prod.map id uchars) := by
  cases p with
  | nil => rfl
  | cons c p =>
    have hk := uchar_eq c (code 'm') (by decide) (by decide)
    simp only [allocWchar, allocChar, uchars, List.map_cons, List.head?_cons, Option.bind_eq_bind,
      Option.bind_some, hk]
    split <;> rfl

theorem size_uchars (p : List Int8) :
    sizeWchar (uchars p) = (sizeChar p).map (Prod.map id uchars) := by
  cases p with
  | nil => rfl
  | cons c p =>
    have hl := uchar_eq c (code 'l') (by decide) (by decide)
    have hh := uchar_eq c (code 'h') (by decide) (by decide)
    have hj := uchar_eq c (code 'j') (by decide) (by decide)
    have hz := uchar_eq c (code 'z') (by decide) (by decide)
    have ht := uchar_eq c (code 't') (by decide) (by decide)
    have hL := uchar_eq c (code 'L') (by decide) (by decide)
    simp only [sizeWchar, sizeChar, uchars, List.map_cons, List.head?_cons, Option.bind_eq_bind,
      Option.bind_some, List.tail_cons, hl, hh, hj, hz, ht, hL]
    cases p with
    | nil =>
      split
      · rfl
      · split
        · rfl
        · split <;> rfl
    | cons d p =>
      have hdl := uchar_eq d (code 'l') (by decide) (by decide)
      have hdh := uchar_eq d (code 'h') (by decide) (by decide)
      simp only [List.map_cons, List.head?_cons, Option.bind_some, List.tail_cons, ne_eq, hdl, hdh]
      split
      · split <;> rfl
      · split
        · split <;> rfl
        · split <;> rfl

theorem spec_uchars (env : Env) (s : Scan) (t : Target) (width : ℕ) (alloc : Bool)
    (size : AoSize) (spec : ℤ) (p : List Int8) :
    specWchar .charCount env s t width alloc size spec (uchars p) =
      (specChar env s t width alloc size spec p).map (Next.map uchars) := by
  unfold specWchar specChar aoRecordNarrowMConversion
  rw [skipScanset_uchars]
  dsimp only
  generalize (if (alloc && !t.suppressed && isStringSpec spec) = true then _ else _) = r
  split
  · rfl
  · split
    · cases aoSkipScansetChar p <;> rfl
    · rfl

theorem conversion_uchars (env : Env) (s : Scan) (p : List Int8) :
    conversionWchar .charCount env s (uchars p) =
      (conversionChar env s p).map (Next.map uchars) := by
  simp only [conversionWchar, conversionChar, Option.bind_eq_bind]
  rw [target_uchars]
  refine bind_refines fun t => ?_
  rw [Prod.map_snd, width_uchars]
  refine bind_refines fun width => ?_
  rw [Prod.map_snd, alloc_uchars]
  refine bind_refines fun alloc => ?_
  rw [Prod.map_snd, size_uchars]
  refine bind_refines fun size => ?_
  obtain ⟨size, p⟩ := size
  cases p with
  | nil => rfl
  | cons c p =>
    have hz := uchar_eq c 0 (by decide) (by decide)
    simp only [Prod.map, id_eq, uchars, List.map_cons, List.head?_cons, Option.bind_some,
      List.tail_cons, hz]
    split
    · rfl
    · exact spec_uchars env _ t.1 width.1 alloc.1 _ _ p

theorem iteration_uchars (env : Env) (s : Scan) (c : Int8) (p : List Int8) :
    iterationWchar .charCount env s (uchar c) (uchars p) =
      (iterationChar env s c p).map (Next.map uchars) := by
  have hk := uchar_eq c (code '%') (by decide) (by decide)
  unfold iterationWchar iterationChar
  rw [conversion_uchars]
  simp only [ne_eq, hk]
  split
  · rfl
  · cases p with
    | nil => rfl
    | cons d p =>
      have hd := uchar_eq d (code '%') (by decide) (by decide)
      simp only [uchars, List.map_cons, List.head?_cons, Option.bind_eq_bind, Option.bind_some, hd]
      split <;> rfl

theorem scanLoop_uchars (env : Env) (fuel : ℕ) (s : Scan) (p : List Int8) :
    scanLoop .charCount env fuel s (uchars p) = scanLoopChar env fuel s p := by
  induction fuel generalizing s p with
  | zero => rfl
  | succ fuel ih =>
    cases p with
    | nil => rfl
    | cons c p =>
      have hz := uchar_eq c 0 (by decide) (by decide)
      simp only [uchars, List.map_cons, scanLoop, scanLoopChar, hz]
      split
      · rfl
      · have hit := iteration_uchars env s c p
        rw [uchars] at hit
        rw [hit]
        cases iterationChar env s c p with
        | none => rfl
        | some next =>
          cases next with
          | more s p => exact ih s p
          | stop s => rfl
          | fail s => rfl

theorem parseScanfFormat_eq (env : Env) (format : List Int8) :
    aoParseScanfFormat env format = scanFormat .charCount env (uchars format) := by
  rw [aoParseScanfFormat, scanFormat, scanLoop_uchars, List.length_map]

end LibcOverride.Scanf

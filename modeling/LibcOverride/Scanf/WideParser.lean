import LibcOverride.Scanf.Plan

/-!
# The wide format parser (src/scanf_overrides.c:159-162, 181-196, 221-234, 256-273, 328-353, 443-529)

A `wchar_t` is an `int`. The text is the array up to and including its
terminator; `none` is a read past its end. The mode recorded for a `c` without
`l` is a parameter, because the narrow parser refines the same scanner.
-/

namespace LibcOverride.Scanf
open Word

def aoIsDigitWchar (c : ℤ) : Bool := decide (code '0' ≤ c ∧ c ≤ code '9')

def widthLoopWchar : List ℤ → ℕ → Option (ℕ × List ℤ)
  | [], _ => none
  | c :: p, width =>
    if aoIsDigitWchar c then widthLoopWchar p (widthStep width c) else some (width, c :: p)

def aoParseWidthWchar (p : List ℤ) : Option (ℕ × List ℤ) := widthLoopWchar p 0

def positionLoopWchar : List ℤ → ℕ → Option (ℕ × List ℤ)
  | [], _ => none
  | c :: p, value =>
    if aoIsDigitWchar c then positionLoopWchar p (positionStep value c) else some (value, c :: p)

/-- Position 0 counts as no position, with the cursor past the `$`. -/
def aoParsePositionWchar (p : List ℤ) : Option (Bool × ℕ × List ℤ) := do
  let c ← p.head?
  if aoIsDigitWchar c = false then some (false, 0, p)
  else
    let (value, q) ← positionLoopWchar p 0
    let d ← q.head?
    if d ≠ code '$' then some (false, 0, p) else some (decide (value ≠ 0), value, q.tail)

def skipIfWchar (k : ℤ) (p : List ℤ) : Option (List ℤ) := do
  let c ← p.head?
  some (if c = k then p.tail else p)

def scansetLoopWchar : List ℤ → Option (List ℤ)
  | [] => none
  | c :: p => if c ≠ 0 ∧ c ≠ code ']' then scansetLoopWchar p else some (c :: p)

def aoSkipScansetWchar (p : List ℤ) : Option (List ℤ) := do
  let p ← skipIfWchar (code '^') p
  let p ← skipIfWchar (code ']') p
  let p ← scansetLoopWchar p
  skipIfWchar (code ']') p

def targetWchar (args : ℕ → ℕ) (ap : ℕ) (p : List ℤ) : Option (Target × List ℤ) := do
  let c ← p.head?
  if c = code '*' then some (Target.suppress ap, p.tail)
  else
    let (found, position, p) ← aoParsePositionWchar p
    some (if found then Target.nth args ap position else Target.next args ap, p)

def widthWchar (p : List ℤ) : Option (ℕ × List ℤ) := do
  let c ← p.head?
  if aoIsDigitWchar c then aoParseWidthWchar p else some (0, p)

def allocWchar (p : List ℤ) : Option (Bool × List ℤ) := do
  let c ← p.head?
  some (if c = code 'm' then (true, p.tail) else (false, p))

def sizeWchar (p : List ℤ) : Option (AoSize × List ℤ) := do
  let c ← p.head?
  if c = code 'l' then
    let d ← p.tail.head?
    some (if d ≠ code 'l' then (.sizeL, p.tail) else (.sizeDef, p.tail.tail))
  else if c = code 'h' then
    let d ← p.tail.head?
    some (.sizeDef, if d = code 'h' then p.tail.tail else p.tail)
  else if c = code 'j' ∨ c = code 'z' ∨ c = code 't' ∨ c = code 'L' then some (.sizeDef, p.tail)
  else some (.sizeDef, p)

/-- From the specifier on, with the cursor behind it. -/
def specWchar (charMode : AoRehomeMode) (env : Env) (s : Scan) (t : Target) (width : ℕ)
    (alloc : Bool) (size : AoSize) (spec : ℤ) (p : List ℤ) : Option (Next (List ℤ)) :=
  let r := if alloc && !t.suppressed && isStringSpec spec then
      recordMConversion charMode env.grow s.plan t.dest ((s.ordinal + 1) % 2 ^ 32) size spec
        (effectiveWidth spec width)
    else (true, s.plan)
  if r.1 = false then some (.fail { s with plan := r.2 })
  else do
    let p ← if spec = code '[' then aoSkipScansetWchar p else some p
    some (.more { s with
      plan := r.2
      ordinal := if t.suppressed = false ∧ spec ≠ code 'n' then (s.ordinal + 1) % 2 ^ 32
        else s.ordinal } p)

/-- One conversion, from behind its `%`. -/
def conversionWchar (charMode : AoRehomeMode) (env : Env) (s : Scan) (p : List ℤ) :
    Option (Next (List ℤ)) := do
  let (t, p) ← targetWchar env.args s.ap p
  let (width, p) ← widthWchar p
  let (alloc, p) ← allocWchar p
  let (size, p) ← sizeWchar p
  let c ← p.head?
  let s := { s with ap := t.ap, taken := s.taken ++ t.taken }
  if c = 0 then some (.stop s)
  else specWchar charMode env s t width alloc (foldSpec c size).2 (foldSpec c size).1 p.tail

/-- One iteration on a text that does not start with its terminator. -/
def iterationWchar (charMode : AoRehomeMode) (env : Env) (s : Scan) (c : ℤ) (p : List ℤ) :
    Option (Next (List ℤ)) :=
  if c ≠ code '%' then some (.more s p)
  else do
    let d ← p.head?
    if d = code '%' then some (.more s p.tail) else conversionWchar charMode env s p

/-- The result code and the variables at the return. -/
def scanLoop (charMode : AoRehomeMode) (env : Env) : ℕ → Scan → List ℤ → Option (ℤ × Scan)
  | 0, _, _ => none
  | _ + 1, _, [] => none
  | fuel + 1, s, c :: p =>
    if c = 0 then some (0, s)
    else
      match iterationWchar charMode env s c p with
      | none => none
      | some (.more s p) => scanLoop charMode env fuel s p
      | some (.stop s) => some (0, s)
      | some (.fail s) => some (-1, s)

/-- Every iteration consumes a character, so the length of the text suffices. -/
def scanFormat (charMode : AoRehomeMode) (env : Env) (p : List ℤ) : Option (ℤ × Scan) :=
  scanLoop charMode env p.length startScan p

def aoParseWscanfFormat (env : Env) (format : List ℤ) : Option (ℤ × Scan) :=
  scanFormat .unsupportedWideCharCount env format

end LibcOverride.Scanf

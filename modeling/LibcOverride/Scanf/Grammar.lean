import LibcOverride.Scanf.Lockstep

/-!
# Formats as directives

The grammar of well-formed formats, the text of a directive and the record it
should leave in a plan. Texts are code lists, so one grammar serves both
parsers.
-/

namespace LibcOverride.Scanf
open Word

/-! ### Directives -/

inductive Letter where
  | d | i | o | u | x | X | a | A | e | E | f | F | g | G | p | n | c | s | C | S
  deriving Repr, DecidableEq

def Letter.char : Letter → Char
  | .d => 'd' | .i => 'i' | .o => 'o' | .u => 'u' | .x => 'x' | .X => 'X' | .a => 'a'
  | .A => 'A' | .e => 'e' | .E => 'E' | .f => 'f' | .F => 'F' | .g => 'g' | .G => 'G'
  | .p => 'p' | .n => 'n' | .c => 'c' | .s => 's' | .C => 'C' | .S => 'S'

inductive Length where
  | none | hh | h | l | ll | j | z | t | L
  deriving Repr, DecidableEq

def Length.text : Length → List ℤ
  | .none => []
  | .hh => [code 'h', code 'h']
  | .h => [code 'h']
  | .l => [code 'l']
  | .ll => [code 'l', code 'l']
  | .j => [code 'j']
  | .z => [code 'z']
  | .t => [code 't']
  | .L => [code 'L']

/-- A scanset is given by its first character and the others. -/
inductive Spec where
  | letter (l : Letter)
  | scanset (negated : Bool) (first : ℤ) (rest : List ℤ)
  deriving Repr, DecidableEq

inductive Destination where
  | suppressed
  | numbered (digits : List (Fin 10))
  | next
  deriving Repr, DecidableEq

/-- An empty list of width digits is no width. -/
structure Conversion where
  destination : Destination
  width : List (Fin 10)
  alloc : Bool
  length : Length
  spec : Spec
  deriving Repr, DecidableEq

inductive Directive where
  | literal (c : ℤ)
  | percent
  | conversion (k : Conversion)
  deriving Repr, DecidableEq

def digitsText (digits : List (Fin 10)) : List ℤ := digits.map fun d => code '0' + d.val

def digitsValue (digits : List (Fin 10)) : ℕ := digits.foldl (fun v d => v * 10 + d.val) 0

def Spec.text : Spec → List ℤ
  | .letter l => [code l.char]
  | .scanset negated first rest =>
    code '[' :: (if negated then [code '^'] else []) ++ first :: rest ++ [code ']']

def Destination.text : Destination → List ℤ
  | .suppressed => [code '*']
  | .numbered digits => digitsText digits ++ [code '$']
  | .next => []

def Conversion.text (k : Conversion) : List ℤ :=
  k.destination.text ++ (digitsText k.width ++ ((if k.alloc then [code 'm'] else []) ++
    (k.length.text ++ k.spec.text)))

def Directive.text : Directive → List ℤ
  | .literal c => [c]
  | .percent => [code '%', code '%']
  | .conversion k => code '%' :: k.text

def formatText (ds : List Directive) : List ℤ := ds.flatMap Directive.text ++ [0]

/-! ### Well-formed formats -/

/-- The specifiers whose result `m` allocates. -/
def Spec.isString : Spec → Bool
  | .letter .c | .letter .s | .letter .C | .letter .S => true
  | .letter _ => false
  | .scanset _ _ _ => true

def Spec.Valid : Spec → Prop
  | .letter _ => True
  | .scanset negated first rest =>
    first ≠ 0 ∧ (negated = false → first ≠ code '^') ∧ ∀ c ∈ rest, c ≠ 0 ∧ c ≠ code ']'

def Destination.Valid : Destination → Prop
  | .numbered digits => digits ≠ [] ∧ 1 ≤ digitsValue digits
  | _ => True

structure Conversion.Valid (k : Conversion) : Prop where
  destination : k.destination.Valid
  length : k.spec.isString = true → k.length = .none ∨ k.length = .l
  spec : k.spec.Valid

def Directive.Valid : Directive → Prop
  | .literal c => c ≠ 0 ∧ c ≠ code '%'
  | .percent => True
  | .conversion k => k.Valid

/-- The conversion takes the next argument of the list. -/
def Directive.isNext : Directive → Bool
  | .conversion k => decide (k.destination = .next)
  | _ => false

def Directive.unsuppressed : Directive → Bool
  | .conversion k => decide (k.destination ≠ .suppressed)
  | _ => false

/-- The conversion counts in the result of the scanner. -/
def Directive.counted : Directive → Bool
  | .conversion k => decide (k.destination ≠ .suppressed ∧ k.spec ≠ .letter .n)
  | _ => false

def Directive.isNumbered (d : Directive) : Bool := d.unsuppressed && !d.isNext

/-- All unsuppressed conversions are numbered, or none is. -/
def Uniform (ds : List Directive) : Prop :=
  (∀ d ∈ ds, d.isNext = false) ∨ ∀ d ∈ ds, d.isNumbered = false

structure WellFormed (ds : List Directive) : Prop where
  valid : ∀ d ∈ ds, d.Valid
  uniform : Uniform ds

/-- Positions are `unsigned int`. -/
def Destination.Fits : Destination → Prop
  | .numbered digits => digitsValue digits < 2 ^ 32
  | _ => True

def Directive.Fits : Directive → Prop
  | .conversion k => k.destination.Fits
  | _ => True

/-! ### The records of a format -/

def Spec.isChar : Spec → Bool
  | .letter .c | .letter .C => true
  | _ => false

def Conversion.isWide (k : Conversion) : Bool :=
  decide (k.length = .l ∨ k.spec = .letter .C ∨ k.spec = .letter .S)

/-- Values from 18446744073709551610 on count as `SIZE_MAX`. -/
def saturate (v : ℕ) : ℕ := if v ≤ (sizeMax - 9) / 10 * 10 + 9 then v else sizeMax

def Conversion.mode (charMode : AoRehomeMode) (k : Conversion) : AoRehomeMode :=
  if k.spec.isChar then if k.isWide then .wideCount else charMode
  else if k.isWide then .wideString else .charString

def Conversion.recordWidth (k : Conversion) : ℕ :=
  let w := saturate (digitsValue k.width)
  if k.spec.isChar ∧ w = 0 then 1 else w

/-- The conversion's own argument, with the directives before it. -/
def Conversion.argument (args : ℕ → ℕ) (before : List Directive) (k : Conversion) : ℕ :=
  match k.destination with
  | .suppressed => 0
  | .numbered digits => args (digitsValue digits - 1)
  | .next => args (before.countP Directive.unsuppressed)

def expectedRecord (charMode : AoRehomeMode) (args : ℕ → ℕ) (before : List Directive) :
    Directive → Option AoScanfRecord
  | .conversion k =>
    if k.alloc = true ∧ k.spec.isString = true ∧ k.destination ≠ .suppressed ∧
        k.argument args before ≠ 0 then
      some ⟨k.argument args before, 1 + before.countP Directive.counted, k.mode charMode,
        k.recordWidth⟩
    else none
  | _ => none

/-- The records of `ds` when `before` precedes it, in format order. -/
def expectedRecords (charMode : AoRehomeMode) (args : ℕ → ℕ) (before : List Directive) :
    List Directive → List AoScanfRecord
  | [] => []
  | d :: ds => (expectedRecord charMode args before d).toList ++
      expectedRecords charMode args (before ++ [d]) ds

/-- Ordinals are `unsigned int`. -/
def AoScanfRecord.wrap (r : AoScanfRecord) : AoScanfRecord := { r with ordinal := r.ordinal % 2 ^ 32 }

end LibcOverride.Scanf

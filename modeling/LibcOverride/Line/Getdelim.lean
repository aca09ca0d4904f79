import LibcOverride.Lib.Heap

/-!
# getdelim
(src/line_overrides.c:6-90)

A stream is the list of what its reads meet, and end of file behind the list.
`env` answers the allocation requests in their order. `none` is an access
outside a live block, or a loop that does not end in the given number of steps.
-/

namespace LibcOverride.Line

inductive Errno where
  | enomem
  | einval
  | other (code : ℕ)
  deriving Repr, DecidableEq

/-- What a read meets. -/
inductive Read where
  | byte (b : UInt8)
  | error
  | eof
  deriving Repr, DecidableEq

structure File where
  script : List Read
  error : Bool
  locks : ℕ
  deriving Repr, DecidableEq

/-- A request to the allocator. -/
structure Request where
  size : ℕ
  fallback : Bool
  granted : Bool
  deriving Repr, DecidableEq

/-- The caller's `*s` and `*n` with all they depend on, and a record of the
requests, of the reads and of the stores with the value of `*n` at each. -/
structure World where
  heap : Heap (List UInt8)
  s : Option ℕ
  n : ℕ
  file : File
  errno : Errno
  asked : List Request
  reads : List Read
  stores : List (ℕ × ℕ)
  deriving Repr, DecidableEq

abbrev Env := ℕ → Heap.Answer UInt8

/-- `(ssize_t)n`. -/
def ssizeT (n : ℕ) : ℤ := Int.bmod n (2 ^ 64)

/-! ### Growing the buffer -/

/-- `realloc(*buffer, size)`. -/
def request (env : Env) (w : World) (size : ℕ) (fallback : Bool) : Option (Option ℕ × World) :=
  (w.heap.resize w.s size size (env w.asked.length)).map fun r =>
    (r.1, { w with heap := r.2, asked := w.asked ++ [⟨size, fallback, r.1.isSome⟩] })

def minCapacity (length : ℕ) : ℕ := length + 2

def newCapacity (length : ℕ) : ℕ :=
  if minCapacity length < Word.sizeMax / 4 then minCapacity length + minCapacity length / 2
  else minCapacity length

/-- `true` is the return value 0. -/
def aoGrowLineBuffer (env : Env) (w : World) (length : ℕ) : Option (Bool × World) :=
  if length > Word.sizeMax - 2 then some (false, { w with errno := .enomem })
  else do
    match ← request env w (newCapacity length) false with
    | (some p, w) => some (true, { w with s := some p, n := newCapacity length })
    | (none, w) =>
      match ← request env w (minCapacity length) true with
      | (some p, w) => some (true, { w with s := some p, n := minCapacity length })
      | (none, w) => some (false, { w with errno := .enomem })

/-! ### Reading a line -/

def flockfile (w : World) : World := { w with file := { w.file with locks := w.file.locks + 1 } }

def funlockfile (w : World) : World := { w with file := { w.file with locks := w.file.locks - 1 } }

/-- `none` is `EOF`. -/
def getcUnlocked (w : World) : Option UInt8 × World :=
  match w.file.script with
  | [] => (none, { w with file := { w.file with script := [] }, reads := w.reads ++ [.eof] })
  | .byte b :: script =>
    (some b, { w with file := { w.file with script }, reads := w.reads ++ [.byte b] })
  | .eof :: script => (none, { w with file := { w.file with script }, reads := w.reads ++ [.eof] })
  | .error :: script =>
    (none, { w with file := { w.file with script, error := true }, reads := w.reads ++ [.error] })

/-- `(*s)[i] = c`. -/
def store (w : World) (i : ℕ) (c : UInt8) : Option World :=
  w.s.bind fun p => (w.heap.copyIn p i [c]).map fun heap =>
    { w with heap, stores := w.stores ++ [(i, w.n)] }

/-- Lines 55-60. -/
def makeRoom (env : Env) (w : World) (length : ℕ) : Option (Bool × World) :=
  if Word.add length 1 ≥ w.n then aoGrowLineBuffer env w length else some (true, w)

/-- Lines 77-79. -/
def finish (w : World) (length : ℕ) : Option (ℤ × World) :=
  (store w length 0).map fun w => (ssizeT length, funlockfile w)

def readLoop (env : Env) (delim : ℤ) : ℕ → World → ℕ → Option (ℤ × World)
  | 0, _, _ => none
  | fuel + 1, w, length => do
    match ← makeRoom env w length with
    | (false, w) => some (-1, funlockfile w)
    | (true, w) =>
      match getcUnlocked w with
      | (none, w) =>
        if length = 0 ∨ w.file.error = true then some (-1, funlockfile w) else finish w length
      | (some c, w) =>
        let w ← store w length c
        if (c.toNat : ℤ) = delim then finish w (Word.add length 1)
        else readLoop env delim fuel w (Word.add length 1)

/-- `given` is whether both pointers are. -/
def getdelim (env : Env) (given : Bool) (delim : ℤ) (w : World) : Option (ℤ × World) :=
  if given = false then some (-1, { w with errno := .einval })
  else
    let w := if w.s = none then { w with n := 0 } else w
    readLoop env delim (w.file.script.length + 1) (flockfile w) 0

def getline (env : Env) (given : Bool) (w : World) : Option (ℤ × World) :=
  getdelim env given 10 w

end LibcOverride.Line

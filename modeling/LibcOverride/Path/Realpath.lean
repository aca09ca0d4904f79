import LibcOverride.Lib.Buffer

/-!
# realpath
(src/path_overrides.c:20-52, 75-228; src/helpers.c:9-18)

The buffers are checked and their contents at the start are arbitrary. `none` is
an access outside a buffer, an unsigned subtraction that would wrap, or a loop
that does not end within the given number of iterations. The system calls and
the allocator may answer by all that was asked before.
-/

namespace LibcOverride.Path
open Buffer

abbrev pathMax : ℕ := 4096
abbrev symloopMax : ℕ := 40
abbrev slash : UInt8 := 47
abbrev dot : UInt8 := 46

inductive Errno where
  | einval
  | enoent
  | enotdir
  | enametoolong
  | eloop
  | enomem
  | other (code : ℕ)
  deriving Repr, DecidableEq

/-- `stored` is what a system call put into its buffer. -/
inductive Answer where
  | failed (e : Errno)
  | stored (bytes : List UInt8)
  deriving Repr, DecidableEq

inductive Query where
  | readlink (path : List UInt8) (size : ℕ) (answer : Answer)
  | getcwd (size : ℕ) (answer : Answer)
  | malloc (size : ℕ) (succeeds : Bool)
  deriving Repr, DecidableEq

structure Env where
  readlink : List Query → List UInt8 → ℕ → Answer
  getcwd : List Query → ℕ → Answer
  malloc : List Query → ℕ → Bool

/-- The local variables, and the queries so far. -/
structure State where
  stack : List UInt8
  output : List UInt8
  p : ℕ
  q : ℕ
  loopCount : ℕ
  pendingUp : ℕ
  checkDir : Bool
  trace : List Query
  deriving Repr, DecidableEq

/-- The end of an iteration: `continue`, `goto restart`, `break`, or
`return NULL` with `errno`. -/
inductive Next (α : Type) where
  | again (s : α)
  | restart (s : α)
  | done (s : α)
  | fail (e : Errno) (s : α)
  deriving Repr, DecidableEq

/-! ### String functions -/

def aoSlashLen : List UInt8 → Option ℕ
  | [] => none
  | c :: s => if c = slash then (aoSlashLen s).map (· + 1) else some 0

/-- The offset of the result. -/
def aoStrchrnul : List UInt8 → UInt8 → Option ℕ
  | [], _ => none
  | c :: s, target => if c ≠ 0 ∧ c ≠ target then (aoStrchrnul s target).map (· + 1) else some 0

def strnlen : List UInt8 → ℕ → Option ℕ
  | _, 0 => some 0
  | [], _ + 1 => none
  | c :: s, n + 1 => if c ≠ 0 then (strnlen s n).map (· + 1) else some 0

/-- The string that starts a buffer, without its terminator. -/
def cString : List UInt8 → Option (List UInt8)
  | [] => none
  | c :: s => if c ≠ 0 then (cString s).map (c :: ·) else some []

/-! ### One iteration -/

/-- `stack[p] == '/' && stack[p + 1] != '/'` -/
def loneSlash (stack : List UInt8) (p : ℕ) : Option Bool := do
  let c ← stack[p]?
  if c = slash then (stack[p + 1]?).map (decide <| · ≠ slash) else some false

def resetRoot (s : State) : Option State := do
  let output ← put s.output 0 slash
  let second ← loneSlash s.stack (s.p + 1)
  if second then
    (put output 1 slash).map fun output =>
      { s with output := output, p := s.p + 1, q := 2, pendingUp := 0, checkDir := false }
  else
    some { s with output := output, p := s.p + 1, q := 1, pendingUp := 0, checkDir := false }

/-- `while (q && output[q - 1] != '/') --q;` -/
def dropName (output : List UInt8) : ℕ → Option ℕ
  | 0 => some 0
  | q + 1 => do
    let c ← output[q]?
    if c ≠ slash then dropName output q else some (q + 1)

/-- `if (q > 1 && (q > 2 || output[0] != '/')) --q;` -/
def dropSlash (output : List UInt8) (q : ℕ) : Option ℕ :=
  if q > 1 then
    if q > 2 then some (q - 1)
    else (output[0]?).map fun c => if c ≠ slash then q - 1 else q
  else some q

def skipReadlink (s : State) (up : Bool) (componentSize componentLen : ℕ) :
    Option (Next State) :=
  if up then do
    let q ← dropName s.output s.q
    let q ← dropSlash s.output q
    some (.again { s with q := q, checkDir := false })
  else do
    let c ← s.stack[s.p]?
    some (.again { s with
      q := if componentSize ≠ 0 then s.q + componentLen else s.q
      checkDir := decide (c ≠ 0) })

/-- `if (stack[link_len - 1] == '/') while (stack[p] == '/') ++p;` -/
def spareSlashes (stack : List UInt8) (p : ℕ) (last : UInt8) : Option ℕ :=
  if last = slash then aoSlashLen (stack.drop p) else some 0

/-- Puts the link's target, which is at the start of `stack`, before what is
unread. -/
def pushLink (s : State) (linkLen : ℕ) : Option (Next State) := do
  let last ← s.stack[linkLen - 1]?
  let slashes ← spareSlashes s.stack s.p last
  let p ← minus (s.p + slashes) linkLen
  let target ← slice s.stack 0 linkLen
  let stack ← blit s.stack p target
  some (.restart { s with stack := stack, p := p })

def queryLink (env : Env) (s : State) (up : Bool) (componentSize componentLen : ℕ) :
    Option (Next State) := do
  let path ← cString s.output
  let answer := env.readlink s.trace path s.p
  let s := { s with trace := s.trace ++ [.readlink path s.p answer] }
  match answer with
  | .failed e =>
    if e ≠ .einval then some (.fail e s) else skipReadlink s up componentSize componentLen
  | .stored target => do
    let stack ← blit s.stack 0 target
    let s := { s with stack := stack }
    if target.length = s.p then some (.fail .enametoolong s)
    else if target.length = 0 then some (.fail .enoent s)
    else
      let s := { s with loopCount := s.loopCount + 1 }
      if s.loopCount = symloopMax then some (.fail .eloop s) else pushLink s target.length

/-- `component_size == 2 && stack[p - 2] == '.' && stack[p - 1] == '.'` -/
def isUp (stack : List UInt8) (p componentSize : ℕ) : Option Bool :=
  if componentSize = 2 then do
    let i ← minus p 2
    let c ← stack[i]?
    let d ← stack[i + 1]?
    some (decide (c = dot ∧ d = dot))
  else some false

/-- From the copy of the component on. -/
def copyComponent (env : Env) (s : State) (componentSize componentLen : ℕ) :
    Option (Next State) :=
  if s.q + componentLen ≥ pathMax then some (.fail .enametoolong s)
  else do
    let component ← slice s.stack s.p componentLen
    let output ← blit s.output s.q component
    let output ← put output (s.q + componentLen) 0
    let s := { s with output := output, p := s.p + componentLen }
    let up ← isUp s.stack s.p componentSize
    if up ∧ s.q ≤ 3 * s.pendingUp then
      some (.again { s with pendingUp := s.pendingUp + 1, q := s.q + componentLen })
    else if up ∧ s.checkDir = false then skipReadlink s up componentSize componentLen
    else queryLink env s up componentSize componentLen

/-- `q && output[q - 1] != '/'` -/
def needsSlash (s : State) : Option Bool :=
  if s.q = 0 then some false else (s.output[s.q - 1]?).map (decide <| · ≠ slash)

def component (env : Env) (s : State) (componentSize : ℕ) : Option (Next State) := do
  let sep ← needsSlash s
  if sep then
    if s.p = 0 then some (.fail .enametoolong s)
    else do
      let stack ← put s.stack (s.p - 1) slash
      copyComponent env { s with stack := stack, p := s.p - 1 } componentSize (componentSize + 1)
  else copyComponent env s componentSize componentSize

def iteration (env : Env) (s : State) : Option (Next State) := do
  let c ← s.stack[s.p]?
  if c = slash then (resetRoot s).map .again
  else do
    let componentSize ← aoStrchrnul (s.stack.drop s.p) slash
    if componentSize = 0 ∧ s.checkDir = false then some (.done s)
    else if componentSize = 1 ∧ c = dot then some (.again { s with p := s.p + componentSize })
    else component env s componentSize

def mainLoop (env : Env) : ℕ → State → Option (Next State)
  | 0, _ => none
  | n + 1, s => do
    match ← iteration env s with
    | .again s => do
      let slashes ← aoSlashLen (s.stack.drop s.p)
      mainLoop env n { s with p := s.p + slashes }
    | .restart s => mainLoop env n s
    | .done s => some (.done s)
    | .fail e s => some (.fail e s)

/-! ### The working directory -/

/-- `return NULL` with `errno` after the queries, or go on. -/
abbrev Attempt (α : Type) := Except (Errno × List Query) α

/-- `getcwd(stack, sizeof(stack))` -/
def getcwd (env : Env) (s : State) : Option (Attempt State) :=
  let answer := env.getcwd s.trace (pathMax + 1)
  let trace := s.trace ++ [.getcwd (pathMax + 1) answer]
  match answer with
  | .failed e => some (.error (e, trace))
  | .stored bytes => do
    let stack ← blit s.stack 0 bytes
    if bytes.length = 0 then some (.error (.enoent, trace))
    else do
      let c ← stack[0]?
      if c ≠ slash then some (.error (.enoent, trace))
      else some (.ok { s with stack := stack, trace := trace })

/-- `while (cwd_len > 1 && stack[cwd_len - 1] != '/') --cwd_len;`, and one less
if that leaves more than 1. -/
def dropCwdName (stack : List UInt8) : ℕ → Option ℕ
  | 0 => some 0
  | 1 => some 1
  | n + 2 => do
    let c ← stack[n + 1]?
    if c ≠ slash then dropCwdName stack (n + 1) else some (n + 1)

/-- `while (pending_up--)`; the results are `cwd_len` and `skip`. -/
def dropUps (stack : List UInt8) (q : ℕ) : ℕ → ℕ → ℕ → Option (ℕ × ℕ)
  | 0, cwdLen, skip => some (cwdLen, skip)
  | n + 1, cwdLen, skip => do
    let cwdLen ← dropCwdName stack cwdLen
    dropUps stack q n cwdLen (if skip + 2 < q then skip + 3 else skip + 2)

/-- `if (q - skip && stack[cwd_len - 1] != '/') stack[cwd_len++] = '/';` -/
def endCwd (stack : List UInt8) (cwdLen rest : ℕ) : Option (List UInt8 × ℕ) :=
  if rest = 0 then some (stack, cwdLen)
  else do
    let i ← minus cwdLen 1
    let c ← stack[i]?
    if c ≠ slash then (put stack cwdLen slash).map (·, cwdLen + 1) else some (stack, cwdLen)

/-- The working directory before `output`. -/
def splice (s : State) : Option (Attempt State) := do
  let cwd ← cString s.stack
  let (cwdLen, skip) ← dropUps s.stack s.q s.pendingUp cwd.length 0
  let rest ← minus s.q skip
  let (stack, cwdLen) ← endCwd s.stack cwdLen rest
  if cwdLen + rest + 1 ≥ pathMax then some (.error (.enametoolong, s.trace))
  else do
    let moved ← slice s.output skip (rest + 1)
    let output ← blit s.output cwdLen moved
    let front ← slice stack 0 cwdLen
    let output ← blit output 0 front
    some (.ok { s with stack := stack, output := output, q := cwdLen + rest })

/-! ### The function -/

/-- The bytes behind the returned pointer, or NULL with `errno`. -/
inductive Result where
  | path (bytes : List UInt8)
  | null (e : Errno)
  deriving Repr, DecidableEq

/-- `memcpy(resolved, output, q + 1)`, or `strdup(output)` without `resolved`. -/
def giveBack (env : Env) (s : State) (resolved : Bool) : Option (Result × List Query) :=
  if resolved then
    (slice s.output 0 (s.q + 1)).map fun bytes => (.path bytes, s.trace)
  else do
    let text ← cString s.output
    let succeeds := env.malloc s.trace (text.length + 1)
    let trace := s.trace ++ [.malloc (text.length + 1) succeeds]
    some (if succeeds then .path (text ++ [0]) else .null .enomem, trace)

/-- From the end of the loop on. -/
def finish (env : Env) (s : State) (resolved : Bool) : Option (Result × List Query) := do
  let output ← put s.output s.q 0
  let s := { s with output := output }
  let c ← s.output[0]?
  if c ≠ slash then do
    match ← getcwd env s with
    | .error (e, trace) => some (.null e, trace)
    | .ok s => do
      match ← splice s with
      | .error (e, trace) => some (.null e, trace)
      | .ok s => giveBack env s resolved
  else giveBack env s resolved

/-- The variables at the start of the loop, for a `filename` of length `len`. -/
def entry (stack output filename : List UInt8) (len : ℕ) : Option State := do
  let text ← slice filename 0 (len + 1)
  let stack ← blit stack (pathMax - len) text
  some ⟨stack, output, pathMax - len, 0, 0, 0, false, []⟩

/-- More than the iterations of any call. -/
def maxIterations : ℕ := symloopMax * (2 * pathMax + 1) + 2 * pathMax

/-- `filename` is NULL or the bytes from the pointer on, `stack` and `output` are
what the buffers hold before the call. -/
def realpath (env : Env) (stack output : List UInt8) (filename : Option (List UInt8))
    (resolved : Bool) : Option (Result × List Query) :=
  match filename with
  | none => some (.null .einval, [])
  | some filename => do
    let len ← strnlen filename (pathMax + 1)
    if len = 0 then some (.null .enoent, [])
    else if len ≥ pathMax then some (.null .enametoolong, [])
    else do
      let s ← entry stack output filename len
      match ← mainLoop env maxIterations s with
      | .done s => finish env s resolved
      | .fail e s => some (.null e, s.trace)
      | .again _ | .restart _ => none

end LibcOverride.Path

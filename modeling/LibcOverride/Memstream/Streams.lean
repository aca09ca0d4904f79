import LibcOverride.Lib.Heap
import Mathlib.Data.UInt

/-!
# open_memstream and open_wmemstream
(src/memstream_overrides.c:9-306)

`α` is the element of the buffer and `σ` the conversion state, which the narrow
stream does not have. `none` is an access outside a live block, a free of a
block that is not live, or an overflow of `off_t`.
-/

namespace LibcOverride.Memstream

abbrev ssizeMax : ℕ := 2 ^ 63 - 1
abbrev sizeofWchar : ℕ := 4
abbrev maxChars : ℕ := ssizeMax / sizeofWchar

inductive Errno where
  | enomem
  | einval
  | eilseq
  | other (code : ℕ)
  deriving Repr, DecidableEq

/-- The heap, and the caller's `*bufp` and `*sizep`. -/
structure World (α : Type) where
  heap : Heap (List α)
  bufp : Option ℕ
  sizep : ℕ
  errno : Errno

/-- `ao_memstream_cookie` and `ao_wmemstream_cookie`. -/
structure Cookie (σ : Type) where
  pos : ℕ
  buf : ℕ
  len : ℕ
  space : ℕ
  state : σ

/-- The world with a cookie in it; `self` is the cookie's own block. -/
structure Stream (α σ : Type) extends World α where
  self : ℕ
  cookie : Cookie σ

variable {α σ : Type}

/-! ### Conversion of multibyte text -/

/-- One byte more of a multibyte character. -/
inductive Feed (σ : Type) where
  | more (s : σ)
  | char (c : UInt32) (s : σ)
  | invalid

/-- The encoding of a locale. Two fields are left open by POSIX: whether
`mbsnrtowcs` takes in an incomplete character at the end of its input, and the
state after an invalid sequence. -/
structure Locale where
  State : Type
  initial : State
  feed : State → UInt8 → Feed State
  absorbs : Bool
  spoilt : State → List UInt8 → State

/-- What ended a conversion. -/
inductive Ending (σ : Type) where
  | limit (s : σ)
  | null
  | invalid

/-- The characters before the end, at most `room` of them. `first` is the state
before the character that is being read. -/
def Locale.decode (L : Locale) :
    L.State → L.State → ℕ → List UInt8 → List UInt32 × Ending L.State
  | first, s, _, [] => ([], .limit (if L.absorbs then s else first))
  | _, s, 0, _ :: _ => ([], .limit s)
  | first, s, room + 1, b :: bytes =>
    match L.feed s b with
    | .more s => L.decode first s (room + 1) bytes
    | .char c s =>
      if c = 0 then ([], .null)
      else
        let r := L.decode s s room bytes
        (c :: r.1, r.2)
    | .invalid => ([], .invalid)

structure Converted (σ : Type) where
  stored : List UInt32
  result : Option ℕ
  state : σ

/-- `none` is `(size_t)-1`. -/
def Locale.mbsnrtowcs (L : Locale) (s : L.State) (src : List UInt8) (room : ℕ) :
    Converted L.State :=
  match L.decode s s room src with
  | (cs, .limit s) => ⟨cs, some cs.length, s⟩
  | (cs, .null) => ⟨cs ++ [0], some cs.length, L.initial⟩
  | (cs, .invalid) => ⟨cs, none, L.spoilt s src⟩

/-! ### Growing -/

/-- Lines 45-54 and 136-145. -/
def newSpace (space required : ℕ) : ℕ :=
  let doubled := if space > (Word.sizeMax - 1) / 2 then Word.sizeMax else 2 * space + 1
  let grown := doubled ||| required
  if grown < required then required else grown

def Stream.fail (s : Stream α σ) (e : Errno) : Stream α σ := { s with errno := e }

/-- The buffer is now block `p`, of `n` elements. -/
def Stream.moved (s : Stream α σ) (heap : Heap (List α)) (p n : ℕ) : Stream α σ :=
  { s with heap, bufp := some p, cookie := { s.cookie with buf := p, space := n } }

/-- Lines 56-65 and 151-160. -/
def enlarge [Zero α] (s : Stream α σ) (width n : ℕ) (a : Heap.Answer α) :
    Option (Bool × Stream α σ) := do
  match ← s.heap.realloc s.cookie.buf (Word.mul n width) n a with
  | (none, _) => some (false, s.fail .enomem)
  | (some p, heap) =>
    let heap ← heap.copyIn p s.cookie.space (List.replicate (n - s.cookie.space) 0)
    some (true, s.moved heap p n)

/-- `true` is the return value 0. -/
def aoMemstreamGrow (s : Stream UInt8 Unit) (len : ℕ) (a : Heap.Answer UInt8) :
    Option (Bool × Stream UInt8 Unit) :=
  if s.cookie.pos > Word.sub (Word.sub Word.sizeMax len) 1 then some (false, s.fail .enomem)
  else
    let required := Word.add (Word.add s.cookie.pos len) 1
    if required ≤ s.cookie.space then some (true, s)
    else enlarge s 1 (newSpace s.cookie.space required) a

def aoWmemstreamGrow (s : Stream UInt32 σ) (len : ℕ) (a : Heap.Answer UInt32) :
    Option (Bool × Stream UInt32 σ) :=
  if s.cookie.pos > Word.sub (Word.sub maxChars len) 1 then some (false, s.fail .enomem)
  else
    let required := Word.add (Word.add s.cookie.pos len) 1
    if required ≤ s.cookie.space then some (true, s)
    else
      let n := newSpace s.cookie.space required
      if n > maxChars then some (false, s.fail .enomem)
      else enlarge s sizeofWchar n a

/-! ### Writing -/

/-- `memcpy` is skipped for no elements. -/
def Stream.copyIn (s : Stream α σ) (v : List α) : Option (Stream α σ) :=
  if v.length = 0 then some s
  else (s.heap.copyIn s.cookie.buf s.cookie.pos v).map fun heap => { s with heap }

/-- Lines 80-84 and 178-182. -/
def Stream.advance (s : Stream α σ) (n : ℕ) : Stream α σ :=
  let pos := s.cookie.pos + n
  { s with
    sizep := pos
    cookie := { s.cookie with pos, len := if pos ≥ s.cookie.len then pos else s.cookie.len } }

def Stream.withState (s : Stream α σ) (state : σ) : Stream α σ :=
  { s with cookie := { s.cookie with state } }

def aoMemstreamWrite (s : Stream UInt8 Unit) (buf : List UInt8) (a : Heap.Answer UInt8) :
    Option (ℕ × Stream UInt8 Unit) := do
  match ← aoMemstreamGrow s buf.length a with
  | (false, s) => some (0, s)
  | (true, s) =>
    let s ← s.copyIn buf
    some (buf.length, s.advance buf.length)

def aoWmemstreamWrite (L : Locale) (s : Stream UInt32 L.State) (buf : List UInt8)
    (a : Heap.Answer UInt32) : Option (ℕ × Stream UInt32 L.State) := do
  match ← aoWmemstreamGrow s buf.length a with
  | (false, s) => some (0, s)
  | (true, s) =>
    let r := L.mbsnrtowcs s.cookie.state buf (s.cookie.space - s.cookie.pos)
    let s ← s.copyIn r.stored
    match r.result with
    | none => some (0, (s.withState r.state).fail .eilseq)
    | some converted => some (buf.length, (s.withState r.state).advance converted)

/-! ### Seeking and closing -/

/-- `(off_t)n`. -/
def offT (n : ℕ) : ℤ := Int.bmod n (2 ^ 64)

def checkedOff (v : ℤ) : Option ℤ := if -2 ^ 63 ≤ v ∧ v < 2 ^ 63 then some v else none

def sizeT (v : ℤ) : ℕ := (v % 2 ^ 64).toNat

/-- The offset that was stored, or `-1`. -/
def seekTo (limit : ℕ) (s : Stream α σ) (offset whence : ℤ) :
    Option (Option ℤ × Stream α σ) :=
  if whence < 0 ∨ whence > 2 then some (none, s.fail .einval)
  else do
    let base := offT (if whence = 0 then 0 else if whence = 1 then s.cookie.pos else s.cookie.len)
    let lowest ← checkedOff (-base)
    let highest ← checkedOff (offT limit - base)
    if offset < lowest ∨ offset > highest then some (none, s.fail .einval)
    else
      let target ← checkedOff (base + offset)
      some (some target, { s with cookie := { s.cookie with pos := sizeT target } })

def aoMemstreamSeek (s : Stream UInt8 Unit) (offset whence : ℤ) :
    Option (Option ℤ × Stream UInt8 Unit) :=
  seekTo ssizeMax s offset whence

def aoWmemstreamSeek (L : Locale) (s : Stream UInt32 L.State) (offset whence : ℤ) :
    Option (Option ℤ × Stream UInt32 L.State) :=
  (seekTo maxChars s offset whence).map fun r =>
    match r.1 with
    | none => r
    | some _ => (r.1, r.2.withState L.initial)

def closeStream (s : Stream α σ) : Option (World α) :=
  (s.heap.free s.self).map fun heap => { s.toWorld with heap }

def aoMemstreamClose (s : Stream UInt8 Unit) : Option (World UInt8) := closeStream s

def aoWmemstreamClose (s : Stream UInt32 σ) : Option (World UInt32) := closeStream s

/-! ### Opening -/

/-- `cookie_io_functions_t`. -/
structure IoFuncs (α σ : Type) where
  write : Stream α σ → List UInt8 → Heap.Answer α → Option (ℕ × Stream α σ)
  seek : Stream α σ → ℤ → ℤ → Option (Option ℤ × Stream α σ)
  close : Stream α σ → Option (World α)

def memstreamFuncs : IoFuncs UInt8 Unit where
  write := aoMemstreamWrite
  seek := aoMemstreamSeek
  close := aoMemstreamClose

def wmemstreamFuncs (L : Locale) : IoFuncs UInt32 L.State where
  write := aoWmemstreamWrite L
  seek := aoWmemstreamSeek L
  close := aoWmemstreamClose

/-- The answers to the three requests of an open; `fopencookie` fails with an
error number. -/
structure OpenAnswers (α : Type) where
  cookie : Heap.Answer α
  buf : Heap.Answer α
  fopencookie : Option Errno

inductive Opened (α σ : Type) where
  | null (w : World α)
  | stream (s : Stream α σ)

/-- The cookie's block holds no elements: its fields are in `Stream.cookie`. -/
def openStream [Zero α] (w : World α) (sizeofCookie width : ℕ) (state : σ) (a : OpenAnswers α) :
    Option (Opened α σ) :=
  match w.heap.malloc sizeofCookie 0 a.cookie with
  | (none, _) => some (.null { w with errno := .enomem })
  | (some self, heap) =>
    match heap.malloc width 1 a.buf with
    | (none, _) => do
      let heap ← heap.free self
      some (.null { w with heap, errno := .enomem })
    | (some buf, heap) => do
      let heap ← heap.copyIn buf 0 [0]
      let s : Stream α σ :=
        { heap, bufp := some buf, sizep := 0, errno := w.errno, self
          cookie := ⟨0, buf, 0, 0, state⟩ }
      match a.fopencookie with
      | none => some (.stream s)
      | some e =>
        let heap ← s.heap.free buf
        let heap ← heap.free self
        some (.null { s.toWorld with heap, errno := e })

def openMemstream (w : World UInt8) (a : OpenAnswers UInt8) : Option (Opened UInt8 Unit) :=
  openStream w 48 1 () a

def openWmemstream (L : Locale) (w : World UInt32) (a : OpenAnswers UInt32) :
    Option (Opened UInt32 L.State) :=
  openStream w 56 sizeofWchar L.initial a

/-! ### Runs -/

inductive Op (α : Type) where
  | write (buf : List UInt8) (a : Heap.Answer α)
  | seek (offset whence : ℤ)

/-- The return value of a write; the offset a seek stored. -/
inductive Reply where
  | wrote (n : ℕ)
  | sought (target : Option ℤ)
  deriving Repr, DecidableEq

def IoFuncs.step (f : IoFuncs α σ) (s : Stream α σ) : Op α → Option (Reply × Stream α σ)
  | .write buf a => (f.write s buf a).map fun r => (.wrote r.1, r.2)
  | .seek offset whence => (f.seek s offset whence).map fun r => (.sought r.1, r.2)

def IoFuncs.run (f : IoFuncs α σ) : Stream α σ → List (Op α) → Option (Stream α σ)
  | s, [] => some s
  | s, op :: ops => (f.step s op).bind fun r => f.run r.2 ops

/-- A run whose calls all meet `K`, a condition on a call and the state before it. -/
inductive IoFuncs.Runs (f : IoFuncs α σ) (K : Stream α σ → Op α → Prop) :
    Stream α σ → List (Op α) → Stream α σ → Prop where
  | opened (s : Stream α σ) : Runs f K s [] s
  | call {s₀ s s' : Stream α σ} {ops : List (Op α)} {op : Op α} {r : Reply}
    (h : Runs f K s₀ ops s) (hk : K s op) (hstep : f.step s op = some (r, s')) :
    Runs f K s₀ (ops ++ [op]) s'

/-- No chunk is longer than `SSIZE_MAX`. -/
def Op.Fits : Op α → Prop
  | .write buf _ => buf.length ≤ ssizeMax
  | .seek _ _ => True

end LibcOverride.Memstream

import LibcOverride.Scanf.NarrowParser
import Mathlib.Logic.Function.Basic

/-!
# Symbols, rehoming and the common wrappers
(src/scanf_overrides.c:22-125, 531-752)

The dynamic loader, the real scanners and the allocator behind `malloc` are the
parameters of `Process`. `trace` is what a wrapper has done to the outside, in
order; no step reads it. `none` is an access outside a block.
-/

namespace LibcOverride.Scanf
open Word

inductive Errno where
  | other
  | enosys
  | enomem
  deriving Repr, DecidableEq

/-- What the process shares with the library. `slots` are the caller's pointer
variables, `owned` is the answer of `ao_alloc_bridge_owns`. -/
structure Memory where
  slots : ℕ → ℕ
  blocks : ℕ → Option (List UInt8)
  owned : ℕ → Bool
  errno : Errno
  calls : ℕ

inductive Format where
  | narrow (text : List Int8)
  | wide (text : List ℤ)
  deriving Repr, DecidableEq

/-- A call of the real function `fn`; `input` is the stream or the string. -/
structure RealCall where
  fn : ℕ
  input : ℕ
  format : Format
  args : ℕ → ℕ

structure Process where
  stdin : ℕ
  symbol : String → ℕ
  defaultSymbol : String → ℕ
  real : RealCall → Memory → ℤ × Memory
  grow : Memory → ℕ → Bool
  answer : Memory → ℕ → ℕ
  fresh : ∀ m size, answer m size ≠ 0 → m.blocks (answer m size) = none

inductive Event where
  | invoke (fn input : ℕ) (format : Format)
  | readSlot (slot : ℕ)
  | writeSlot (slot value : ℕ)
  | malloc (size answer : ℕ)
  | libcFree (ptr : ℕ)
  deriving Repr, DecidableEq

/-- The static variables of the library. -/
structure Globals where
  once : Bool
  realVfscanf : ℕ
  realIsoc99Vfscanf : ℕ
  realVsscanf : ℕ
  realIsoc99Vsscanf : ℕ
  realVfwscanf : ℕ
  realIsoc99Vfwscanf : ℕ
  realVswscanf : ℕ
  realIsoc99Vswscanf : ℕ
  bridgeOwns : ℕ
  bridgeLibcFree : ℕ
  bridgeLibcRealloc : ℕ
  bridgeReady : Bool
  deriving Repr, DecidableEq

def startGlobals : Globals := ⟨false, 0, 0, 0, 0, 0, 0, 0, 0, 0, 0, 0, false⟩

structure World where
  lib : Globals
  memory : Memory
  trace : List Event

def World.log (w : World) (e : Event) : World := { w with trace := w.trace ++ [e] }

/-! ### Symbols -/

/-- A symbol under its own name, else the plain one. -/
def orPlain (own plain : ℕ) : ℕ := if own = 0 then plain else own

def aoResolveScanfSymbols (P : Process) (g : Globals) : Globals :=
  let owns := P.defaultSymbol "ao_alloc_bridge_owns"
  let libcFree := P.defaultSymbol "ao_alloc_bridge_libc_free"
  let libcRealloc := P.defaultSymbol "ao_alloc_bridge_libc_realloc"
  { once := g.once
    realVfscanf := P.symbol "vfscanf"
    realIsoc99Vfscanf := orPlain (P.symbol "__isoc99_vfscanf") (P.symbol "vfscanf")
    realVsscanf := P.symbol "vsscanf"
    realIsoc99Vsscanf := orPlain (P.symbol "__isoc99_vsscanf") (P.symbol "vsscanf")
    realVfwscanf := P.symbol "vfwscanf"
    realIsoc99Vfwscanf := orPlain (P.symbol "__isoc99_vfwscanf") (P.symbol "vfwscanf")
    realVswscanf := P.symbol "vswscanf"
    realIsoc99Vswscanf := orPlain (P.symbol "__isoc99_vswscanf") (P.symbol "vswscanf")
    bridgeOwns := owns
    bridgeLibcFree := libcFree
    bridgeLibcRealloc := libcRealloc
    bridgeReady := decide (owns ≠ 0 ∧ libcFree ≠ 0 ∧ libcRealloc ≠ 0) }

/-- `pthread_once` in one thread. -/
def aoEnsureScanfSymbols (P : Process) (w : World) : World :=
  if w.lib.once then w
  else { w with lib := aoResolveScanfSymbols P { w.lib with once := true } }

/-! ### Memory operations -/

def aoLoadPointerSlot (w : World) (slot : ℕ) : ℕ × World :=
  (w.memory.slots slot, w.log (.readSlot slot))

def aoStorePointerSlot (w : World) (slot value : ℕ) : World :=
  { w with
    memory := { w.memory with slots := Function.update w.memory.slots slot value }
    trace := w.trace ++ [.writeSlot slot value] }

/-- The preloaded `malloc`: what it returns is owned by the bridge's allocator. -/
def malloc (P : Process) (w : World) (size : ℕ) : ℕ × World :=
  let a := P.answer w.memory size
  (a, { w with
    memory :=
      if a = 0 then { w.memory with errno := .enomem, calls := w.memory.calls + 1 }
      else { w.memory with
        blocks := Function.update w.memory.blocks a (some (List.replicate size 0))
        owned := Function.update w.memory.owned a true
        calls := w.memory.calls + 1 }
    trace := w.trace ++ [.malloc size a] })

def bridgeLibcFree (w : World) (ptr : ℕ) : World :=
  { w with
    memory := { w.memory with blocks := Function.update w.memory.blocks ptr none }
    trace := w.trace ++ [.libcFree ptr] }

/-- `memcpy(copy, source, len)` into a block of exactly `len` bytes. -/
def memcpy (w : World) (copy source len : ℕ) : Option World := do
  let bytes ← w.memory.blocks source
  if bytes.length < len then none
  else some { w with memory := { w.memory with
    blocks := Function.update w.memory.blocks copy (some (bytes.take len)) } }

def strlen : List UInt8 → Option ℕ
  | [] => none
  | b :: bytes => if b = 0 then some 0 else (strlen bytes).map (· + 1)

abbrev sizeofWchar : ℕ := 4

def wcslen : List UInt8 → Option ℕ
  | a :: b :: c :: d :: bytes =>
    if a = 0 ∧ b = 0 ∧ c = 0 ∧ d = 0 then some 0 else (wcslen bytes).map (· + 1)
  | _ => none

/-! ### Rehoming -/

def aoCloneCharString (P : Process) (w : World) (source : ℕ) : Option (ℕ × World) := do
  let bytes ← w.memory.blocks source
  let n ← strlen bytes
  let len := add n 1
  let (copy, w) := malloc P w len
  if copy = 0 then some (0, w) else (memcpy w copy source len).map (copy, ·)

def aoCloneWideString (P : Process) (w : World) (source : ℕ) : Option (ℕ × World) := do
  let bytes ← w.memory.blocks source
  let n ← wcslen bytes
  let len := mul (add n 1) sizeofWchar
  let (copy, w) := malloc P w len
  if copy = 0 then some (0, w) else (memcpy w copy source len).map (copy, ·)

def aoCloneBytes (P : Process) (w : World) (source len : ℕ) : Option (ℕ × World) :=
  let (copy, w) := malloc P w len
  if copy = 0 then some (0, w)
  else if len ≠ 0 then (memcpy w copy source len).map (copy, ·)
  else some (copy, w)

/-- The `switch` over the mode; an unsupported mode leaves `replacement` NULL. -/
def cloneFor (P : Process) (w : World) (record : AoScanfRecord) (original : ℕ) :
    Option (ℕ × World) :=
  match record.mode with
  | .charString => aoCloneCharString P w original
  | .wideString => aoCloneWideString P w original
  | .charCount => aoCloneBytes P w original record.width
  | .wideCount => aoCloneBytes P w original (mul record.width sizeofWchar)
  | .unsupportedWideCharCount => some (0, w)

def aoRehomeScanfRecord (P : Process) (w : World) (record : AoScanfRecord) : Option World :=
  let (original, w) := aoLoadPointerSlot w record.slot
  if original = 0 ∨ w.lib.bridgeReady = false ∨ w.memory.owned original then some w
  else do
    let (replacement, w) ← cloneFor P w record original
    if replacement = 0 then some w
    else some (bridgeLibcFree (aoStorePointerSlot w record.slot replacement) original)

/-- The conversion of an `unsigned int` to `int`. -/
def toInt (n : ℕ) : ℤ := Int.bmod n (2 ^ 32)

def aoRehomeScanfPlan (P : Process) (w : World) (records : List AoScanfRecord) (matched : ℤ) :
    Option World :=
  match records with
  | [] => some w
  | r :: records =>
    if toInt r.ordinal > matched then some w
    else (aoRehomeScanfRecord P w r).bind fun w => aoRehomeScanfPlan P w records matched

/-! ### The common wrappers -/

def eof : ℤ := -1

/-- The four `ao_wrap_*_common` functions, which differ in the types of input
and format. `parse` is the parser of the format's kind. -/
def wrapCommon (P : Process) (w : World) (fn input : ℕ) (format : Format) (args : ℕ → ℕ)
    (parse : Env → Option (ℤ × Scan)) : Option (ℤ × World) := do
  let w := aoEnsureScanfSymbols P w
  if fn = 0 then some (eof, { w with memory := { w.memory with errno := .enosys } })
  else
    let (code, s) ← parse ⟨args, P.grow w.memory⟩
    let (ret, memory) := P.real ⟨fn, input, format, args⟩ w.memory
    let w := { w with memory := memory, trace := w.trace ++ [.invoke fn input format] }
    let w ← if code = 0 ∧ w.lib.bridgeReady ∧ ret > 0 then aoRehomeScanfPlan P w s.plan.records ret
      else some w
    some (ret, w)

def aoWrapVfscanfCommon (P : Process) (w : World) (realFn stream : ℕ) (format : List Int8)
    (args : ℕ → ℕ) : Option (ℤ × World) :=
  wrapCommon P w realFn stream (.narrow format) args fun env => aoParseScanfFormat env format

def aoWrapVsscanfCommon (P : Process) (w : World) (realFn input : ℕ) (format : List Int8)
    (args : ℕ → ℕ) : Option (ℤ × World) :=
  wrapCommon P w realFn input (.narrow format) args fun env => aoParseScanfFormat env format

def aoWrapVfwscanfCommon (P : Process) (w : World) (realFn stream : ℕ) (format : List ℤ)
    (args : ℕ → ℕ) : Option (ℤ × World) :=
  wrapCommon P w realFn stream (.wide format) args fun env => aoParseWscanfFormat env format

def aoWrapVswscanfCommon (P : Process) (w : World) (realFn input : ℕ) (format : List ℤ)
    (args : ℕ → ℕ) : Option (ℤ × World) :=
  wrapCommon P w realFn input (.wide format) args fun env => aoParseWscanfFormat env format

end LibcOverride.Scanf

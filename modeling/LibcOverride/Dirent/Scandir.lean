import LibcOverride.Lib.Clients

/-!
# scandir and scandir64
(src/dirent_overrides.c:11-134)

The vectors of pointers and the copied records live in a heap of their own each.
`env` answers the calls of the allocator in their order. `none` is an access
outside a live block.
-/

namespace LibcOverride.Dirent

/-- An `errno` that tells a failure. -/
abbrev Failure := { code : ℕ // code ≠ 0 }

/-- A directory entry: the `d_reclen` bytes of its record. -/
structure Entry where
  bytes : List UInt8
  short : bytes.length < 2 ^ 16
  deriving Repr, DecidableEq

/-- An entry, and the `errno` its `readdir` leaves. -/
structure Read where
  entry : Entry
  errno : ℕ
  deriving Repr, DecidableEq

/-- The entries of an open directory; behind them its end, or a read error. -/
structure Listing where
  reads : List Read
  failure : Option Failure
  deriving Repr, DecidableEq

/-- What `readdir` and `readdir64` have to return. -/
structure Dir where
  readdir : Listing
  readdir64 : Listing
  deriving Repr, DecidableEq

/-- What `opendir` returns, and the `errno` it leaves. -/
structure Opendir where
  dir : Option Dir
  errno : ℕ
  deriving Repr, DecidableEq

/-- The answer to a request, with the `errno` of either case. -/
structure Answer where
  granted : Bool
  pointers : ℕ → Option ℕ
  bytes : ℕ → UInt8
  errno : ℕ
  failure : Failure

abbrev Env := ℕ → Answer

/-- What the selector says of the entry that was read as the `i`th, and the
`errno` it leaves. -/
abbrev Selector := ℕ → Entry → Bool × ℕ

abbrev Comparator := List UInt8 → List UInt8 → ℤ

structure Qsort where
  sort : (ℕ → ℕ → ℤ) → List ℕ → List ℕ
  perm : ∀ cmp ptrs, (sort cmp ptrs).Perm ptrs

/-- `asked` records the calls of the allocator, on vectors on the left and on records
on the right; `streams` counts the open directories. -/
structure World where
  vectors : Heap (List (Option ℕ))
  records : Heap (List UInt8)
  res : Option ℕ
  errno : ℕ
  asked : List (Clients.Op (ℕ ⊕ ℕ))
  streams : ℕ
  deriving Repr, DecidableEq

structure Vars where
  names : Option ℕ
  count : ℕ
  capacity : ℕ
  deriving Repr, DecidableEq

/-- `(int)n`. -/
def intT (n : ℕ) : ℤ := Int.bmod n (2 ^ 32)

def intMax : ℕ := 2 ^ 31 - 1

/-! ### The loop -/

/-- `!sel || sel(entry)`. -/
def selects (sel : Option Selector) (i : ℕ) (r : Read) : Bool × ℕ :=
  match sel with
  | none => (true, r.errno)
  | some f => f i r.entry

/-- What a request leaves besides the heap. -/
def World.answered (w : World) (a : Answer) (op : Clients.Op (ℕ ⊕ ℕ)) : World :=
  { w with
    asked := w.asked ++ [op]
    errno := if op.granted then a.errno else a.failure.1 }

def World.reallocOp (w : World) (v : Vars) (granted : Bool) : Clients.Op (ℕ ⊕ ℕ) :=
  .realloc (v.names.map .inl) (.inl w.vectors.next) (Word.mul v.capacity 8) granted

def World.mallocOp (w : World) (e : Entry) (granted : Bool) : Clients.Op (ℕ ⊕ ℕ) :=
  .malloc (.inr w.records.next) e.bytes.length granted

/-- `realloc(names, capacity * sizeof(*names))`. -/
def reallocNames (env : Env) (w : World) (v : Vars) : Option (Option ℕ × World) :=
  let a := env w.asked.length
  (w.vectors.resize v.names (Word.mul v.capacity 8) v.capacity ⟨a.granted, a.pointers⟩).map
    fun r => (r.1, { w.answered a (w.reallocOp v r.1.isSome) with vectors := r.2 })

/-- `malloc(entry->d_reclen)`. -/
def mallocEntry (env : Env) (w : World) (e : Entry) : Option ℕ × World :=
  let a := env w.asked.length
  let r := w.records.malloc e.bytes.length e.bytes.length ⟨a.granted, a.bytes⟩
  (r.1, { w.answered a (w.mallocOp e r.1.isSome) with records := r.2 })

/-- Lines 33-43; `false` is a `break`. -/
def makeRoom (env : Env) (w : World) (v : Vars) : Option (Bool × World × Vars) :=
  if v.count ≥ v.capacity then
    let v := { v with capacity := Word.add (Word.mul 2 v.capacity) 1 }
    if v.capacity > Word.sizeMax / 8 then some (false, w, v)
    else (reallocNames env w v).map fun
      | (none, w) => (false, w, v)
      | (some p, w) => (true, w, { v with names := some p })
  else some (true, w, v)

/-- Lines 45-51. -/
def copyEntry (env : Env) (w : World) (v : Vars) (e : Entry) : Option (Bool × World × Vars) := do
  let (q, w) := mallocEntry env w e
  let vectors ← w.vectors.copyIn (← v.names) v.count [q]
  let w := { w with vectors }
  match q with
  | none => some (false, w, v)
  | some q =>
    let records ← w.records.copyIn q 0 e.bytes
    some (true, { w with records }, { v with count := Word.add v.count 1 })

/-- `i` counts the entries read. -/
def readLoop (env : Env) (sel : Option Selector) (failure : Option Failure) :
    ℕ → List Read → World → Vars → Option (World × Vars)
  | _, [], w, v => some ({ w with errno := failure.elim 0 (·.1) }, v)
  | i, r :: rest, w, v =>
    match selects sel i r with
    | (false, errno) => readLoop env sel failure (i + 1) rest { w with errno } v
    | (true, errno) => do
      match ← makeRoom env { w with errno } v with
      | (false, w, v) => some (w, v)
      | (true, w, v) =>
        match ← copyEntry env w v r.entry with
        | (false, w, v) => some (w, v)
        | (true, w, v) => readLoop env sel failure (i + 1) rest w v

/-! ### The end -/

/-- Lines 57-59. -/
def freeEntries (names : Option ℕ) : ℕ → World → Option World
  | 0, w => some w
  | count + 1, w => do
    let vector ← w.vectors.read (← names)
    match ← vector[count]? with
    | none => freeEntries names count w
    | some q =>
      freeEntries names count
        { w with records := ← w.records.free q, asked := w.asked ++ [.free (.inr q)] }

/-- `free(names)`. -/
def freeNames (names : Option ℕ) (w : World) : Option World :=
  match names with
  | none => some w
  | some p => (w.vectors.free p).map fun vectors =>
    { w with vectors, asked := w.asked ++ [.free (.inl p)] }

/-- The bytes behind an element of the vector. -/
def World.record (w : World) (q : ℕ) : List UInt8 := (w.records.read q).getD []

/-- `qsort(names, count, sizeof(*names), cmp)`. -/
def sortNames (q : Qsort) (cmp : Comparator) (v : Vars) (w : World) : Option World :=
  if v.count = 0 then some w
  else do
    let p ← v.names
    let vector ← Buffer.slice (← w.vectors.read p) 0 v.count
    let ptrs ← vector.mapM id
    let _ ← ptrs.mapM w.records.read
    let sorted := q.sort (fun a b => cmp (w.record a) (w.record b)) ptrs
    let vectors ← w.vectors.copyIn p 0 (sorted.map some)
    some { w with vectors }

/-- After an `opendir` that leaves `errno`. -/
def World.opened (w : World) (errno : ℕ) : World := { w with errno, streams := w.streams + 1 }

def closedir (w : World) : World := { w with streams := w.streams - 1 }

/-- What scandir and scandir64 do on the listing of their own `readdir`. -/
def scan (q : Qsort) (env : Env) (sel : Option Selector) (cmp : Option Comparator)
    (dir : Option Listing) (errno : ℕ) (w : World) : Option (ℤ × World) :=
  match dir with
  | none => some (-1, { w with errno })
  | some listing => do
    let (w, v) ← readLoop env sel listing.failure 0 listing.reads (w.opened errno) ⟨none, 0, 0⟩
    let w := closedir w
    if w.errno ≠ 0 then
      let w ← freeEntries v.names v.count w
      let w ← freeNames v.names w
      some (-1, w)
    else
      let w := { w with errno }
      let w ← cmp.elim (some w) fun cmp => sortNames q cmp v w
      some (intT v.count, { w with res := v.names })

def scandir (q : Qsort) (env : Env) (sel : Option Selector) (cmp : Option Comparator)
    (o : Opendir) (w : World) : Option (ℤ × World) :=
  scan q env sel cmp (o.dir.map (·.readdir)) o.errno w

def scandir64 (q : Qsort) (env : Env) (sel : Option Selector) (cmp : Option Comparator)
    (o : Opendir) (w : World) : Option (ℤ × World) :=
  scan q env sel cmp (o.dir.map (·.readdir64)) o.errno w

end LibcOverride.Dirent

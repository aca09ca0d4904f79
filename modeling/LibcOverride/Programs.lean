import LibcOverride.Dirent.Allocator
import LibcOverride.Line.Allocator
import LibcOverride.Memstream.Allocator
import LibcOverride.Strings.Printf

/-!
# Programs on the preloaded allocator
(src/line_overrides.c:6-90, src/dirent_overrides.c:11-134,
src/memstream_overrides.c:28-306, src/stdio_overrides.c:5-36,
src/mock_allocator.c:498-651)

A program has any number of line buffers, directory listings, memory streams and
formatted strings, and blocks that it asks the allocator for itself. Its calls come
in any order.
-/

namespace LibcOverride.Programs
open Function
open Clients (Sizes Uses Component Interleaved allSizes)
open MockAllocator (State Ledger Loader BlockMap Placement Provided Served)

/-! ### Its own blocks -/

/-- Any calls, a `realloc` to no bytes among them. -/
def ownPart : Component ℕ where
  State := Sizes ℕ
  sizes := id
  step := Uses
  uses := id

/-! ### Line buffers -/

/-- Calls on one buffer; the caller may read from another stream next, or free the
buffer and start with none. -/
inductive LineStep (env : Line.Env) (w : Line.World) :
    List (Clients.Op ℕ) → Line.World → Prop
  | turn (file : Line.File) : LineStep env w [] { w with file }
  | call {w' : Line.World} {given : Bool} {delim r : ℤ}
      (hrun : Line.getdelim env given delim w = some (r, w')) :
      LineStep env w (Line.operations w.names (w'.asked.drop w.asked.length)) w'
  | free {p : ℕ} {heap : Heap (List UInt8)} (hs : w.s = some p)
      (hfree : w.heap.free p = some heap) : LineStep env w [.free p] { w with heap, s := none, n := 0 }

def linePart (env : Line.Env) : Component ℕ where
  State := Line.World
  sizes := Line.World.sizes
  step := LineStep env
  uses := by
    intro w w' ops hstep
    cases hstep with
    | turn file => exact .nil
    | call hrun =>
      obtain ⟨rs, hasked, huses, -⟩ := Line.getdelim_allocates hrun
      rw [hasked, List.drop_left]
      exact huses
    | @free p heap hs hfree =>
      obtain ⟨b, hread, rfl⟩ := Option.map_eq_some_iff.mp hfree
      have hlive : w.sizes p ≠ none := by
        rw [Line.World.sizes, if_pos hs, hread]
        exact Option.some_ne_none _
      have hgone : Line.World.sizes { w with heap := w.heap.release p, s := none, n := 0 } =
          update w.sizes p none := by
        have hdrop := Line.sizes_drop w
        rw [hs] at hdrop
        exact hdrop.symm
      rw [hgone]
      exact .one (.free hlive)

/-! ### Listings and formatted strings -/

/-- The caller may free any block that is live. -/
inductive ScandirStep (env : Dirent.Env) (w : Dirent.World) : Dirent.World → Prop
  | scandir {w' : Dirent.World} {r : ℤ} (q : Dirent.Qsort) (sel : Option Dirent.Selector)
      (cmp : Option Dirent.Comparator) (o : Dirent.Opendir)
      (hrun : Dirent.scandir q env sel cmp o w = some (r, w')) : ScandirStep env w w'
  | scandir64 {w' : Dirent.World} {r : ℤ} (q : Dirent.Qsort) (sel : Option Dirent.Selector)
      (cmp : Option Dirent.Comparator) (o : Dirent.Opendir)
      (hrun : Dirent.scandir64 q env sel cmp o w = some (r, w')) : ScandirStep env w w'
  | freeVector {p : ℕ} {vectors : Heap (List (Option ℕ))}
      (hfree : w.vectors.free p = some vectors) :
      ScandirStep env w { w with vectors, asked := w.asked ++ [.free (.inl p)] }
  | freeRecord {p : ℕ} {records : Heap (List UInt8)}
      (hfree : w.records.free p = some records) :
      ScandirStep env w { w with records, asked := w.asked ++ [.free (.inr p)] }

theorem scandir_allocates {env : Dirent.Env} {w w' : Dirent.World} (h : ScandirStep env w w') :
    Dirent.Allocates w w' := by
  cases h with
  | scandir q sel cmp o hrun => exact Dirent.scan_allocates hrun
  | scandir64 q sel cmp o hrun => exact Dirent.scan_allocates hrun
  | freeVector hfree => exact Dirent.free_vector hfree
  | freeRecord hfree => exact Dirent.free_record hfree

/-- A step does what it records. -/
def scandirPart (env : Dirent.Env) : Component (ℕ ⊕ ℕ) where
  State := Dirent.World
  sizes := Dirent.World.sizes
  step w ops w' := ScandirStep env w w' ∧ ops = w'.asked.drop w.asked.length
  uses := by
    rintro w w' ops ⟨hstep, rfl⟩
    obtain ⟨ops, hasked, huses⟩ := scandir_allocates hstep
    rw [hasked, List.drop_left]
    exact huses

open Strings (Rendering) in
inductive AsprintfStep (w : Strings.Printf.World) : Strings.Printf.World → Prop
  | call {w' : Strings.Printf.World} {r : ℤ} (measured written : Rendering)
      (a : Heap.Answer UInt8) (hrun : Strings.Printf.asprintf measured written a w = some (r, w')) :
      AsprintfStep w w'
  | free {p : ℕ} {heap : Heap (List UInt8)} (hfree : w.heap.free p = some heap) :
      AsprintfStep w { w with heap, asked := w.asked ++ [.free p] }

theorem asprintf_allocates {w w' : Strings.Printf.World} (h : AsprintfStep w w') :
    Strings.Printf.Allocates w w' := by
  cases h with
  | call measured written a hrun =>
    obtain ⟨r', w'', hspec, -, hallocates⟩ := Strings.Printf.vasprintf_spec measured written a w
    have heq := hspec.symm.trans hrun
    cases heq
    exact hallocates
  | free hfree => exact Strings.Printf.free_allocates hfree

def asprintfPart : Component ℕ where
  State := Strings.Printf.World
  sizes := Strings.Printf.World.sizes
  step w ops w' := AsprintfStep w w' ∧ ops = w'.asked.drop w.asked.length
  uses := by
    rintro w w' ops ⟨hstep, rfl⟩
    obtain ⟨ops, hasked, huses⟩ := asprintf_allocates hstep
    rw [hasked, List.drop_left]
    exact huses

/-! ### Memory streams -/

section
open Memstream (Sound IoFuncs OpenAnswers Lawful Pays openRequests)

variable {α σ : Type} [Zero α] {cap sizeofCookie width : ℕ} {fs : IoFuncs α σ}
  {requests : Memstream.Stream α σ → Memstream.Op α → List (Clients.Op ℕ)}
  {Stored : Memstream.Stream α σ → List UInt8 → Heap.Answer α → Prop}

/-- No stream, an open one, or the published buffer of one that was closed. -/
inductive Phase (cap : ℕ) (α σ : Type) [Zero α] where
  | idle
  | opened (s : { s : Memstream.Stream α σ // ∃ b, Sound cap s b })
  | closed (s : Memstream.Stream α σ)

def Phase.sizes (sizeofCookie width : ℕ) : Phase cap α σ → Sizes ℕ
  | .idle => fun _ => none
  | .opened s => s.1.sizes sizeofCookie width
  | .closed s => s.left width

/-- The stream is opened, called and closed, and the caller frees what it published. -/
inductive StreamStep (sizeofCookie width : ℕ) (fs : IoFuncs α σ)
    (requests : Memstream.Stream α σ → Memstream.Op α → List (Clients.Op ℕ)) (state : σ) :
    Phase cap α σ → List (Clients.Op ℕ) → Phase cap α σ → Prop
  | opens {w : Memstream.World α} {a : OpenAnswers α}
      {s : { s : Memstream.Stream α σ // ∃ b, Sound cap s b }}
      (h : Memstream.openStream w sizeofCookie width state a = some (.stream s.1)) :
      StreamStep sizeofCookie width fs requests state .idle (openRequests w sizeofCookie width a)
        (.opened s)
  | fails {w w' : Memstream.World α} {a : OpenAnswers α}
      (h : Memstream.openStream w sizeofCookie width state a = some (.null w')) :
      StreamStep sizeofCookie width fs requests state .idle (openRequests w sizeofCookie width a)
        .idle
  | call {s s' : { s : Memstream.Stream α σ // ∃ b, Sound cap s b }} {op : Memstream.Op α}
      {r : Memstream.Reply} (hop : op.Fits) (h : fs.step s.1 op = some (r, s'.1)) :
      StreamStep sizeofCookie width fs requests state (.opened s) (requests s.1 op) (.opened s')
  | close {s : { s : Memstream.Stream α σ // ∃ b, Sound cap s b }} {w : Memstream.World α}
      (h : fs.close s.1 = some w) :
      StreamStep sizeofCookie width fs requests state (.opened s) [.free s.1.self] (.closed s.1)
  | free {s : Memstream.Stream α σ} :
      StreamStep sizeofCookie width fs requests state (.closed s) [.free s.cookie.buf] .idle

omit [Zero α] in
theorem free_left (s : Memstream.Stream α σ) :
    Uses (s.left width) [.free s.cookie.buf] fun _ => none := by
  have hlive : s.left width s.cookie.buf ≠ none := by
    rw [Memstream.Stream.left, if_pos rfl]
    exact Option.some_ne_none _
  have hgone : update (s.left width) s.cookie.buf none = fun _ => none := by
    funext p
    by_cases hp : p = s.cookie.buf
    · rw [hp, update_self]
    · rw [update_of_ne hp, Memstream.Stream.left, if_neg hp]
  rw [← hgone]
  exact .one (.free hlive)

def streamPart (state : σ) (hp : Pays cap sizeofCookie width fs requests)
    (hc : sizeofCookie ≤ ptrdiffMax) (hw : width ≤ ptrdiffMax) : Component ℕ where
  State := Phase cap α σ
  sizes := Phase.sizes sizeofCookie width
  step := StreamStep sizeofCookie width fs requests state
  uses := by
    intro phase phase' ops hstep
    cases hstep with
    | @opens w a s h =>
      have huses := Memstream.open_uses w state a hc hw
      rw [Memstream.openStream_eq w state a hc hw] at h
      rw [Option.some.inj h] at huses
      exact huses
    | @fails w w' a h =>
      have huses := Memstream.open_uses w state a hc hw
      rw [Memstream.openStream_eq w state a hc hw] at h
      rw [Option.some.inj h] at huses
      exact huses
    | @call s s' op r hop h =>
      obtain ⟨b, hs⟩ := s.2
      exact hp hs hop h
    | @close s w h =>
      obtain ⟨b, hs⟩ := s.2
      exact Memstream.close_uses hs
    | @free s => exact free_left s

end

/-- `openMemstream` is `openStream` with these sizes. -/
def memstreamPart : Component ℕ :=
  streamPart () (@Memstream.memstream_pays 48) (by decide) (by decide)

def wmemstreamPart (locale : Memstream.Locale) : Component ℕ :=
  streamPart locale.initial (@Memstream.wmemstream_pays 56 locale) (by decide) (by decide)

/-! ### All of them -/

/-- What a program is made of; there may be any number of each. -/
inductive Name where
  | own (n : ℕ)
  | line (n : ℕ)
  | scandir (n : ℕ)
  | memstream (n : ℕ)
  | wmemstream (n : ℕ)
  | asprintf (n : ℕ)
  deriving DecidableEq

abbrev Name.Block : Name → Type
  | .scandir _ => ℕ ⊕ ℕ
  | _ => ℕ

instance (i : Name) : DecidableEq i.Block :=
  match i with
  | .own _ | .line _ | .memstream _ | .wmemstream _ | .asprintf _ => inferInstanceAs (DecidableEq ℕ)
  | .scandir _ => inferInstanceAs (DecidableEq (ℕ ⊕ ℕ))

/-- How the surroundings of each part answer it. -/
structure Surroundings where
  line : ℕ → Line.Env
  scandir : ℕ → Dirent.Env
  locale : Memstream.Locale

def parts (env : Surroundings) : ∀ i : Name, Component i.Block
  | .own _ => ownPart
  | .line n => linePart (env.line n)
  | .scandir n => scandirPart (env.scandir n)
  | .memstream _ => memstreamPart
  | .wmemstream _ => wmemstreamPart env.locale
  | .asprintf _ => asprintfPart

variable {env : Surroundings} {w w' : ∀ i, (parts env i).State}

/-- Whatever the parts call in whatever order, the allocator serves it, one call after the
other and with the answers that the parts got. Its blocks are theirs, each of the size asked
for and none of two parts, and those of others; once they have given back all, those of
others only. -/
theorem program_served {ld : Loader} (P : Placement) {others : BlockMap}
    {place : (Σ i : Name, i.Block) → ℕ} {s : State} {L : Ledger}
    (hp : Provided others (allSizes (parts env) w) place s L)
    {ops : List (Clients.Op (Σ i : Name, i.Block))} (h : Interleaved (parts env) w ops w') :
    ∃ out, Served ld P place s L ops out ∧ ∀ place' s' L', out = some (place', s', L') →
      Provided others (allSizes (parts env) w') place' s' L' ∧
      ((∀ i, (parts env i).sizes (w' i) = fun _ => none) → L'.map = others) := by
  obtain ⟨out, hserved, hout⟩ :=
    MockAllocator.uses_served ld P hp (Clients.interleaved_uses h)
  refine ⟨out, hserved, fun place' s' L' heq => ?_⟩
  have hp' := hout place' s' L' heq
  refine ⟨hp', fun hnothing => ?_⟩
  funext q
  refine hp'.laid.rest q fun k hk => ?_
  have hnone : allSizes (parts env) w' k = none := congrFun (hnothing k.1) k.2
  exact (hk hnone).elim

/-- Every request is granted. -/
def sampleEnv : Surroundings :=
  ⟨fun _ _ => ⟨true, fun _ => 0⟩, fun _ => Dirent.granting, Memstream.ascii⟩

/-- A program that has done nothing yet. -/
def idle : ∀ i, (parts sampleEnv i).State
  | .own _ => fun _ => none
  | .line _ => Line.threeLines
  | .scandir _ => Dirent.emptyWorld
  | .memstream _ => .idle
  | .wmemstream _ => .idle
  | .asprintf _ => ⟨⟨[]⟩, none, []⟩

theorem idle_sizes : allSizes (parts sampleEnv) idle = fun _ => none := by
  funext k
  obtain ⟨i, k⟩ := k
  cases i with
  | scandir n => cases k <;> rfl
  | _ => rfl

/-- A line is read, then the next one while the program's own block goes by a `realloc`
to no bytes, after a string was formatted. -/
def sampleCalls : List (Clients.Op (Σ i : Name, i.Block)) :=
  [.realloc none ⟨.line 0, (0 : ℕ)⟩ 3 true,
    .realloc (some ⟨.line 0, (0 : ℕ)⟩) ⟨.line 0, (1 : ℕ)⟩ 6 true,
    .malloc ⟨.own 1, (0 : ℕ)⟩ 8 true,
    .malloc ⟨.asprintf 3, (0 : ℕ)⟩ 2 true,
    .realloc (some ⟨.own 1, (0 : ℕ)⟩) ⟨.own 1, (1 : ℕ)⟩ 0 false,
    .realloc (some ⟨.line 0, (1 : ℕ)⟩) ⟨.line 0, (2 : ℕ)⟩ 10 true]

def readLine (w : Line.World) : Line.World :=
  ((Line.getline (sampleEnv.line 0) true w).map Prod.snd).getD w

theorem program_served_sample : ∃ w' out, Interleaved (parts sampleEnv) idle sampleCalls w' ∧
    Served MockAllocator.sampleLoader MockAllocator.Placement.behind
      (fun _ : (Σ i : Name, i.Block) => 0)
      (MockAllocator.initState MockAllocator.sampleBootstrap ∅) Ledger.empty sampleCalls out := by
  have hfirst : LineStep (sampleEnv.line 0) Line.threeLines _ (readLine Line.threeLines) :=
    LineStep.call (show Line.getdelim _ true 10 _ = some (3, _) from rfl)
  have hown : (parts sampleEnv (.own 1)).step (fun _ => none) [.malloc (0 : ℕ) 8 true] _ :=
    Uses.one (.malloc rfl)
  have hstring : (parts sampleEnv (.asprintf 3)).step ⟨⟨[]⟩, none, []⟩ _ _ :=
    ⟨AsprintfStep.call (.text [104] (by decide)) (.text [104] (by decide)) ⟨true, fun _ => 0⟩ rfl,
      rfl⟩
  have hgone : (parts sampleEnv (.own 1)).step (update (fun _ => none) 0 (some 8))
      [.realloc (some (0 : ℕ)) (1 : ℕ) 0 false] _ := Uses.one (.released (by decide))
  have hsecond : LineStep (sampleEnv.line 0) (readLine Line.threeLines) _
      (readLine (readLine Line.threeLines)) :=
    LineStep.call (show Line.getdelim _ true 10 _ = some (6, _) from rfl)
  have hrun := (@Interleaved.start _ _ _ _ (parts sampleEnv) idle).turn (Name.line 0) hfirst
  have hrun := hrun.turn (Name.own 1) hown
  have hrun := hrun.turn (Name.asprintf 3) hstring
  have hrun := hrun.turn (Name.own 1) hgone
  have hrun := hrun.turn (Name.line 0) hsecond
  have hp := MockAllocator.provided_nothing
    (MockAllocator.tracks_start MockAllocator.sampleBootstrap ∅ (by simp))
    (fun _ : (Σ i : Name, i.Block) => 0)
  rw [← idle_sizes] at hp
  obtain ⟨out, hserved, -⟩ := program_served MockAllocator.Placement.behind hp hrun
  exact ⟨_, out, hrun, hserved⟩

end LibcOverride.Programs

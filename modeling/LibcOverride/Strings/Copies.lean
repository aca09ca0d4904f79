import LibcOverride.Lib.Buffer
import LibcOverride.MockAllocator.Sessions

/-!
# Copies from the preloaded allocator
(src/string_overrides.c:5-41, src/sched_overrides.c:7-18)

The functions that return what `malloc` gave them. An object is the list of its
bytes; what a new block holds is arbitrary. `none` is an access outside an object.
-/

namespace LibcOverride.Strings
open Word Buffer
open MockAllocator (State Ledger Loader Fatal RealAnswer Reachable Plays)

/-- The allocator, and what the object at an address holds. -/
structure World where
  alloc : State
  memory : ℕ → List UInt8

inductive Ended where
  | ret (ptr : ℕ) (w : World)
  | exit (why : Fatal)

/-- What the outside decides in a call: the real allocator's answer and what the
new block holds. -/
structure Outside where
  ans : ℕ
  junk : ℕ → UInt8

def garbage (junk : ℕ → UInt8) (size : ℕ) : List UInt8 := (List.range size).map junk

def World.put (w : World) (p : ℕ) (bytes : List UInt8) : World :=
  { w with memory := Function.update w.memory p bytes }

/-- `memcpy` to index `i` of the object at `p`. -/
def World.store (w : World) (p i : ℕ) (bytes : List UInt8) : Option World :=
  (blit (w.memory p) i bytes).map (w.put p)

/-- `malloc(size)`, NULL if that is NULL, and else what `init` makes of the block. -/
def allocating (ld : Loader) (w : World) (o : Outside) (size : ℕ)
    (init : World → ℕ → Option World) : Option Ended :=
  match MockAllocator.malloc ld w.alloc size o.ans with
  | .exit why => some (.exit why)
  | .ret p alloc =>
    if p = 0 then some (.ret 0 { w with alloc })
    else (init (World.put { w with alloc } p (garbage o.junk size)) p).map (.ret p)

/-! ### Strings -/

/-- What is before the first `nul`. -/
def lengthTo {α : Type} [DecidableEq α] (nul : α) : List α → Option ℕ
  | [] => none
  | c :: s => if c = nul then some 0 else (lengthTo nul s).map (· + 1)

def strlen (s : List UInt8) : Option ℕ := lengthTo 0 s

def wcslen (s : List UInt32) : Option ℕ := lengthTo 0 s

def strnlen : List UInt8 → ℕ → Option ℕ
  | _, 0 => some 0
  | [], _ + 1 => none
  | c :: s, n + 1 => if c = 0 then some 0 else (strnlen s n).map (· + 1)

abbrev sizeofWchar : ℕ := 4

/-- A `wchar_t` in memory. -/
def wcharBytes (c : UInt32) : List UInt8 :=
  [c.toUInt8, (c >>> 8).toUInt8, (c >>> 16).toUInt8, (c >>> 24).toUInt8]

def strdup (ld : Loader) (w : World) (o : Outside) (s : List UInt8) : Option Ended := do
  let len ← strlen s
  allocating ld w o (add len 1) fun w dup => do
    let text ← slice s 0 (add len 1)
    w.store dup 0 text

def strndup (ld : Loader) (w : World) (o : Outside) (s : List UInt8) (n : ℕ) : Option Ended := do
  let len ← strnlen s n
  allocating ld w o (add len 1) fun w dup => do
    let text ← slice s 0 len
    let w ← w.store dup 0 text
    w.store dup len [0]

def wcsdup (ld : Loader) (w : World) (o : Outside) (s : List UInt32) : Option Ended := do
  let len ← wcslen s
  allocating ld w o (mul (add len 1) sizeofWchar) fun w dup => do
    let text ← slice s 0 (add len 1)
    w.store dup 0 (text.flatMap wcharBytes)

/-! ### CPU sets -/

/-- `8U * sizeof(unsigned long)` -/
abbrev longBits : ℕ := 64

def aoCpuAllocSize (count : ℕ) : ℕ :=
  mul 8 (add (count / longBits) (sub (add (count % longBits) longBits) 1 / longBits))

def schedCpualloc (ld : Loader) (w : World) (o : Outside) (count : ℕ) : Option Ended :=
  allocating ld w o (aoCpuAllocSize count) fun w _ => some w

/-! ### One call of any of them -/

inductive Request where
  | strdup (s : List UInt8)
  | strndup (s : List UInt8) (n : ℕ)
  | wcsdup (s : List UInt32)
  | schedCpualloc (count : ℕ)
  deriving Repr, DecidableEq

def Request.run (ld : Loader) (w : World) (o : Outside) : Request → Option Ended
  | .strdup s => Strings.strdup ld w o s
  | .strndup s n => Strings.strndup ld w o s n
  | .wcsdup s => Strings.wcsdup ld w o s
  | .schedCpualloc count => Strings.schedCpualloc ld w o count

/-- A terminated string, or as many bytes as `strndup` may look at, in an object
of at most `PTRDIFF_MAX` bytes; a `size_t`. -/
def Request.Valid : Request → Prop
  | .strdup s => strlen s ≠ none ∧ s.length < 2 ^ 63
  | .strndup s n => strnlen s n ≠ none ∧ s.length < 2 ^ 63
  | .wcsdup s => wcslen s ≠ none ∧ s.length < 2 ^ 61
  | .schedCpualloc count => count < 2 ^ 64

/-- The bytes that the result is to have. -/
def Request.size : Request → ℕ
  | .strdup s => (strlen s).getD 0 + 1
  | .strndup s n => (strnlen s n).getD 0 + 1
  | .wcsdup s => ((wcslen s).getD 0 + 1) * sizeofWchar
  | .schedCpualloc count => 8 * ((count + 63) / 64)

/-- What the result is to hold: the string with its terminator, or anything. -/
def Request.contents (junk : ℕ → UInt8) : Request → List UInt8
  | .strdup s => s.take ((strlen s).getD 0 + 1)
  | .strndup s n => s.take ((strnlen s n).getD 0) ++ [0]
  | .wcsdup s => (s.take ((wcslen s).getD 0 + 1)).flatMap wcharBytes
  | .schedCpualloc count => garbage junk (8 * ((count + 63) / 64))

/-- As many bits as CPUs, rounded up to words. -/
theorem aoCpuAllocSize_eq {count : ℕ} (h : count < 2 ^ 64) :
    aoCpuAllocSize count = 8 * ((count + 63) / 64) := by
  unfold aoCpuAllocSize mul add sub
  dsimp only [longBits]
  omega

theorem lengthTo_lt {α : Type} [DecidableEq α] {nul : α} {s : List α} {len : ℕ}
    (h : lengthTo nul s = some len) : len < s.length := by
  induction s generalizing len with
  | nil => cases h
  | cons c s ih =>
    rw [lengthTo] at h
    split at h
    · cases h
      exact Nat.succ_pos _
    · obtain ⟨k, hk, rfl⟩ := Option.map_eq_some_iff.mp h
      exact Nat.succ_lt_succ (ih hk)

theorem strnlen_le {s : List UInt8} {n len : ℕ} (h : strnlen s n = some len) : len ≤ s.length := by
  induction s generalizing n len with
  | nil =>
    cases n with
    | zero =>
      cases h
      exact le_rfl
    | succ n => cases h
  | cons c s ih =>
    cases n with
    | zero =>
      cases h
      exact Nat.zero_le _
    | succ n =>
      rw [strnlen] at h
      split at h
      · cases h
        exact Nat.zero_le _
      · obtain ⟨k, hk, rfl⟩ := Option.map_eq_some_iff.mp h
        exact Nat.succ_le_succ (ih hk)

/-! ### A call -/

variable {ld : Loader} {w w' : World} {o : Outside} {L : Ledger} {r : Request} {p size : ℕ}

/-- What the call comes to when its block is to hold `bytes`. -/
def World.answered (w : World) (bytes : List UInt8) : MockAllocator.Outcome ℕ → Ended
  | .exit why => .exit why
  | .ret p alloc => .ret p (if p = 0 then { w with alloc } else World.put { w with alloc } p bytes)

theorem length_garbage (junk : ℕ → UInt8) (size : ℕ) : (garbage junk size).length = size := by
  rw [garbage, List.length_map, List.length_range]

theorem memory_put (w : World) (p : ℕ) (bytes : List UInt8) : (w.put p bytes).memory p = bytes :=
  Function.update_self ..

theorem put_put (w : World) (p : ℕ) (x y : List UInt8) : (w.put p x).put p y = w.put p y := by
  rw [World.put, World.put, World.put, Function.update_idem]

theorem store_append {i : ℕ} {x m y bytes : List UInt8} (hb : w.memory p = x ++ (m ++ y))
    (hi : i = x.length) (hv : bytes.length = m.length) :
    w.store p i bytes = some (w.put p (x ++ (bytes ++ y))) := by
  rw [World.store, blit_append hb hi hv, Option.map_some]

theorem store_whole {bytes : List UInt8} (h : bytes.length = (w.memory p).length) :
    w.store p 0 bytes = some (w.put p bytes) := by
  have hstore := @store_append w p 0 [] (w.memory p) [] bytes (by simp) rfl h
  rwa [List.nil_append, List.append_nil] at hstore

theorem allocating_eq {init : World → ℕ → Option World} {bytes : List UInt8}
    (hinit : ∀ v p, v.memory p = garbage o.junk size → init v p = some (v.put p bytes)) :
    allocating ld w o size init =
      some (w.answered bytes (MockAllocator.malloc ld w.alloc size o.ans)) := by
  unfold allocating
  cases MockAllocator.malloc ld w.alloc size o.ans with
  | exit why => rfl
  | ret p alloc =>
    dsimp only [World.answered]
    split
    · rename_i hz
      rw [hz]
    · rw [hinit _ p (memory_put ..), Option.map_some, put_put]

/-- A text with its terminator is within its object. -/
theorem slice_text {α : Type} [DecidableEq α] {nul : α} {s : List α} {len : ℕ}
    (h : lengthTo nul s = some len) : slice s 0 (len + 1) = some (s.take (len + 1)) := by
  have hlt := lengthTo_lt h
  rw [slice, if_pos (by omega), List.drop_zero]

theorem length_take_text {α : Type} [DecidableEq α] {nul : α} {s : List α} {len : ℕ}
    (h : lengthTo nul s = some len) : (s.take (len + 1)).length = len + 1 :=
  List.length_take_of_le (lengthTo_lt h)

theorem length_wcharBytes (s : List UInt32) :
    (s.flatMap wcharBytes).length = s.length * sizeofWchar := by
  induction s with
  | nil => rfl
  | cons c s ih =>
    rw [List.flatMap_cons, List.length_append, ih, List.length_cons]
    dsimp only [wcharBytes, sizeofWchar, List.length_cons, List.length_nil]
    omega

theorem add_one_eq {len bound : ℕ} (h : len < bound) (hb : bound < 2 ^ 64) : add len 1 = len + 1 :=
  Nat.mod_eq_of_lt (by omega)

/-- A valid request allocates what it needs, and fills the block exactly. -/
theorem run_eq (hv : r.Valid) : r.run ld w o =
    some (w.answered (r.contents o.junk) (MockAllocator.malloc ld w.alloc r.size o.ans)) := by
  cases r with
  | strdup s =>
    obtain ⟨hne, hlen⟩ := hv
    obtain ⟨len, h⟩ := Option.ne_none_iff_exists'.mp hne
    have hadd := add_one_eq (lengthTo_lt h) (by omega)
    dsimp only [Request.run, Request.size, Request.contents]
    rw [Strings.strdup, h, Option.bind_eq_bind, Option.bind_some, hadd, Option.getD_some]
    apply allocating_eq
    intro v p hmem
    rw [slice_text h, Option.bind_eq_bind, Option.bind_some]
    exact store_whole (by rw [hmem, length_garbage, length_take_text h])
  | strndup s n =>
    obtain ⟨hne, hlen⟩ := hv
    obtain ⟨len, h⟩ := Option.ne_none_iff_exists'.mp hne
    have hle := strnlen_le h
    have hadd := add_one_eq (Nat.lt_succ_of_le hle) (by omega)
    have hslice : slice s 0 len = some (s.take len) := by
      rw [slice, if_pos (by omega), List.drop_zero]
    have htake : (s.take len).length = len := List.length_take_of_le hle
    dsimp only [Request.run, Request.size, Request.contents]
    rw [Strings.strndup, h, Option.bind_eq_bind, Option.bind_some, hadd, Option.getD_some]
    apply allocating_eq
    intro v p hmem
    rw [hslice, Option.bind_eq_bind, Option.bind_some]
    have hlong : (garbage o.junk (len + 1)).length = len + 1 := length_garbage _ _
    have hfirst := @store_append v p 0 [] ((garbage o.junk (len + 1)).take len)
      ((garbage o.junk (len + 1)).drop len) (s.take len)
      (by rw [hmem, List.take_append_drop]; rfl) rfl
      (by rw [htake, List.length_take_of_le (by omega)])
    rw [hfirst, Option.bind_eq_bind, Option.bind_some,
      @store_append _ p len (s.take len) ((garbage o.junk (len + 1)).drop len) [] [0]
        (by rw [memory_put, List.append_nil]; rfl) htake.symm
        (by rw [List.length_drop, hlong, Nat.add_sub_cancel_left]; rfl),
      put_put, List.append_nil]
  | wcsdup s =>
    obtain ⟨hne, hlen⟩ := hv
    obtain ⟨len, h⟩ := Option.ne_none_iff_exists'.mp hne
    have hlt := lengthTo_lt h
    have hadd := add_one_eq hlt (by omega)
    have hmul : mul (len + 1) sizeofWchar = (len + 1) * sizeofWchar :=
      Nat.mod_eq_of_lt (by dsimp only [sizeofWchar]; omega)
    dsimp only [Request.run, Request.size, Request.contents]
    rw [Strings.wcsdup, h, Option.bind_eq_bind, Option.bind_some, hadd, hmul, Option.getD_some]
    apply allocating_eq
    intro v p hmem
    rw [slice_text h, Option.bind_eq_bind, Option.bind_some]
    exact store_whole (by rw [hmem, length_garbage, length_wcharBytes, length_take_text h])
  | schedCpualloc count =>
    dsimp only [Request.run, Request.size, Request.contents]
    rw [Strings.schedCpualloc, aoCpuAllocSize_eq hv]
    apply allocating_eq
    intro v p hmem
    rw [World.put, ← hmem, Function.update_eq_self]

/-! ### One call after the other -/

/-- The requests and what they returned. -/
inductive Calls (ld : Loader) (w : World) : List (Request × ℕ) → World → Prop
  | start : Calls ld w [] w
  | call {cs : List (Request × ℕ)} {w₁ w₂ : World} {r : Request} {o : Outside} {p : ℕ}
      (h : Calls ld w cs w₁) (hv : r.Valid) (hans : RealAnswer w₁.alloc (.malloc r.size) o.ans)
      (hr : r.run ld w₁ o = some (.ret p w₂)) : Calls ld w (cs ++ [(r, p)]) w₂

def pointers (cs : List (Request × ℕ)) : List ℕ := (cs.map Prod.snd).filter (· ≠ 0)

/-- Every copy is a block of its own with the size that was needed, and still holds
what was copied; nothing else is touched. -/
structure Copied (ld : Loader) (w : World) (L : Ledger) (cs : List (Request × ℕ)) (w' : World)
    (L' : Ledger) : Prop where
  reachable : Reachable ld w'.alloc L'
  resolved : pointers cs ≠ [] → w'.alloc.resolved = true
  nodup : (pointers cs).Nodup
  fresh : ∀ p ∈ pointers cs, p ∉ w.alloc.heap
  heap : w'.alloc.heap = w.alloc.heap ∪ (pointers cs).toFinset
  others : ∀ p ∉ pointers cs, L'.blocks.lookup p = L.blocks.lookup p ∧ w'.memory p = w.memory p
  copies : ∀ c ∈ cs, c.2 ≠ 0 → (L'.blocks.lookup c.2).map Prod.fst = some c.1.size ∧
    ∃ junk, w'.memory c.2 = c.1.contents junk

theorem mem_pointers {cs : List (Request × ℕ)} : p ∈ pointers cs ↔ p ≠ 0 ∧ ∃ r, (r, p) ∈ cs := by
  simp [pointers, and_comm]

theorem pointers_snoc (cs : List (Request × ℕ)) (r : Request) (p : ℕ) :
    pointers (cs ++ [(r, p)]) = pointers cs ++ if p = 0 then [] else [p] := by
  rw [pointers, List.map_append, List.filter_append]
  by_cases hp : p = 0 <;> simp [pointers, hp]

theorem copied_start (h : Reachable ld w.alloc L) : Copied ld w L [] w L where
  reachable := h
  resolved hne := (hne rfl).elim
  nodup := List.nodup_nil
  fresh _ hp := absurd hp List.not_mem_nil
  heap := (Finset.union_empty _).symm
  others _ _ := ⟨rfl, rfl⟩
  copies _ hc := absurd hc List.not_mem_nil

theorem copied_call {cs : List (Request × ℕ)} {w₁ w₂ : World} {L₁ : Ledger}
    (h : Copied ld w L cs w₁ L₁) (hv : r.Valid)
    (hans : RealAnswer w₁.alloc (.malloc r.size) o.ans) (hr : r.run ld w₁ o = some (.ret p w₂)) :
    Copied ld w L (cs ++ [(r, p)]) w₂ (L₁.create p r.size) := by
  have htracks := MockAllocator.tracks_run h.reachable
  rw [run_eq hv] at hr
  cases hm : MockAllocator.malloc ld w₁.alloc r.size o.ans with
  | exit why =>
    rw [hm] at hr
    cases hr
  | ret q alloc =>
    rw [hm] at hr
    cases hr
    have hreach : Reachable ld alloc (L₁.create p r.size) :=
      .step _ _ _ (.malloc r.size) o.ans _ h.reachable trivial hans hm
    have hres := MockAllocator.malloc_resolved htracks.outside hm
    rcases MockAllocator.malloc_ret htracks hans hm with ⟨rfl, hheap⟩ | ⟨hge, hnew, hheap⟩
    · have hsame : pointers (cs ++ [(r, 0)]) = pointers cs := by
        rw [pointers_snoc, if_pos rfl, List.append_nil]
      rw [MockAllocator.Ledger.create, if_pos rfl] at hreach ⊢
      rw [if_pos rfl]
      refine ⟨hreach, fun _ => hres, ?_, ?_, ?_, ?_, fun c hc hne => ?_⟩
      · rw [hsame]
        exact h.nodup
      · rw [hsame]
        exact h.fresh
      · rw [hsame, ← h.heap]
        exact hheap
      · rw [hsame]
        exact h.others
      · rcases List.mem_append.mp hc with hold | hlast
        · exact h.copies c hold hne
        · rw [List.mem_singleton.mp hlast] at hne
          exact (hne rfl).elim
    · have hp : p ≠ 0 := by omega
      have hmore : pointers (cs ++ [(r, p)]) = pointers cs ++ [p] := by
        rw [pointers_snoc, if_neg hp]
      have hold : p ∉ w.alloc.heap ∧ p ∉ pointers cs := by
        rw [h.heap, Finset.mem_union, List.mem_toFinset, not_or] at hnew
        exact hnew
      have hlookup (q : ℕ) (hq : q ≠ p) :
          (L₁.create p r.size).blocks.lookup q = L₁.blocks.lookup q := by
        rw [MockAllocator.Ledger.create, if_neg hp]
        exact AList.lookup_insert_ne hq
      rw [if_neg hp]
      refine ⟨hreach, fun _ => hres, ?_, ?_, ?_, ?_, fun c hc hne => ?_⟩
      · rw [hmore]
        exact List.nodup_append.mpr ⟨h.nodup, List.nodup_singleton p, fun a ha b hb => by
          rw [List.mem_singleton.mp hb]
          exact fun heq => hold.2 (heq ▸ ha)⟩
      · rw [hmore]
        intro q hq
        rcases List.mem_append.mp hq with hq | hq
        · exact h.fresh q hq
        · rw [List.mem_singleton.mp hq]
          exact hold.1
      · have hset : (pointers cs ++ [p]).toFinset = insert p (pointers cs).toFinset := by
          ext q
          simp
        rw [hmore, hset, Finset.union_insert, ← h.heap]
        exact hheap
      · rw [hmore]
        intro q hq
        rw [List.mem_append, List.mem_singleton, not_or] at hq
        obtain ⟨hL, hmem⟩ := h.others q hq.1
        exact ⟨(hlookup q hq.2).trans hL, (Function.update_of_ne hq.2 _ _).trans hmem⟩
      · rcases List.mem_append.mp hc with hc | hc
        · have hcp : c.2 ≠ p := fun heq => hold.2 (mem_pointers.mpr ⟨hp, c.1, heq ▸ hc⟩)
          obtain ⟨hL, junk, hmem⟩ := h.copies c hc hne
          exact ⟨by rw [hlookup c.2 hcp, hL], junk, (Function.update_of_ne hcp _ _).trans hmem⟩
        · rw [List.mem_singleton.mp hc]
          refine ⟨?_, o.junk, memory_put ..⟩
          rw [MockAllocator.Ledger.create, if_neg hp, AList.lookup_insert]
          rfl

theorem calls_copied {cs : List (Request × ℕ)} (h : Reachable ld w.alloc L)
    (hc : Calls ld w cs w') : ∃ L', Copied ld w L cs w' L' := by
  induction hc with
  | start => exact ⟨L, copied_start h⟩
  | call hc hv hans hr ih =>
    obtain ⟨L₁, hcopied⟩ := ih
    exact ⟨_, copied_call hcopied hv hans hr⟩

/-- However often and in whatever order they are called, no call reads or writes
outside an object, no copy disturbs another, and once the copies are freed, in any
order, nothing is left of them. -/
theorem copies_kept {cs : List (Request × ℕ)} (h : Reachable ld w.alloc L)
    (hc : Calls ld w cs w') :
    (∀ (r : Request) o, r.Valid → r.run ld w' o ≠ none) ∧
    ∃ L', Copied ld w L cs w' L' ∧ ∀ order : List ℕ, order.Perm (pointers cs) →
      ∃ s L'', Plays ld w'.alloc L' (order.map fun p => (.free p, 0)) (some (s, L'')) ∧
        s.heap = w.alloc.heap ∧ L''.map = L.map ∧
        s.stats.liveBlocks = w.alloc.stats.liveBlocks ∧
        s.stats.liveBytes = w.alloc.stats.liveBytes := by
  refine ⟨fun r o hv => by rw [run_eq hv]; simp, ?_⟩
  obtain ⟨L', hcopied⟩ := calls_copied h hc
  refine ⟨L', hcopied, fun order hperm => ?_⟩
  have htracks := MockAllocator.tracks_run hcopied.reachable
  have hlive (p : ℕ) (hp : p ∈ order) : p ∈ L'.blocks := by
    obtain ⟨hne, r, hmem⟩ := mem_pointers.mp (hperm.mem_iff.mp hp)
    have hsize := (hcopied.copies (r, p) hmem hne).1
    refine AssocTotal.lookup_ne_none.mp fun hnone => ?_
    rw [hnone] at hsize
    cases hsize
  have hres (hne : order ≠ []) : w'.alloc.resolved = true :=
    hcopied.resolved fun hnil => hne (hnil ▸ hperm).eq_nil
  obtain ⟨s, hplays, hheap⟩ := MockAllocator.frees_play ld htracks hres
    (hperm.nodup_iff.mpr hcopied.nodup) hlive
  have hmap : (order.foldl MockAllocator.Ledger.drop L').map = L.map := by
    funext q
    rw [MockAllocator.Ledger.map, MockAllocator.lookup_drops]
    by_cases hq : q ∈ order
    · have hfresh := hcopied.fresh q (hperm.mem_iff.mp hq)
      have hnone : L.blocks.lookup q = none := AList.lookup_eq_none.mpr fun hmem =>
        hfresh ((MockAllocator.tracks_run h).allocated q hmem)
      rw [if_pos hq]
      exact hnone.symm
    · rw [if_neg hq]
      exact (hcopied.others q (mt hperm.mem_iff.mpr hq)).1
  obtain ⟨hblocks, hbytes⟩ := MockAllocator.live_congr
    (MockAllocator.plays_tracks htracks hplays) (MockAllocator.tracks_run h) hmap
  refine ⟨s, _, hplays, ?_, hmap, hblocks, hbytes⟩
  rw [hheap, hcopied.heap]
  ext q
  rw [Finset.mem_sdiff, Finset.mem_union, List.mem_toFinset, List.mem_toFinset, hperm.mem_iff]
  constructor
  · rintro ⟨hq | hq, hnot⟩
    · exact hq
    · exact (hnot hq).elim
  · exact fun hq => ⟨Or.inl hq, fun hp => hcopied.fresh q hp hq⟩

/-! ### Two copies -/

def emptyWorld : World :=
  ⟨MockAllocator.initState MockAllocator.sampleBootstrap ∅, fun _ => []⟩

theorem copies_kept_two : ∃ (w : World) (s : State) (L'' : Ledger),
    Calls MockAllocator.sampleLoader emptyWorld
      [(.strdup [104, 105, 0], 2 ^ 20), (.strndup [104, 105] 2, 2 ^ 21)] w ∧
    s.heap = emptyWorld.alloc.heap ∧ L''.map = Ledger.empty.map := by
  have hreach : Reachable MockAllocator.sampleLoader emptyWorld.alloc Ledger.empty :=
    .start _ _ (by simp)
  have hfirst := (@Calls.start MockAllocator.sampleLoader emptyWorld).call
    (r := .strdup [104, 105, 0]) (o := ⟨2 ^ 20, fun _ => 170⟩) ⟨by decide, by decide⟩
    (Or.inr ⟨by decide, by decide, by decide⟩) rfl
  have hsecond := hfirst.call (r := .strndup [104, 105] 2) (o := ⟨2 ^ 21, fun _ => 170⟩)
    ⟨by decide, by decide⟩ (Or.inr ⟨by decide, by decide, by decide⟩) rfl
  obtain ⟨_, L', _, hfree⟩ := copies_kept hreach hsecond
  obtain ⟨s, L'', _, hheap, hmap, _⟩ := hfree [2 ^ 21, 2 ^ 20] (List.Perm.swap ..)
  exact ⟨_, s, L'', hsecond, hheap, hmap⟩

end LibcOverride.Strings

import LibcOverride.Lib.SparseFile
import LibcOverride.Memstream.Growth

/-!
# The stream and its file
(src/memstream_overrides.c:56-87, 151-185, 218-306)

A stream is open on an all-zero file; a store behind a grow is a write to it.
-/

namespace LibcOverride.Memstream
open Buffer

variable {α σ : Type}

/-! ### The buffer and the file -/

def Holds (b : List α) (cell : ℕ → α) : Prop := ∀ i, i < b.length → b[i]? = some (cell i)

theorem Holds.longer [Zero α] {b : List α} {cell : ℕ → α} (hb : Holds b cell)
    (hz : ∀ i, b.length ≤ i → cell i = 0) (k : ℕ) : Holds (b ++ List.replicate k 0) cell := by
  intro i hi
  rw [List.length_append, List.length_replicate] at hi
  rw [List.getElem?_append]
  split
  · rename_i hlt
    exact hb i hlt
  · rename_i hge
    rw [List.getElem?_replicate, if_pos (by omega), hz i (Nat.le_of_not_lt hge)]

theorem Holds.overwritten {b v : List α} {cell : ℕ → α} {p : ℕ} (hb : Holds b cell)
    (hv : p + v.length ≤ b.length) : Holds (overwritten b p v) (SparseFile.patched cell p v) := by
  intro i hi
  rw [length_overwritten hv] at hi
  rw [getElem?_overwritten hv]
  split
  · rename_i hin
    obtain ⟨k, rfl⟩ := Nat.exists_eq_add_of_le hin.1
    have hk : k < v.length := by omega
    rw [SparseFile.patched_at cell p hk, Nat.add_sub_cancel_left, List.getElem?_eq_getElem hk]
  · rename_i hout
    rw [SparseFile.patched_outside cell (by omega)]
    exact hb i hi

/-- The stream is the file, and its buffer holds zeros behind the end. -/
structure Shows [Zero α] (s : Stream α σ) (b : List α) (f : SparseFile α) : Prop where
  pos : s.cookie.pos = f.pos
  length : s.cookie.len = f.length
  size : s.sizep = f.size
  holds : Holds b f.cell
  tidy : f.Tidy

theorem Shows.fail [Zero α] {s : Stream α σ} {b : List α} {f : SparseFile α} (hs : Shows s b f)
    (e : Errno) : Shows (s.fail e) b f :=
  ⟨hs.pos, hs.length, hs.size, hs.holds, hs.tidy⟩

theorem Shows.seek [Zero α] {s : Stream α σ} {b : List α} {f : SparseFile α} (hs : Shows s b f)
    (p : ℕ) (state : σ) :
    Shows { s with cookie := { s.cookie with pos := p, state } } b (f.seek p) :=
  ⟨rfl, hs.length, hs.size, hs.holds, hs.tidy⟩

/-- A store of `v` behind a grow is a write of `v` to the file. -/
theorem stored [Zero α] {cap required : ℕ} {s s' : Stream α σ} {b b' v : List α}
    {f : SparseFile α} (hs : Sound cap s b) (hf : Shows s b f)
    (hr : Roomy cap s b required s' b') (hv : s.cookie.pos + v.length < required) (state : σ) :
    s'.copyIn v = some (s'.put (overwritten b' s.cookie.pos v)) ∧
      Sound cap (((s'.put (overwritten b' s.cookie.pos v)).withState state).advance v.length)
        (overwritten b' s.cookie.pos v) ∧
      Shows (((s'.put (overwritten b' s.cookie.pos v)).withState state).advance v.length)
        (overwritten b' s.cookie.pos v) (f.write v) := by
  have hroom := hr.room
  have hpos := hr.pos
  have hsize := hr.sound.size
  have hin : s.cookie.pos + v.length ≤ b'.length := by omega
  have hzero (i : ℕ) (hi : b.length ≤ i) : f.cell i = 0 := by
    have hlen := hs.len
    rw [hf.length] at hlen
    exact hf.tidy i (by omega)
  have hcopy := copyIn_eq hr.sound (v := v) (by omega)
  rw [hpos] at hcopy
  refine ⟨hcopy, ?_, ?_⟩
  · have hput := hr.sound.put (length_overwritten hin) (by omega)
    refine (hput.withState state).advance ?_
    change s'.cookie.pos + v.length < s'.cookie.space
    omega
  · obtain ⟨k, hk⟩ := hr.longer
    have hold : Holds b' f.cell := hk ▸ hf.holds.longer hzero k
    refine ⟨?_, ?_, ?_, ?_, SparseFile.tidy_write hf.tidy v⟩
    · change s'.cookie.pos + v.length = f.pos + v.length
      rw [hpos, hf.pos]
    · change (if s'.cookie.pos + v.length ≥ s'.cookie.len then s'.cookie.pos + v.length
        else s'.cookie.len) = max f.length (f.pos + v.length)
      rw [hpos, hr.len, hf.pos, hf.length]
      split <;> omega
    · change s'.cookie.pos + v.length = f.pos + v.length
      rw [hpos, hf.pos]
    · have hcell : (f.write v).cell = SparseFile.patched f.cell s.cookie.pos v := by
        rw [hf.pos]
        rfl
      rw [hcell]
      exact hold.overwritten hin

/-- What the caller sees of the file: the bytes below the length, and a
terminator inside the published buffer. -/
structure Presents [Zero α] (s : Stream α σ) (f : SparseFile α) : Prop where
  pos : s.cookie.pos = f.pos
  length : s.cookie.len = f.length
  size : s.sizep = f.size
  bufp : s.bufp = some s.cookie.buf
  elements : ∃ b, s.heap.read s.cookie.buf = some b ∧ (∀ i, i < f.length → b[i]? = some (f.cell i)) ∧
    b[f.length]? = some 0

theorem Shows.presents [Zero α] {cap : ℕ} {s : Stream α σ} {b : List α}
    {f : SparseFile α} (hs : Sound cap s b) (hf : Shows s b f) : Presents s f := by
  have hlen := hs.len
  rw [hf.length] at hlen
  refine ⟨hf.pos, hf.length, hf.size, hs.bufp, b, hs.read, ?_, ?_⟩
  · intro i hi
    exact hf.holds i (by omega)
  · rw [hf.holds f.length hlen, hf.tidy f.length le_rfl]

/-! ### Opening -/

/-- The stream of an open, with its two blocks. -/
def openedStream [Zero α] (w : World α) (state : σ) : Stream α σ where
  heap := (w.heap.alloc []).alloc [0]
  bufp := some (w.heap.next + 1)
  sizep := 0
  errno := w.errno
  self := w.heap.next
  cookie := ⟨0, w.heap.next + 1, 0, 0, state⟩

/-- What an open leaves. -/
def openResult [Zero α] (w : World α) (state : σ) (a : OpenAnswers α) : Opened α σ :=
  if a.cookie.granted = false then .null { w with errno := .enomem }
  else if a.buf.granted = false then
    .null { w with heap := (w.heap.alloc []).release w.heap.next, errno := .enomem }
  else
    match a.fopencookie with
    | none => .stream (openedStream w state)
    | some e =>
      .null { heap := (((w.heap.alloc []).alloc [0]).release (w.heap.next + 1)).release w.heap.next
              bufp := some (w.heap.next + 1), sizep := 0, errno := e }

theorem openStream_eq [Zero α] (w : World α) {sizeofCookie width : ℕ} (state : σ)
    (a : OpenAnswers α) (hc : sizeofCookie ≤ ptrdiffMax) (hw : width ≤ ptrdiffMax) :
    openStream w sizeofCookie width state a = some (openResult w state a) := by
  have hcookie : a.cookie.grants sizeofCookie = a.cookie.granted := by
    simp [Heap.Answer.grants, hc]
  have hbuf : a.buf.grants width = a.buf.granted := by simp [Heap.Answer.grants, hw]
  simp only [openStream, openResult, Heap.malloc, hcookie, hbuf]
  cases hgc : a.cookie.granted with
  | false => rfl
  | true =>
    have hnone : Heap.resized ([] : List α) 0 a.cookie.junk = [] := rfl
    have hself : (w.heap.alloc ([] : List α)).read w.heap.next = some [] := by
      rw [Heap.read_alloc, if_pos rfl]
    cases hgb : a.buf.granted with
    | false => simp [hnone, Heap.free_eq hself]
    | true =>
      have hbuf : ((w.heap.alloc ([] : List α)).alloc (Heap.resized [] 1 a.buf.junk)).read
          (w.heap.next + 1) = some (Heap.resized [] 1 a.buf.junk) := by
        rw [Heap.read_alloc, if_pos (Heap.next_alloc w.heap _).symm]
      have hcopy := Heap.copyIn_eq (i := 0) (v := [(0 : α)]) hbuf (by simp)
      have hone : overwritten (Heap.resized ([] : List α) 1 a.buf.junk) 0 [0] = [0] := rfl
      have hstore := Heap.store_alloc (w.heap.alloc ([] : List α)) (Heap.resized [] 1 a.buf.junk) [0]
      rw [Heap.next_alloc] at hstore
      rw [hone, hstore] at hcopy
      have hread : ((w.heap.alloc ([] : List α)).alloc [0]).read (w.heap.next + 1) = some [0] := by
        rw [Heap.read_alloc, if_pos (Heap.next_alloc w.heap _).symm]
      have hread' : (((w.heap.alloc ([] : List α)).alloc [0]).release (w.heap.next + 1)).read
          w.heap.next = some [] := by
        rw [Heap.read_release, if_neg (by omega), Heap.read_alloc, Heap.next_alloc,
          if_neg (by omega), hself]
      cases hf : a.fopencookie with
      | none => simp [hnone, hcopy, openedStream]
      | some e => simp [hnone, hcopy, Heap.free_eq hread, Heap.free_eq hread']

theorem openedStream_sound [Zero α] (cap : ℕ) (w : World α) (state : σ) :
    Sound cap (openedStream w state) [0] := by
  refine ⟨Nat.zero_le cap, Nat.zero_le cap, Nat.zero_lt_one, rfl, fun _ => rfl, ?_, rfl, ?_, ?_⟩
  · simp [openedStream, Heap.read_alloc]
  · simp [openedStream, Heap.read_alloc]
  · simp [openedStream]

theorem openedStream_shows [Zero α] (w : World α) (state : σ) :
    Shows (openedStream w state) [0] SparseFile.empty := by
  refine ⟨rfl, rfl, rfl, ?_, SparseFile.tidy_empty⟩
  intro i hi
  have hi0 : i = 0 := by simpa using hi
  subst hi0
  rfl

theorem openResult_stream [Zero α] {w : World α} {state : σ} {a : OpenAnswers α} {s : Stream α σ}
    (h : openResult w state a = .stream s) : s = openedStream w state := by
  unfold openResult at h
  split at h
  · cases h
  · split at h
    · cases h
    · split at h
      · cases h
        rfl
      · cases h

def emptyWorld (α : Type) : World α := ⟨⟨[]⟩, none, 0, .other 0⟩

def grantedAll (α : Type) [Zero α] : Heap.Answer α := ⟨true, fun _ => 0⟩

end LibcOverride.Memstream

import LibcOverride.Dirent.Scandir

/-!
# The vector and the copies
(src/dirent_overrides.c:28-53)

What an iteration keeps of the blocks made so far, also where it breaks.
-/

namespace LibcOverride.Dirent
open Buffer Heap

/-- The entries that go into the result; `i` counts those read before. -/
def selected (sel : Option Selector) : ℕ → List Read → List Entry
  | _, [] => []
  | i, r :: rest =>
    if (selects sel i r).1 then r.entry :: selected sel (i + 1) rest
    else selected sel (i + 1) rest

/-- The records of a call that began at `w₀`, in the order of their making. -/
def pointers (w₀ : World) (n : ℕ) : List ℕ := List.range' w₀.records.next n

/-- The blocks of a call that began at `w₀` and has copied `done`. -/
structure Made (w₀ w : World) (v : Vars) (b : List (Option ℕ)) (done : List Entry) : Prop where
  vectors : Since w₀.vectors w.vectors v.names.toList
  records : Since w₀.records w.records (pointers w₀ done.length)
  next : w.records.next = w₀.records.next + done.length
  vector : w.vectors.Holds v.names b
  front : b.take done.length = (pointers w₀ done.length).map some
  copied : (pointers w₀ done.length).map w.records.read = done.map fun e => some e.bytes
  count : v.count = done.length
  res : w.res = w₀.res
  streams : w.streams = w₀.streams

/-- The head of the loop. -/
structure Inv (w₀ w : World) (v : Vars) (b : List (Option ℕ)) (done : List Entry) : Prop where
  made : Made w₀ w v b done
  capacity : b.length = v.capacity
  room : done.length ≤ v.capacity
  small : v.capacity ≤ 2 * done.length + 1
  asked : ∃ ops, w.asked = w₀.asked ++ ops ∧ ∀ op ∈ ops, op.granted = true

/-- After a `break`. -/
structure Broken (w₀ w : World) (v : Vars) (b : List (Option ℕ)) (done : List Entry) : Prop where
  made : Made w₀ w v b done
  errno : w.errno ≠ 0
  asked : ∃ ops, w.asked = w₀.asked ++ ops ∧ ∃ op ∈ ops, op.granted = false

theorem pointers_succ (w₀ : World) (n : ℕ) :
    pointers w₀ (n + 1) = pointers w₀ n ++ [w₀.records.next + n] := by
  rw [pointers, List.range'_concat]
  simp [pointers]

theorem Made.length_le {w₀ w : World} {v : Vars} {b : List (Option ℕ)} {done : List Entry}
    (hm : Made w₀ w v b done) : done.length ≤ b.length := by
  have h := congrArg List.length hm.front
  simp only [List.length_take, List.length_map, pointers, List.length_range'] at h
  omega

/-- Only the heaps, `*res` and the open directories matter. -/
theorem Made.of_eq {w₀ w w' : World} {v v' : Vars} {b : List (Option ℕ)} {done : List Entry}
    (hm : Made w₀ w v b done) (hvec : w'.vectors = w.vectors) (hrec : w'.records = w.records)
    (hres : w'.res = w.res) (hstr : w'.streams = w.streams) (hnames : v'.names = v.names)
    (hcount : v'.count = v.count) : Made w₀ w' v' b done := by
  refine ⟨?_, ?_, ?_, ?_, hm.front, ?_, hcount.trans hm.count, hres.trans hm.res,
    hstr.trans hm.streams⟩
  · rw [hvec, hnames]
    exact hm.vectors
  · rw [hrec]
    exact hm.records
  · rw [hrec]
    exact hm.next
  · rw [hvec, hnames]
    exact hm.vector
  · rw [hrec]
    exact hm.copied

theorem reallocNames_spec {w₀ w : World} {v : Vars} {b : List (Option ℕ)} {done : List Entry}
    (hm : Made w₀ w v b done) (env : Env) {capacity : ℕ} (hroom : done.length ≤ capacity) :
    (∃ p w' b', reallocNames env w { v with capacity } = some (some p, w') ∧
        Made w₀ w' ⟨some p, v.count, capacity⟩ b' done ∧ b'.length = capacity ∧
        ∃ op, w'.asked = w.asked ++ [op] ∧ op.granted = true) ∨
      (∃ w', reallocNames env w { v with capacity } = some (none, w') ∧
        Made w₀ w' { v with capacity } b done ∧ w'.errno ≠ 0 ∧
        ∃ op, w'.asked = w.asked ++ [op] ∧ op.granted = false) := by
  obtain ⟨vectors, hresize, hsince, hread⟩ := hm.vectors.resize hm.vector (Word.mul capacity 8)
    capacity ⟨(env w.asked.length).granted, (env w.asked.length).pointers⟩
  simp only [reallocNames, hresize, Option.map_some]
  split
  · left
    refine ⟨w.vectors.next, _, _, rfl, ⟨hsince, hm.records, hm.next, .block _ _ rfl hread, ?_,
      hm.copied, hm.count, hm.res, hm.streams⟩, ?_, _, rfl, rfl⟩
    · rw [take_resized _ hm.length_le hroom]
      exact hm.front
    · exact length_resized _ _ _
  · right
    refine ⟨_, rfl, hm.of_eq rfl rfl rfl rfl rfl rfl, ?_, _, rfl, rfl⟩
    exact (env w.asked.length).failure.2

theorem makeRoom_spec {w₀ w : World} {v : Vars} {b : List (Option ℕ)} {done : List Entry}
    (hi : Inv w₀ w v b done) (env : Env) (hmax : done.length < intMax) :
    (∃ w' v' b', makeRoom env w v = some (true, w', v') ∧ Inv w₀ w' v' b' done ∧
        done.length < v'.capacity) ∨
      (∃ w' v', makeRoom env w v = some (false, w', v') ∧ Broken w₀ w' v' b done) := by
  obtain ⟨hm, hcap, hroom, hsmall, rs, hrs, hall⟩ := hi
  rw [intMax] at hmax
  have hcount := hm.count
  rw [makeRoom]
  split
  · rename_i hfull
    have hnew : Word.add (Word.mul 2 v.capacity) 1 = 2 * v.capacity + 1 := by
      simp only [Word.add, Word.mul]
      omega
    have hfits : ¬2 * v.capacity + 1 > Word.sizeMax / 8 := by
      simp only [Word.sizeMax]
      omega
    simp only [hnew, if_neg hfits]
    rcases @reallocNames_spec _ _ _ _ _ hm env (2 * v.capacity + 1) (by omega) with
      ⟨p, w', b', hrun, hm', hlen, op, hasked, hop⟩ | ⟨w', hrun, hm', herrno, op, hasked, hop⟩
    · left
      refine ⟨w', ⟨some p, v.count, 2 * v.capacity + 1⟩, b', by rw [hrun]; rfl,
        ⟨hm', hlen, ?_, ?_, rs ++ [op], ?_, ?_⟩, ?_⟩
      · dsimp only
        omega
      · dsimp only
        omega
      · rw [hasked, hrs, List.append_assoc]
      · exact List.forall_mem_append.mpr ⟨hall, by simpa using hop⟩
      · dsimp only
        omega
    · right
      refine ⟨w', { v with capacity := 2 * v.capacity + 1 }, by rw [hrun]; rfl, hm', herrno,
        rs ++ [op], ?_, op, by simp, hop⟩
      rw [hasked, hrs, List.append_assoc]
  · rename_i hfree
    left
    exact ⟨w, v, b, rfl, ⟨hm, hcap, hroom, hsmall, rs, hrs, hall⟩, by omega⟩

theorem overwritten_all {α : Type} {b v : List α} (h : v.length = b.length) :
    overwritten b 0 v = v := by
  simp [overwritten, h]

/-- The element behind the copies is set, whatever the answer. -/
theorem Made.set {w₀ w : World} {v : Vars} {b : List (Option ℕ)} {done : List Entry}
    (hm : Made w₀ w v b done) (hroom : done.length < b.length) (q : Option ℕ) :
    ∃ p vectors, v.names = some p ∧ w.vectors.copyIn p v.count [q] = some vectors ∧
      Made w₀ { w with vectors } v (overwritten b done.length [q]) done := by
  have hfit : done.length + [q].length ≤ b.length := hroom
  cases hb : hm.vector with
  | null hp => simp at hroom
  | block p b hp hr =>
    refine ⟨p, w.vectors.store p (overwritten b done.length [q]), hp, ?_, ⟨?_, hm.records, hm.next,
      .block p _ hp ?_, ?_, hm.copied, hm.count, hm.res, hm.streams⟩⟩
    · rw [hm.count]
      exact copyIn_eq hr hfit
    · exact hm.vectors.store (by simp [hp]) _
    · rw [read_store, if_pos rfl, hr]
      rfl
    · rw [overwritten, List.take_append_of_le_length (by rw [List.length_take]; omega),
        List.take_of_length_le (by rw [List.length_take]; omega)]
      exact hm.front

theorem Made.push {w₀ w : World} {v : Vars} {b : List (Option ℕ)} {done : List Entry}
    (hm : Made w₀ w v b done) (hb : b[done.length]? = some (some w.records.next)) (e : Entry) :
    Made w₀ { w with records := w.records.alloc e.bytes } { v with count := v.count + 1 } b
      (done ++ [e]) := by
  have hnext := hm.next
  have hlen : (done ++ [e]).length = done.length + 1 := by simp
  refine ⟨hm.vectors, ?_, ?_, hm.vector, ?_, ?_, ?_, hm.res, hm.streams⟩
  · rw [hlen, pointers_succ, ← hnext]
    exact (hm.records.alloc e.bytes).perm (List.perm_append_singleton _ _).symm
  · rw [hlen, next_alloc]
    omega
  · rw [hlen, pointers_succ, List.take_add_one, hm.front, hb, hnext]
    simp
  · rw [hlen, pointers_succ, List.map_append, List.map_append, ← hm.copied]
    congr 1
    · refine List.map_congr_left fun q hq => ?_
      simp only [pointers, List.mem_range'_1] at hq
      rw [read_alloc, if_neg (by omega)]
    · simp [read_alloc, hnext]
  · rw [hlen]
    exact congrArg (fun n => n + 1) hm.count

theorem copyEntry_spec {w₀ w : World} {v : Vars} {b : List (Option ℕ)} {done : List Entry}
    (hi : Inv w₀ w v b done) (hlt : done.length < v.capacity) (env : Env) (e : Entry)
    (hmax : done.length < intMax) :
    (∃ w' v' b', copyEntry env w v e = some (true, w', v') ∧ Inv w₀ w' v' b' (done ++ [e])) ∨
      (∃ w' v' b', copyEntry env w v e = some (false, w', v') ∧ Broken w₀ w' v' b' done) := by
  obtain ⟨hm, hcap, hroom, hsmall, rs, hrs, hall⟩ := hi
  rw [intMax] at hmax
  obtain ⟨p, vectors, hp, hcopy, hset⟩ :=
    hm.set (by omega) (mallocEntry env w e).1
  by_cases hg : Answer.grants ⟨(env w.asked.length).granted, (env w.asked.length).bytes⟩
      e.bytes.length = true
  · left
    have hmalloc : mallocEntry env w e = (some w.records.next,
        { w.answered (env w.asked.length) (w.mallocOp e true) with
          records := w.records.alloc (resized [] e.bytes.length (env w.asked.length).bytes) }) := by
      simp [mallocEntry, malloc, hg]
    rw [hmalloc] at hcopy hset
    have hread : (w.records.alloc (resized [] e.bytes.length (env w.asked.length).bytes)).read
        w.records.next = some (resized [] e.bytes.length (env w.asked.length).bytes) := by
      rw [read_alloc, if_pos rfl]
    have hfull : overwritten (resized [] e.bytes.length (env w.asked.length).bytes) 0 e.bytes =
        e.bytes := overwritten_all (by simp)
    have hrecord := copyIn_eq hread (i := 0) (v := e.bytes) (by simp)
    rw [hfull, store_alloc] at hrecord
    have hcount := hm.count
    have hadd : Word.add v.count 1 = v.count + 1 := by
      rw [Word.add]
      omega
    have hfit : done.length + [some w.records.next].length ≤ b.length := by
      rw [List.length_singleton]
      omega
    have hput : (overwritten b done.length [some w.records.next])[done.length]? =
        some (some w.records.next) := by
      rw [getElem?_overwritten hfit, if_pos (by simp)]
      simp
    refine ⟨{ w.answered (env w.asked.length) (w.mallocOp e true) with
        vectors, records := w.records.alloc e.bytes }, { v with count := v.count + 1 },
      overwritten b done.length [some w.records.next], ?_,
      ⟨(hset.push hput e).of_eq rfl rfl rfl rfl rfl rfl, ?_, ?_, ?_, rs ++ [w.mallocOp e true],
        ?_, ?_⟩⟩
    · simp [copyEntry, hmalloc, hp, World.answered, hcopy, hrecord, hadd]
    · rw [length_overwritten hfit]
      exact hcap
    · rw [List.length_append, List.length_singleton]
      exact hlt
    · rw [List.length_append, List.length_singleton]
      dsimp only
      omega
    · simp [World.answered, hrs]
    · exact List.forall_mem_append.mpr ⟨hall, List.forall_mem_singleton.mpr rfl⟩
  · right
    have hmalloc : mallocEntry env w e =
        (none, w.answered (env w.asked.length) (w.mallocOp e false)) := by
      simp [mallocEntry, malloc, hg, World.answered]
    rw [hmalloc] at hcopy hset
    refine ⟨{ w.answered (env w.asked.length) (w.mallocOp e false) with vectors }, v,
      overwritten b done.length [none], ?_, ?_⟩
    · simp [copyEntry, hmalloc, hp, World.answered, hcopy]
    · refine ⟨hset.of_eq rfl rfl rfl rfl rfl rfl, (env w.asked.length).failure.2,
        rs ++ [w.mallocOp e false], ?_, w.mallocOp e false, by simp, rfl⟩
      simp [World.answered, hrs]

theorem Inv.of_errno {w₀ w : World} {v : Vars} {b : List (Option ℕ)} {done : List Entry}
    (hi : Inv w₀ w v b done) (errno : ℕ) : Inv w₀ { w with errno } v b done :=
  ⟨hi.made.of_eq rfl rfl rfl rfl rfl rfl, hi.capacity, hi.room, hi.small, hi.asked⟩

/-- The loop, by induction on the entries that are left. -/
theorem readLoop_spec {w₀ w : World} {v : Vars} {b : List (Option ℕ)} {done : List Entry}
    (hi : Inv w₀ w v b done) (env : Env) (sel : Option Selector) (failure : Option Failure) (i : ℕ)
    (reads : List Read) (hmax : (done ++ selected sel i reads).length ≤ intMax) :
    ∃ w' v' b', readLoop env sel failure i reads w v = some (w', v') ∧
      (Inv w₀ w' v' b' (done ++ selected sel i reads) ∧ w'.errno = failure.elim 0 (·.1) ∨
        ∃ done', Broken w₀ w' v' b' done') := by
  induction reads generalizing i w v b done with
  | nil =>
    refine ⟨_, v, b, rfl, Or.inl ⟨?_, rfl⟩⟩
    rw [selected, List.append_nil]
    exact hi.of_errno _
  | cons r rest ih =>
    simp only [readLoop, selected] at hmax ⊢
    cases hsel : selects sel i r with
    | mk take errno =>
      rw [hsel] at hmax
      have hi₁ := hi.of_errno errno
      cases take with
      | false => exact ih hi₁ (i + 1) hmax
      | true =>
        have hlt : done.length < intMax := by
          simp only [if_true, List.length_append, List.length_cons] at hmax
          omega
        rcases makeRoom_spec hi₁ env hlt with ⟨w₂, v₂, b₂, hroom, hi₂, hfree⟩ | ⟨w₂, v₂, hroom, hb⟩
        · rcases copyEntry_spec hi₂ hfree env r.entry hlt with
            ⟨w₃, v₃, b₃, hcopy, hi₃⟩ | ⟨w₃, v₃, b₃, hcopy, hb⟩
          · have hassoc : done ++ r.entry :: selected sel (i + 1) rest =
                (done ++ [r.entry]) ++ selected sel (i + 1) rest := by simp
            simp only [if_true, hassoc] at hmax ⊢
            simpa only [hroom, hcopy, Option.bind_eq_bind, Option.bind_some] using
              ih hi₃ (i + 1) hmax
          · refine ⟨w₃, v₃, b₃, ?_, Or.inr ⟨done, hb⟩⟩
            simp [hroom, hcopy]
        · refine ⟨w₂, v₂, b, ?_, Or.inr ⟨done, hb⟩⟩
          simp [hroom]

end LibcOverride.Dirent

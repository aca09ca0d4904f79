import LibcOverride.Path.WorkingDirectory

/-!
# tempnam
(src/path_overrides.c:258-297, src/helpers.c:20-36)

Six letters from the clock and the thread's number end the name; it is taken once
`readlink` finds nothing there. `none` is an access outside a buffer.
-/

namespace LibcOverride.Path.Tempnam
open Buffer PathTree WorkingDirectory

abbrev maxTries : ℕ := 100
abbrev underscore : UInt8 := 95
/-- `/tmp` -/
abbrev pTmpdir : List UInt8 := [slash, 116, 109, 112, 0]
/-- `temp` -/
abbrev defaultPfx : List UInt8 := [116, 101, 109, 112, 0]

/-- The capitals, the small letters and the digits. -/
def alphabet : List UInt8 :=
  (List.range' 65 26 ++ List.range' 97 26 ++ List.range' 48 10).map UInt8.ofNat

/-- `clock_gettime` and `gettid`, as `unsigned long`. -/
structure Stamp where
  sec : UInt64
  nsec : UInt64
  tid : UInt64
  deriving Repr, DecidableEq

/-! ### The functions -/

/-- `start` is `template_buf` in `path`; `n` letters are left. -/
def putLetters (path : List UInt8) (start : ℕ) : ℕ → ℕ → UInt64 → Option (List UInt8)
  | 0, _, _ => some path
  | n + 1, i, value => do
    let c ← alphabet[(value % 62).toNat]?
    let path ← put path (start + i) c
    putLetters path start n (i + 1)
      ((value >>> 5) ^^^ (value <<< 11) ^^^ UInt64.ofNat (i * 97 + 13))

def aoRandname (stamp : Stamp) (path : List UInt8) (start : ℕ) : Option (List UInt8) :=
  putLetters path start 6 0 (stamp.sec ^^^ stamp.nsec ^^^ (stamp.tid * 65537))

/-- `null none` is NULL with what the last `readlink` left in `errno`. -/
inductive Outcome where
  | path (bytes : List UInt8)
  | null (e : Option Errno)
  deriving Repr, DecidableEq

def Outcome.ofResult : Result → Outcome
  | .path bytes => .path bytes
  | .null e => .null (some e)

/-- The loop, with the attempts that are left. -/
def attempts (env : Env) (stamp : List Query → Stamp) (totalLen : ℕ) :
    ℕ → List UInt8 → List Query → Option (Outcome × List Query)
  | 0, _, trace => some (.null none, trace)
  | n + 1, path, trace => do
    let start ← minus totalLen 6
    let path ← aoRandname (stamp trace) path start
    let text ← cString path
    let answer := env.readlink trace text 1
    let trace := trace ++ [.readlink text 1 answer]
    if answer = .failed .enoent then
      let (result, trace) := strdup env trace text
      some (.ofResult result, trace)
    else attempts env stamp totalLen n path trace

/-- `path` is what the local buffer holds before the call. -/
def tempnam (env : Env) (stamp : List Query → Stamp) (path : List UInt8)
    (dir pfx : Option (List UInt8)) : Option (Outcome × List Query) := do
  let dir := dir.getD pTmpdir
  let pfx := pfx.getD defaultPfx
  let dirLen ← (cString dir).map List.length
  let pfxLen ← (cString pfx).map List.length
  let totalLen := dirLen + 1 + pfxLen + 1 + 6
  if totalLen ≥ pathMax then some (.null (some .enametoolong), [])
  else do
    let front ← slice dir 0 dirLen
    let path ← blit path 0 front
    let path ← put path dirLen slash
    let middle ← slice pfx 0 pfxLen
    let path ← blit path (dirLen + 1) middle
    let path ← put path (dirLen + 1 + pfxLen) underscore
    let path ← put path totalLen 0
    attempts env stamp totalLen maxTries path []

variable {env : Env} {stamp : List Query → Stamp} {front mid rest dir pfx path : List UInt8}
  {trace : List Query} {n i : ℕ}

/-! ### The letters -/

theorem alphabet_plain : ∀ c ∈ alphabet, c ≠ 0 ∧ c ≠ slash := by
  have hall : alphabet.all (fun c => c != 0 && c != slash) = true := by decide
  simpa using hall

/-- Six letters. -/
structure IsSuffix (letters : List UInt8) : Prop where
  length : letters.length = 6
  letter : ∀ c ∈ letters, c ∈ alphabet

theorem putLetters_stores (n : ℕ) : ∀ (done todo : List UInt8) (value : UInt64),
    todo.length = n →
    ∃ letters, letters.length = n ∧ (∀ c ∈ letters, c ∈ alphabet) ∧
      putLetters (front ++ done ++ todo ++ rest) front.length n done.length value =
        some (front ++ done ++ letters ++ rest) := by
  induction n with
  | zero =>
    intro done todo value htodo
    obtain rfl := List.eq_nil_of_length_eq_zero htodo
    exact ⟨[], rfl, by simp, rfl⟩
  | succ n ih =>
    intro done todo value htodo
    obtain ⟨d, todo, rfl⟩ := List.exists_cons_of_length_eq_add_one htodo
    have hlt : (value % 62).toNat < alphabet.length := by
      have hmod := Nat.mod_lt value.toNat (show 0 < 62 by decide)
      have hlength : alphabet.length = 62 := rfl
      rw [hlength, UInt64.toNat_mod]
      exact hmod
    obtain ⟨c, hc⟩ : ∃ c, alphabet[(value % 62).toNat]? = some c := ⟨_, List.getElem?_eq_getElem hlt⟩
    have hput : put (front ++ done ++ d :: todo ++ rest) (front.length + done.length) c =
        some (front ++ (done ++ [c]) ++ todo ++ rest) := by
      rw [put_append c (x := front ++ done) (v := d) (y := todo ++ rest) (by simp) (by simp)]
      simp
    obtain ⟨letters, hlen, hall, hrest⟩ := ih (done ++ [c]) todo
      ((value >>> 5) ^^^ (value <<< 11) ^^^ UInt64.ofNat (done.length * 97 + 13)) (by simpa using htodo)
    rw [List.length_append, List.length_singleton] at hrest
    refine ⟨c :: letters, by simpa using hlen, ?_, ?_⟩
    · exact List.forall_mem_cons.mpr ⟨List.mem_of_getElem? hc, hall⟩
    · rw [putLetters, hc, Option.bind_eq_bind, Option.bind_some, hput, Option.bind_eq_bind,
        Option.bind_some, hrest]
      simp

theorem aoRandname_stores (s : Stamp) (hmid : mid.length = 6) :
    ∃ letters, IsSuffix letters ∧
      aoRandname s (front ++ mid ++ rest) front.length = some (front ++ letters ++ rest) := by
  obtain ⟨letters, hlen, hall, hput⟩ := @putLetters_stores front rest 6 [] mid
    (s.sec ^^^ s.nsec ^^^ (s.tid * 65537)) hmid
  rw [List.append_nil, List.length_nil] at hput
  exact ⟨letters, ⟨hlen, hall⟩, hput⟩

/-! ### The attempts -/

/-- Names that were tried one after the other, where `readlink` did not miss them. -/
inductive Tried (env : Env) (front : List UInt8) : List Query → Prop
  | nil : Tried env front []
  | snoc {tries : List Query} {letters : List UInt8} (h : Tried env front tries)
      (hs : IsSuffix letters) (ht : env.readlink tries (front ++ letters) 1 ≠ .failed .enoent) :
      Tried env front
        (tries ++ [.readlink (front ++ letters) 1 (env.readlink tries (front ++ letters) 1)])

/-- What a call of at most `k` attempts ends with: the first name that `readlink`
misses in a new string, NULL if there is no memory for that, or `k` names that it
does not miss. -/
inductive Ends (env : Env) (front : List UInt8) (k : ℕ) : Outcome × List Query → Prop
  | found {letters : List UInt8} {tries : List Query} (ht : Tried env front tries)
      (hk : tries.length < k) (hs : IsSuffix letters)
      (h : env.readlink tries (front ++ letters) 1 = .failed .enoent)
      (hmalloc : env.malloc (tries ++ [.readlink (front ++ letters) 1 (.failed .enoent)])
        ((front ++ letters).length + 1) = true) :
      Ends env front k (.path (front ++ letters ++ [0]),
        tries ++ [.readlink (front ++ letters) 1 (.failed .enoent)] ++
          [.malloc ((front ++ letters).length + 1) true])
  | noMemory {letters : List UInt8} {tries : List Query} (ht : Tried env front tries)
      (hk : tries.length < k) (hs : IsSuffix letters)
      (h : env.readlink tries (front ++ letters) 1 = .failed .enoent)
      (hmalloc : env.malloc (tries ++ [.readlink (front ++ letters) 1 (.failed .enoent)])
        ((front ++ letters).length + 1) = false) :
      Ends env front k (.null (some .enomem),
        tries ++ [.readlink (front ++ letters) 1 (.failed .enoent)] ++
          [.malloc ((front ++ letters).length + 1) false])
  | exhausted {tries : List Query} (ht : Tried env front tries) (hk : tries.length = k) :
      Ends env front k (.null none, tries)

theorem attempts_ends {k : ℕ} (hfront : NulFree front) (n : ℕ) : ∀ (mid : List UInt8)
    (trace : List Query), mid.length = 6 → trace.length + n = k → Tried env front trace →
    ∃ r, attempts env stamp (front.length + 6) n (front ++ mid ++ 0 :: rest) trace = some r ∧
      Ends env front k r := by
  induction n with
  | zero =>
    intro mid trace _ hk ht
    exact ⟨_, rfl, .exhausted ht hk⟩
  | succ n ih =>
    intro mid trace hmid hk ht
    obtain ⟨letters, hsuffix, hrand⟩ :=
      @aoRandname_stores front mid (0 :: rest) (stamp trace) hmid
    have hletters : NulFree letters := fun c hc => (alphabet_plain c (hsuffix.letter c hc)).1
    have hstring := cString_text (List.forall_mem_append.mpr ⟨hfront, hletters⟩) rest
    have hstart : minus (front.length + 6) 6 = some front.length := minus_of_le (by omega)
    unfold attempts
    simp only [hstart, hrand, hstring, Option.bind_eq_bind, Option.bind_some]
    by_cases hanswer : env.readlink trace (front ++ letters) 1 = .failed .enoent
    · rw [if_pos hanswer, hanswer]
      refine ⟨_, rfl, ?_⟩
      unfold strdup
      dsimp only
      split
      · rename_i hmalloc
        rw [hmalloc]
        exact .found ht (by omega) hsuffix hanswer hmalloc
      · rename_i hmalloc
        rw [Bool.not_eq_true] at hmalloc
        rw [hmalloc]
        exact .noMemory ht (by omega) hsuffix hanswer hmalloc
    · rw [if_neg hanswer]
      refine ih letters _ hsuffix.length ?_ (ht.snoc hsuffix hanswer)
      rw [List.length_append, List.length_singleton]
      omega

/-! ### A call -/

/-- What every candidate starts with. -/
def stem (dir pfx : List UInt8) : List UInt8 := dir ++ slash :: (pfx ++ [underscore])

theorem length_stem (dir pfx : List UInt8) : (stem dir pfx).length = dir.length + 1 + pfx.length + 1 := by
  simp only [stem, List.length_append, List.length_cons, List.length_nil]
  omega

theorem nulFree_stem (hdir : NulFree dir) (hpfx : NulFree pfx) : NulFree (stem dir pfx) := by
  refine List.forall_mem_append.mpr ⟨hdir, List.forall_mem_cons.mpr ⟨by decide, ?_⟩⟩
  exact List.forall_mem_append.mpr ⟨hpfx, nulFree_of_all rfl⟩

theorem tempnam_ends {dirArg pfxArg : Option (List UInt8)} {after after' : List UInt8}
    (hdirArg : dirArg.getD pTmpdir = dir ++ 0 :: after) (hdir : NulFree dir)
    (hpfxArg : pfxArg.getD defaultPfx = pfx ++ 0 :: after') (hpfx : NulFree pfx)
    (hpath : path.length = pathMax) (hlen : (stem dir pfx).length + 6 < pathMax) :
    ∃ r, tempnam env stamp path dirArg pfxArg = some r ∧ Ends env (stem dir pfx) maxTries r := by
  have hsize := length_stem dir pfx
  rw [hsize] at hlen
  obtain ⟨b₁, path₁, rfl, h₁⟩ := exists_split (y := path) (n := dir.length) (by omega)
  obtain ⟨c₁, path₂, rfl⟩ := List.exists_cons_of_length_pos (l := path₁) (by simp at hpath; omega)
  obtain ⟨b₂, path₃, rfl, h₂⟩ := exists_split (y := path₂) (n := pfx.length) (by simp at hpath; omega)
  obtain ⟨c₂, path₄, rfl⟩ := List.exists_cons_of_length_pos (l := path₃) (by simp at hpath; omega)
  obtain ⟨mid, path₅, rfl, h₃⟩ := exists_split (y := path₄) (n := 6) (by simp at hpath; omega)
  obtain ⟨c₃, rest, rfl⟩ := List.exists_cons_of_length_pos (l := path₅) (by simp at hpath; omega)
  have hdirLen : (cString (dir ++ 0 :: after)).map List.length = some dir.length := by
    rw [cString_text hdir, Option.map_some]
  have hpfxLen : (cString (pfx ++ 0 :: after')).map List.length = some pfx.length := by
    rw [cString_text hpfx, Option.map_some]
  have hdirBytes : slice (dir ++ 0 :: after) 0 dir.length = some dir :=
    slice_append (x := []) (m := dir) (y := 0 :: after) rfl rfl rfl
  have hpfxBytes : slice (pfx ++ 0 :: after') 0 pfx.length = some pfx :=
    slice_append (x := []) (m := pfx) (y := 0 :: after') rfl rfl rfl
  have hfirst : blit (b₁ ++ c₁ :: (b₂ ++ c₂ :: (mid ++ c₃ :: rest))) 0 dir =
      some (dir ++ c₁ :: (b₂ ++ c₂ :: (mid ++ c₃ :: rest))) :=
    blit_append (x := []) (m := b₁) rfl rfl h₁.symm
  have hslash : put (dir ++ c₁ :: (b₂ ++ c₂ :: (mid ++ c₃ :: rest))) dir.length slash =
      some (dir ++ slash :: (b₂ ++ c₂ :: (mid ++ c₃ :: rest))) := put_append slash rfl rfl
  have hsecond : blit (dir ++ slash :: (b₂ ++ c₂ :: (mid ++ c₃ :: rest))) (dir.length + 1) pfx =
      some (dir ++ [slash] ++ (pfx ++ c₂ :: (mid ++ c₃ :: rest))) :=
    blit_append (x := dir ++ [slash]) (m := b₂) (by simp) (by simp) h₂.symm
  have hunder : put (dir ++ [slash] ++ (pfx ++ c₂ :: (mid ++ c₃ :: rest)))
      (dir.length + 1 + pfx.length) underscore =
      some (dir ++ [slash] ++ pfx ++ underscore :: (mid ++ c₃ :: rest)) :=
    put_append underscore (x := dir ++ [slash] ++ pfx) (v := c₂) (by simp) (by simp; omega)
  have hend : put (dir ++ [slash] ++ pfx ++ underscore :: (mid ++ c₃ :: rest))
      (dir.length + 1 + pfx.length + 1 + 6) 0 = some (stem dir pfx ++ mid ++ 0 :: rest) := by
    refine (put_append 0 (x := stem dir pfx ++ mid) (v := c₃) (by simp [stem]) ?_).trans rfl
    rw [List.length_append, hsize, h₃]
  unfold tempnam
  simp only [hdirArg, hpfxArg, hdirLen, hpfxLen, hdirBytes, hpfxBytes, hfirst, hslash, hsecond,
    hunder, hend, Option.bind_eq_bind, Option.bind_some]
  rw [if_neg (by omega), ← hsize]
  exact attempts_ends (nulFree_stem hdir hpfx) maxTries mid [] h₃ rfl .nil

theorem tempnam_long {dirArg pfxArg : Option (List UInt8)} {after after' : List UInt8}
    (hdirArg : dirArg.getD pTmpdir = dir ++ 0 :: after) (hdir : NulFree dir)
    (hpfxArg : pfxArg.getD defaultPfx = pfx ++ 0 :: after') (hpfx : NulFree pfx)
    (hlen : pathMax ≤ (stem dir pfx).length + 6) :
    tempnam env stamp path dirArg pfxArg = some (.null (some .enametoolong), []) := by
  rw [length_stem] at hlen
  unfold tempnam
  simp only [hdirArg, hpfxArg, cString_text hdir, cString_text hpfx, Option.map_some,
    Option.bind_eq_bind, Option.bind_some]
  exact if_pos hlen

/-! ### On a file tree -/

variable {Node : Type} {t : FileTree Node} {cwd : Node} {dirs : List (List UInt8)}
  {letters : List UInt8}

/-- `readlink` answers ENOENT for no name that there is. -/
theorem enoent_absent (hs : env.Serves t cwd dirs) {text : List UInt8} (hlen : text.length < pathMax)
    (h : env.readlink trace text 1 = .failed .enoent) (m : Node) : ¬Locates t cwd text m := by
  intro hm
  cases hk : t.kind m with
  | link target =>
    rw [hs.link trace text 1 m target hlen Nat.one_pos hm hk] at h
    cases h
  | dir =>
    rw [hs.noLink trace text 1 m hlen Nat.one_pos hm (by rw [hk]; rfl)] at h
    cases h
  | file =>
    rw [hs.noLink trace text 1 m hlen Nat.one_pos hm (by rw [hk]; rfl)] at h
    cases h

theorem isName_suffixed (hp : Plain pfx) (hs : IsSuffix letters) :
    IsName (pfx ++ underscore :: letters) := by
  have hlen : 7 ≤ (pfx ++ underscore :: letters).length := by
    rw [List.length_append, List.length_cons, hs.length]
    omega
  refine ⟨fun h => ?_, ?_, fun h => ?_, fun h => ?_⟩
  · rw [h] at hlen
    exact absurd hlen (by decide)
  · refine List.forall_mem_append.mpr ⟨hp, List.forall_mem_cons.mpr ⟨by decide, ?_⟩⟩
    exact fun c hc => alphabet_plain c (hs.letter c hc)
  · rw [h] at hlen
    exact absurd hlen (by decide)
  · rw [h] at hlen
    exact absurd hlen (by decide)

/-- An entry of the directory is found under the candidate's text. -/
theorem locates_entry (hp : Plain pfx) (hs : IsSuffix letters) {node m : Node}
    (hnode : Names t cwd dir node) (hm : t.child node (pfx ++ underscore :: letters) = some m) :
    Locates t cwd (stem dir pfx ++ letters) m := by
  have hne : dir ≠ [] := by
    rintro rfl
    obtain ⟨r, hr, _⟩ := hnode
    cases hr
  have htext : stem dir pfx ++ letters = dir ++ slash :: (pfx ++ underscore :: letters) := by
    simp [stem]
  have habs : isAbsolute (dir ++ slash :: (pfx ++ underscore :: letters)) = isAbsolute dir := by
    unfold isAbsolute
    rw [List.head?_append_of_ne_nil _ hne]
  have hname := isName_suffixed hp hs
  rw [htext, locates_text (by simp), habs, components_slash, components_plain hname.plain,
    componentOf_name hname]
  exact .last ((names_text hne).mp hnode) hm

/-- The call returns, inside its buffer, with a new string only for the first name that
`readlink` did not find: nothing is there, and the directory has no such entry.
It is NULL for a name that would not fit, without a look at the file system, for
a failure of that string's `malloc`, or after a hundred names. -/
theorem tempnam_absent {Node : Type} (t : FileTree Node) (cwd : Node) (dirs : List (List UInt8))
    (env : Env) (hs : env.Serves t cwd dirs) (stamp : List Query → Stamp) (path : List UInt8)
    (hpath : path.length = pathMax) (dirArg pfxArg : Option (List UInt8))
    (dir after pfx after' : List UInt8) (hdirArg : dirArg.getD pTmpdir = dir ++ 0 :: after)
    (hdir : NulFree dir) (hpfxArg : pfxArg.getD defaultPfx = pfx ++ 0 :: after')
    (hpfx : NulFree pfx) :
    ∃ r, tempnam env stamp path dirArg pfxArg = some r ∧
      (pathMax ≤ (stem dir pfx).length + 6 → r = (.null (some .enametoolong), [])) ∧
      ((stem dir pfx).length + 6 < pathMax → Ends env (stem dir pfx) maxTries r) ∧
      ∀ bytes, r.1 = .path bytes → ∃ letters, IsSuffix letters ∧
        bytes = stem dir pfx ++ letters ++ [0] ∧ bytes.length ≤ pathMax ∧
        (∀ m, ¬Locates t cwd (stem dir pfx ++ letters) m) ∧
        (Plain pfx → ∀ node, Names t cwd dir node →
          t.child node (pfx ++ underscore :: letters) = none) := by
  by_cases hlen : pathMax ≤ (stem dir pfx).length + 6
  · exact ⟨_, tempnam_long hdirArg hdir hpfxArg hpfx hlen, fun _ => rfl,
      fun h => absurd hlen (Nat.not_le_of_lt h), fun bytes h => by cases h⟩
  rw [Nat.not_le] at hlen
  obtain ⟨r, hr, hends⟩ := tempnam_ends hdirArg hdir hpfxArg hpfx hpath hlen
  refine ⟨r, hr, fun h => absurd h (Nat.not_le_of_lt hlen), fun _ => hends, fun bytes hbytes => ?_⟩
  cases hends with
  | noMemory => cases hbytes
  | exhausted => cases hbytes
  | @found letters tries _ _ hsuffix hanswer _ =>
    have hshort : (stem dir pfx ++ letters).length < pathMax := by
      rw [List.length_append, hsuffix.length]
      exact hlen
    have habsent := enoent_absent hs hshort hanswer
    obtain rfl := Outcome.path.inj hbytes
    refine ⟨letters, hsuffix, rfl, ?_, habsent, fun hplain node hnode => ?_⟩
    · rw [List.length_append, List.length_singleton]
      exact hshort
    · cases hchild : t.child node (pfx ++ underscore :: letters) with
      | none => rfl
      | some m => exact (habsent m (locates_entry hplain hsuffix hnode hchild)).elim

/-- `tempnam("/d", NULL)` -/
theorem tempnam_absent_sample : ∃ r,
    tempnam sampleEnv (fun _ => ⟨0, 0, 0⟩) (List.replicate pathMax 170) (some [slash, 100, 0]) none =
      some r ∧ Ends sampleEnv (stem [slash, 100] [116, 101, 109, 112]) maxTries r := by
  obtain ⟨r, hr, _, hends, _⟩ := tempnam_absent sampleTree .sub [[100]] sampleEnv sampleEnv_serves
    (fun _ => ⟨0, 0, 0⟩) _ List.length_replicate (some [slash, 100, 0]) none [slash, 100] []
    [116, 101, 109, 112] [] rfl (nulFree_of_all rfl) rfl (nulFree_of_all rfl)
  exact ⟨r, hr, hends (by decide)⟩

end LibcOverride.Path.Tempnam

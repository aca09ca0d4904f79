import LibcOverride.Path.Bounds
import LibcOverride.Path.FixedPoint

/-!
# getcwd and get_current_dir_name
(src/path_overrides.c:31-73, src/string_overrides.c:5-15)

The kernel's path goes into the caller's buffer or into a new string. `PWD` is
returned in its place if `stat` finds the working directory there.
-/

namespace LibcOverride.Path.WorkingDirectory
open Buffer PathTree

/-! ### The functions -/

/-- The copy, or NULL. -/
def strdup (env : Env) (trace : List Query) (text : List UInt8) : Result × List Query :=
  let succeeds := env.malloc trace (text.length + 1)
  (if succeeds then .path (text ++ [0]) else .null .enomem,
    trace ++ [.malloc (text.length + 1) succeeds])

/-- The returned pointer: NULL with `errno`, `buf` as it was passed, or a new
string with the bytes behind it. -/
inductive Pointer where
  | null (e : Errno)
  | buf
  | copy (bytes : List UInt8)
  deriving Repr, DecidableEq

def Pointer.ofResult : Result → Pointer
  | .path bytes => .copy bytes
  | .null e => .null e

/-- With what `buf` holds after the call. -/
structure Called where
  pointer : Pointer
  buf : List UInt8
  trace : List Query
  deriving Repr, DecidableEq

/-- `buf == stack_buf` is `onStack`. -/
def fillBuf (env : Env) (trace : List Query) (buf : List UInt8) (size : ℕ) (onStack : Bool) :
    Option Called :=
  let answer := env.getcwd trace size
  let trace := trace ++ [.getcwd size answer]
  match answer with
  | .failed e => some ⟨.null e, buf, trace⟩
  | .stored bytes => do
    let buf ← blit buf 0 bytes
    if bytes.length = 0 then some ⟨.null .enoent, buf, trace⟩
    else do
      let c ← buf[0]?
      if c ≠ slash then some ⟨.null .enoent, buf, trace⟩
      else if onStack then do
        let text ← cString buf
        let (result, trace) := strdup env trace text
        some ⟨.ofResult result, buf, trace⟩
      else some ⟨.buf, buf, trace⟩

/-- `buf` is NULL or what the caller's buffer holds, `stackBuf` what the local one
does. -/
def getcwd (env : Env) (trace : List Query) (stackBuf : List UInt8) (buf : Option (List UInt8))
    (size : ℕ) : Option Called :=
  match buf with
  | none => fillBuf env trace stackBuf pathMax true
  | some buf => if size = 0 then some ⟨.null .einval, buf, trace⟩ else fillBuf env trace buf size false

/-- What `getenv("PWD")` points to, and the device and inode from `stat`. -/
structure Lookup where
  pwd : Option (List UInt8)
  stat : List UInt8 → Option (ℕ × ℕ)

/-- `PWD` where all of the condition holds. -/
def pwdOfDot (sys : Lookup) : Option (Option (List UInt8)) :=
  match sys.pwd with
  | none => some none
  | some pwd => do
    let text ← cString pwd
    if text = [] then some none
    else match sys.stat text, sys.stat [dot] with
      | some there, some here => some (if there = here then some text else none)
      | _, _ => some none

def getCurrentDirName (env : Env) (sys : Lookup) (stackBuf : List UInt8) :
    Option (Result × List Query) := do
  match ← pwdOfDot sys with
  | some text => some (strdup env [] text)
  | none => do
    let called ← getcwd env [] stackBuf none 0
    match called.pointer with
    | .null e => some (.null e, called.trace)
    | .copy bytes => some (.path bytes, called.trace)
    | .buf => none

variable {env : Env} {sys : Lookup} {buf stackBuf text tail bytes : List UInt8}
  {trace : List Query} {size : ℕ}

/-! ### The kernel's path in a buffer -/

theorem strdup_null {text : List UInt8} {e : Errno} (h : (strdup env trace text).1 = .null e) :
    e = .enomem ∧ (strdup env trace text).2 = trace ++ [.malloc (text.length + 1) false] := by
  unfold strdup at h ⊢
  dsimp only at h ⊢
  split at h
  · cases h
  · rename_i hfails
    have hfalse : env.malloc trace (text.length + 1) = false := by simpa using hfails
    rw [hfalse]
    exact ⟨(Result.null.inj h).symm, rfl⟩

/-- A path that fits goes to the start of the buffer. -/
theorem blit_front (h : (slash :: (tail ++ [0])).length ≤ buf.length) :
    blit buf 0 (slash :: (tail ++ [0])) =
      some (slash :: tail ++ 0 :: buf.drop (tail.length + 2)) := by
  obtain ⟨front, rest, hbuf, hfront⟩ := exists_split h
  have hdrop : buf.drop (tail.length + 2) = rest := by
    rw [hbuf, List.drop_left' (by simpa using hfront)]
  rw [hdrop]
  refine (blit_append (x := []) (m := front) (y := rest) hbuf rfl hfront.symm).trans ?_
  simp

/-- What a call makes of the kernel's answer. -/
theorem fillBuf_stored (hsize : size ≤ buf.length) (hn : NulFree tail)
    (hanswer : env.getcwd trace size = .stored (slash :: (tail ++ [0])))
    (hfits : (slash :: (tail ++ [0])).length ≤ size) (onStack : Bool) :
    fillBuf env trace buf size onStack =
      let trace := trace ++ [.getcwd size (.stored (slash :: (tail ++ [0])))]
      let buf := slash :: tail ++ 0 :: buf.drop (tail.length + 2)
      some (if onStack then
          ⟨.ofResult (strdup env trace (slash :: tail)).1, buf,
            (strdup env trace (slash :: tail)).2⟩
        else ⟨.buf, buf, trace⟩) := by
  have hnul : NulFree (slash :: tail) := List.forall_mem_cons.mpr ⟨by decide, hn⟩
  have hstring := cString_text hnul (buf.drop (tail.length + 2))
  unfold fillBuf
  simp only [hanswer, blit_front (hfits.trans hsize), Option.bind_eq_bind, Option.bind_some]
  rw [if_neg (by simp), hstring]
  cases onStack <;> rfl

/-- Whatever the kernel stores, a path that is returned is absolute, and behind
what was stored the buffer is as before. -/
theorem getcwd_absolute (hstored : ∀ trace size bytes, env.getcwd trace size = .stored bytes →
      ∃ text, bytes = text ++ [0] ∧ NulFree text ∧ bytes.length ≤ size)
    (hsize : size ≤ buf.length) :
    ∃ called, getcwd env trace stackBuf (some buf) size = some called ∧
      (called.pointer = .buf → ∃ tail, called.buf =
        slash :: tail ++ 0 :: buf.drop (tail.length + 2) ∧ NulFree tail) := by
  unfold getcwd
  dsimp only
  by_cases hzero : size = 0
  · rw [if_pos hzero]
    exact ⟨_, rfl, fun h => by cases h⟩
  rw [if_neg hzero]
  cases hanswer : env.getcwd trace size with
  | failed e =>
    unfold fillBuf
    rw [hanswer]
    exact ⟨_, rfl, fun h => by cases h⟩
  | stored bytes =>
    obtain ⟨text, hbytes, hn, hfits⟩ := hstored trace size bytes hanswer
    by_cases hhead : text.head? = some slash
    · obtain ⟨tail, rfl⟩ := List.head?_eq_some_iff.mp hhead
      rw [hbytes, List.cons_append] at hanswer hfits
      have htail : NulFree tail := fun c hc => hn c (List.mem_cons_of_mem _ hc)
      refine ⟨_, fillBuf_stored hsize htail hanswer hfits false, fun _ => ⟨tail, rfl, htail⟩⟩
    · have hblit := blit_eq (b := buf) (v := bytes) (i := 0) (by omega)
      have hfirst : (overwritten buf 0 bytes)[0]? = bytes[0]? := by
        rw [getElem?_overwritten (by omega), if_pos (by simp [hbytes])]
      unfold fillBuf
      simp only [hanswer, hblit, Option.bind_eq_bind, Option.bind_some]
      rw [hfirst, hbytes, if_neg (by simp)]
      cases text with
      | nil => exact ⟨_, rfl, fun h => by cases h⟩
      | cons c text =>
        have hc : c ≠ slash := fun h => hhead (congrArg some h)
        refine ⟨⟨.null .enoent, _, _⟩, if_pos hc, fun h => by cases h⟩

/-! ### On a file tree -/

variable {Node : Type} {t : FileTree Node} {cwd : Node} {dir : List (List UInt8)}

/-- `stat` tells nodes apart. -/
def Lookup.Identifies (sys : Lookup) (t : FileTree Node) (cwd : Node) : Prop :=
  ∃ ident : Node → ℕ × ℕ, Function.Injective ident ∧
    ∀ text k, sys.stat text = some k → ∃ n, Names t cwd text n ∧ k = ident n

theorem names_dot {n : Node} (h : Names t cwd [dot] n) : n = cwd := by
  have hres := (names_text (List.cons_ne_nil _ _)).mp h
  exact resolves_nil.mp (resolves_here.mp hres).2

/-- `PWD` is `text`, and `stat` finds there what it finds at `.`. -/
structure Lookup.PwdHere (sys : Lookup) (text : List UInt8) : Prop where
  pwd : ∃ after, sys.pwd = some (text ++ 0 :: after)
  nulFree : NulFree text
  nonempty : text ≠ []
  same : ∃ k, sys.stat text = some k ∧ sys.stat [dot] = some k

theorem pwdOfDot_here (h : sys.PwdHere text) : pwdOfDot sys = some (some text) := by
  obtain ⟨⟨after, hpwd⟩, hn, hne, k, hthere, hhere⟩ := h
  unfold pwdOfDot
  rw [hpwd]
  simp only [cString_text hn, Option.bind_eq_bind, Option.bind_some, if_neg hne, hthere, hhere,
    if_true]

theorem pwdOfDot_elsewhere (hpwd : ∀ bytes ∈ sys.pwd, CString bytes)
    (h : ∀ text, ¬sys.PwdHere text) : pwdOfDot sys = some none := by
  unfold pwdOfDot
  cases hset : sys.pwd with
  | none => rfl
  | some bytes =>
    obtain ⟨text, after, rfl, hn⟩ := hpwd bytes hset
    simp only [cString_text hn, Option.bind_eq_bind, Option.bind_some]
    split
    · rfl
    rename_i hne
    split
    · rename_i there here hthere hhere
      refine congrArg some (if_neg fun heq => ?_)
      rw [← heq] at hhere
      exact h text ⟨⟨after, hset⟩, hn, hne, there, hthere, hhere⟩
    · rfl

/-- `PWD` is taken only where it names the working directory. -/
theorem Lookup.PwdHere.names (h : sys.PwdHere text) (hi : sys.Identifies t cwd) :
    Names t cwd text cwd := by
  obtain ⟨ident, hinj, hstat⟩ := hi
  obtain ⟨k, hthere, hhere⟩ := h.same
  obtain ⟨n, hnames, hid⟩ := hstat _ _ hthere
  obtain ⟨d, hdot, hid'⟩ := hstat _ _ hhere
  obtain rfl : n = d := hinj (hid.symm.trans hid')
  rwa [names_dot hdot] at hnames

/-- The kernel's path in a new string, or the kernel's error. -/
inductive KernelPath (env : Env) (text : List UInt8) : Result × List Query → Prop
  | failed (e : Errno) (h : env.getcwd [] pathMax = .failed e) :
      KernelPath env text (.null e, [.getcwd pathMax (.failed e)])
  | copied (h : env.getcwd [] pathMax = .stored (text ++ [0])) :
      KernelPath env text (strdup env [.getcwd pathMax (.stored (text ++ [0]))] text)

theorem getcwd_kernel (ha : env.Absolute) (hs : env.Serves t cwd dir)
    (hbuf : stackBuf.length = pathMax) : ∃ r buf, KernelPath env (pathText (.rooted false) dir) r ∧
      getcwd env [] stackBuf none 0 = some ⟨.ofResult r.1, buf, r.2⟩ := by
  unfold getcwd
  dsimp only
  cases hanswer : env.getcwd [] pathMax with
  | failed e =>
    refine ⟨_, stackBuf, .failed e hanswer, ?_⟩
    unfold fillBuf
    rw [hanswer]
    rfl
  | stored bytes =>
    have hdir := hs.getcwd _ _ _ hanswer
    have hcopied := hanswer
    rw [hdir] at hcopied
    obtain ⟨tail, htail, hn, hfits⟩ := ha _ _ _ hanswer
    rw [htail] at hanswer hfits
    have htext : pathText (.rooted false) dir = slash :: tail :=
      List.append_cancel_right (hdir.symm.trans htail)
    have hfill := fillBuf_stored hbuf.ge hn hanswer hfits true
    refine ⟨_, slash :: tail ++ 0 :: stackBuf.drop (tail.length + 2), .copied hcopied,
      hfill.trans ?_⟩
    rw [htext]
    rfl

theorem KernelPath.limited {r : Result × List Query} (h : KernelPath env text r) {e : Errno}
    (he : r.1 = .null e) : Limited e r.2 := by
  cases h with
  | failed e' hanswer =>
    obtain rfl := Result.null.inj he
    exact .getcwd [] _ _
  | copied hanswer =>
    obtain ⟨rfl, htrace⟩ := strdup_null he
    rw [htrace]
    exact .strdup _ _

/-- A text that names the directory, and what `realpath` makes of it. -/
structure IsHere (t : FileTree Node) (cwd : Node) (dir : List (List UInt8)) (env : Env)
    (text : List UInt8) : Prop where
  names : Names t cwd text cwd
  realpath : ∀ stack output : List UInt8, stack.length = pathMax + 1 → output.length = pathMax →
    ∀ after resolved bytes trace,
      realpath env stack output (some (text ++ 0 :: after)) resolved = some (.path bytes, trace) →
      strip bytes = nameText dir ++ [0]

theorem isHere_of_names (hp : t.Proper) (hl : env.Links) (ha : env.Absolute)
    (hs : env.Serves t cwd dir) (hn : NulFree text) (h : Names t cwd text cwd) :
    IsHere t cwd dir env text where
  names := h
  realpath stack output hstack houtput after resolved bytes trace hcall := by
    obtain ⟨double, names, cur, hbytes, hret⟩ := realpath_returned hl ha hs hstack houtput hn hcall
    obtain rfl := (hret.same cwd).mp h
    have hdir : names = dir := walk_unique hp hret.walk hs.path hs.isDir
    rw [hbytes, strip_pathText double hret.parts, hdir]

theorem nulFree_dir (hs : env.Serves t cwd dir) : NulFree (pathText (.rooted false) dir) :=
  nulFree_foldl (nulFree_of_all rfl) fun n hn => plain_nulFree (hs.names n hn).plain

/-- Where `PWD` is the working directory the call returns a copy of it, and otherwise what
the kernel gives for the directory. Either names the working directory, and `realpath`
returns no other path for it than that of the directory; NULL is for a failure of
`getcwd` or `strdup`. -/
theorem current_dir_name {Node : Type} (t : FileTree Node) (hp : t.Proper) (cwd : Node)
    (dir : List (List UInt8)) (env : Env) (hl : env.Links) (ha : env.Absolute)
    (hs : env.Serves t cwd dir) (sys : Lookup) (hi : sys.Identifies t cwd)
    (hpwd : ∀ bytes ∈ sys.pwd, CString bytes) (stackBuf : List UInt8)
    (hbuf : stackBuf.length = pathMax) :
    ∃ r, getCurrentDirName env sys stackBuf = some r ∧
      (∀ text, sys.PwdHere text → r = strdup env [] text ∧ IsHere t cwd dir env text) ∧
      ((∀ text, ¬sys.PwdHere text) → KernelPath env (pathText (.rooted false) dir) r ∧
        IsHere t cwd dir env (pathText (.rooted false) dir)) ∧
      ∀ e, r.1 = .null e → Limited e r.2 := by
  unfold getCurrentDirName
  by_cases hhere : ∃ text, sys.PwdHere text
  · obtain ⟨text, hhere⟩ := hhere
    rw [pwdOfDot_here hhere, Option.bind_eq_bind, Option.bind_some]
    refine ⟨_, rfl, fun text' hhere' => ?_, fun hnone => (hnone text hhere).elim, fun e he => ?_⟩
    · have hsame := (pwdOfDot_here hhere).symm.trans (pwdOfDot_here hhere')
      obtain rfl := Option.some.inj (Option.some.inj hsame)
      exact ⟨rfl, isHere_of_names hp hl ha hs hhere.nulFree (hhere.names hi)⟩
    · obtain ⟨rfl, htrace⟩ := strdup_null he
      rw [htrace]
      exact .strdup _ _
  · have hnone : ∀ text, ¬sys.PwdHere text := fun text h => hhere ⟨text, h⟩
    obtain ⟨r, buf, hkernel, hcalled⟩ := getcwd_kernel ha hs hbuf
    have hlink : (t.kind cwd).isLink = false := by
      rw [hs.isDir]
      rfl
    have hnames := (rooted_text (m := cwd) (serves_dirs hs) false hs.names hs.path hlink).1.mpr rfl
    rw [pwdOfDot_elsewhere hpwd hnone, Option.bind_eq_bind, Option.bind_some]
    dsimp only
    rw [hcalled, Option.bind_eq_bind, Option.bind_some]
    refine ⟨r, ?_, fun text h => (hnone text h).elim,
      fun _ => ⟨hkernel, isHere_of_names hp hl ha hs (nulFree_dir hs) hnames⟩,
      fun e he => hkernel.limited he⟩
    obtain ⟨result, trace⟩ := r
    cases result <;> rfl

/-! ### A call on the small tree -/

def sampleIdent : SampleNode → ℕ × ℕ
  | .root => (1, 2)
  | .sub => (1, 3)
  | .link => (1, 4)

/-- `PWD=/l`, by the link. -/
def sampleSys : Lookup where
  pwd := some [slash, 108, 0]
  stat text :=
    if text = [] then none
    else ((components text).foldlM sampleStep (if isAbsolute text then .root else .sub)).map
      sampleIdent

theorem sampleSys_identifies : sampleSys.Identifies sampleTree .sub := by
  refine ⟨sampleIdent, fun m n h => ?_, fun text k h => ?_⟩
  · cases m <;> cases n <;> first | rfl | cases h
  · unfold sampleSys at h
    dsimp only at h
    split at h
    · cases h
    · rename_i hne
      obtain ⟨n, hn, rfl⟩ := Option.map_eq_some_iff.mp h
      exact ⟨n, (names_text hne).mpr (sampleTree_resolves.mpr hn), rfl⟩

/-- The kernel's path where `PWD` is not set. -/
def unsetSys : Lookup := { sampleSys with pwd := none }

theorem current_dir_name_link :
    getCurrentDirName sampleEnv sampleSys (List.replicate pathMax 170) =
      some (.path [slash, 108, 0], [.malloc 3 true]) ∧
    ∃ r, getCurrentDirName sampleEnv unsetSys (List.replicate pathMax 170) = some r ∧
      KernelPath sampleEnv [slash, 100] r := by
  constructor
  · obtain ⟨r, hr, hpwd, -⟩ := current_dir_name sampleTree sampleTree_proper .sub [[100]] sampleEnv
      sampleEnv_links sampleEnv_absolute sampleEnv_serves sampleSys sampleSys_identifies
      (fun bytes hb => ⟨[slash, 108], [], (Option.some.inj hb).symm, nulFree_of_all rfl⟩) _
      List.length_replicate
    have hhere : sampleSys.PwdHere [slash, 108] :=
      ⟨⟨[], rfl⟩, nulFree_of_all rfl, by decide, (1, 3), by decide, by decide⟩
    rw [hr, (hpwd _ hhere).1]
    rfl
  · obtain ⟨r, hr, -, hkernel, -⟩ := current_dir_name sampleTree sampleTree_proper .sub [[100]]
      sampleEnv sampleEnv_links sampleEnv_absolute sampleEnv_serves unsetSys sampleSys_identifies
      (fun bytes hb => by cases hb) _ List.length_replicate
    refine ⟨r, hr, (hkernel fun text h => ?_).1⟩
    obtain ⟨after, hset⟩ := h.pwd
    cases hset

end LibcOverride.Path.WorkingDirectory

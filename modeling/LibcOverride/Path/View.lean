import LibcOverride.Path.Realpath
import Mathlib.Data.List.DropRight

/-!
# The loop on paths

What the two buffers stand for: the unread text, and an output that is a base
followed by names. `View.step` is one iteration on these, with no index, and the
loop on buffers is shown to run in step with it.
-/

namespace LibcOverride.Path
open Buffer

/-! ### Output texts -/

/-- A name behind a path, with a slash between them where one is missing. -/
def glue (out : List UInt8) : List UInt8 :=
  if out = [] ∨ out.getLast? = some slash then [] else [slash]

def extend (out name : List UInt8) : List UInt8 := out ++ (glue out ++ name)

/-- What the names follow: a root, or a number of `..`. -/
inductive Base where
  | rooted (double : Bool)
  | relative (ups : ℕ)
  deriving Repr, DecidableEq

def upName : List UInt8 := [dot, dot]

def Base.text : Base → List UInt8
  | .rooted false => [slash]
  | .rooted true => [slash, slash]
  | .relative ups => (List.replicate ups upName).foldl extend []

def Base.ups : Base → ℕ
  | .rooted _ => 0
  | .relative ups => ups

def pathText (base : Base) (names : List (List UInt8)) : List UInt8 := names.foldl extend base.text

def Plain (text : List UInt8) : Prop := ∀ c ∈ text, c ≠ 0 ∧ c ≠ slash

def NulFree (text : List UInt8) : Prop := ∀ c ∈ text, c ≠ 0

structure IsName (name : List UInt8) : Prop where
  nonempty : name ≠ []
  plain : Plain name
  notHere : name ≠ [dot]
  notUp : name ≠ upName

/-! ### One iteration -/

structure View where
  rest : List UInt8
  base : Base
  names : List (List UInt8)
  checkDir : Bool
  loopCount : ℕ
  trace : List Query
  deriving Repr, DecidableEq

def View.out (v : View) : List UInt8 := pathText v.base v.names

inductive ViewNext where
  | more (v : View)
  | done (v : View)
  | fail (e : Errno) (trace : List Query)
  deriving Repr, DecidableEq

def isSlash (c : UInt8) : Bool := decide (c = slash)

def notSlash (c : UInt8) : Bool := decide (c ≠ slash)

def strip (text : List UInt8) : List UInt8 := text.dropWhile isSlash

/-- The next component and what is behind it. -/
def firstName (text : List UInt8) : List UInt8 := text.takeWhile notSlash

def afterName (text : List UInt8) : List UInt8 := text.dropWhile notSlash

def View.reset (v : View) : View :=
  let rest := v.rest.tail
  let double := decide (rest.head? = some slash ∧ (rest.drop 1).head? ≠ some slash)
  { v with rest := strip rest, base := .rooted double, names := [], checkDir := false }

def View.skip (v : View) : View := { v with rest := strip (afterName v.rest) }

def View.pend (v : View) : View :=
  { v with rest := strip (afterName v.rest), base := .relative (v.base.ups + 1), names := [] }

def View.cancel (v : View) : View :=
  { v with rest := strip (afterName v.rest), names := v.names.dropLast, checkDir := false }

/-- The component is no link. -/
def View.enter (v : View) : View :=
  let name := firstName v.rest
  { v with
    rest := strip (afterName v.rest)
    names := if name = [] then v.names else v.names ++ [name]
    checkDir := decide (afterName v.rest ≠ []) }

def View.follow (v : View) (target : List UInt8) : View :=
  let unread := afterName v.rest
  { v with
    rest := target ++ if target.getLast? = some slash then strip unread else unread
    loopCount := v.loopCount + 1 }

def View.query (env : Env) (v : View) : ViewNext :=
  let name := firstName v.rest
  let path := extend v.out name
  let size := pathMax - (afterName v.rest).length
  let answer := env.readlink v.trace path size
  let v := { v with trace := v.trace ++ [Query.readlink path size answer] }
  match answer with
  | .failed e =>
    if e ≠ .einval then .fail e v.trace else .more (if name = upName then v.cancel else v.enter)
  | .stored target =>
    if target.length = size then .fail .enametoolong v.trace
    else if target = [] then .fail .enoent v.trace
    else if v.loopCount + 1 = symloopMax then .fail .eloop v.trace
    else .more (v.follow target)

/-- Nothing but `..` is in the output. -/
def View.onlyUps (v : View) : Bool :=
  match v.base with
  | .rooted _ => false
  | .relative _ => decide (v.names = [])

def View.step (env : Env) (v : View) : ViewNext :=
  let name := firstName v.rest
  if v.rest.head? = some slash then .more v.reset
  else if name = [] ∧ v.checkDir = false then .done v
  else if name = [dot] then .more v.skip
  else if (extend v.out name).length ≥ pathMax then .fail .enametoolong v.trace
  else if name = upName ∧ v.onlyUps then .more v.pend
  else if name = upName ∧ v.checkDir = false then .more v.cancel
  else v.query env

/-! ### Lengths and ends of output texts -/

theorem plain_nulFree {text : List UInt8} (h : Plain text) : NulFree text := fun c hc => (h c hc).1

theorem nulFree_append {x y : List UInt8} (hx : NulFree x) (hy : NulFree y) : NulFree (x ++ y) :=
  fun c hc => (List.mem_append.mp hc).elim (hx c) (hy c)

theorem nulFree_glue (out : List UInt8) : NulFree (glue out) := by
  unfold glue
  split
  · exact fun c hc => (List.not_mem_nil hc).elim
  · intro c hc
    rw [List.mem_singleton.mp hc]
    decide

theorem nulFree_extend {out name : List UInt8} (ho : NulFree out) (hn : NulFree name) :
    NulFree (extend out name) := nulFree_append ho (nulFree_append (nulFree_glue out) hn)

theorem nulFree_foldl {out : List UInt8} {names : List (List UInt8)} (ho : NulFree out)
    (hn : ∀ n ∈ names, NulFree n) : NulFree (names.foldl extend out) := by
  induction names generalizing out with
  | nil => exact ho
  | cons n names ih =>
    exact ih (nulFree_extend ho (hn n (List.mem_cons_self ..))) fun m hm =>
      hn m (List.mem_cons_of_mem _ hm)

theorem pathText_snoc (base : Base) (names : List (List UInt8)) (name : List UInt8) :
    pathText base (names ++ [name]) = extend (pathText base names) name := by
  simp [pathText, List.foldl_append]

/-- A nonempty plain name ends an output with no slash. -/
theorem glue_extend {out name : List UInt8} (hne : name ≠ []) (hp : Plain name) :
    glue (extend out name) = [slash] := by
  unfold glue
  rw [if_neg]
  rintro (h | h)
  · exact hne (List.append_eq_nil_iff.mp (List.append_eq_nil_iff.mp h).2).2
  · rw [extend, ← List.append_assoc, List.getLast?_append_of_ne_nil _ hne] at h
    exact (hp _ (List.mem_of_getLast? h)).2 rfl

theorem length_extend (out name : List UInt8) :
    (extend out name).length = out.length + ((glue out).length + name.length) := by
  simp only [extend, List.length_append]

theorem length_foldl_extend (out : List UInt8) (names : List (List UInt8)) :
    out.length ≤ (names.foldl extend out).length := by
  induction names generalizing out with
  | nil => exact le_rfl
  | cons n names ih =>
    have hle := ih (extend out n)
    rw [length_extend] at hle
    rw [List.foldl_cons]
    omega

theorem nulFree_of_all {text : List UInt8} (h : text.all (· != 0) = true) : NulFree text := by
  intro c hc
  simpa using List.all_eq_true.mp h c hc

theorem plain_upName : Plain upName := by
  intro c hc
  have hdot : c = dot := by simpa [upName] using hc
  rw [hdot]
  decide

theorem ups_succ (n : ℕ) : (Base.relative (n + 1)).text = extend (Base.relative n).text upName := by
  simp only [Base.text, List.replicate_succ', List.foldl_append, List.foldl_cons, List.foldl_nil]

theorem glue_ups (n : ℕ) : glue (Base.relative (n + 1)).text = [slash] := by
  rw [ups_succ]
  exact glue_extend (by decide) plain_upName

theorem length_ups (n : ℕ) : (Base.relative (n + 1)).text.length = 3 * n + 2 := by
  induction n with
  | zero => rfl
  | succ n ih =>
    rw [ups_succ, length_extend, ih, glue_ups]
    rfl

/-- `q <= 3 * pending_up` holds just when there is no name to cancel. -/
theorem length_onlyUps {v : View} (hn : ∀ n ∈ v.names, IsName n) :
    v.out.length ≤ 3 * v.base.ups ↔ v.onlyUps = true := by
  unfold View.out View.onlyUps
  cases v.base with
  | rooted double =>
    have hle := length_foldl_extend (Base.rooted double).text v.names
    have hpos : 0 < (Base.rooted double).text.length := by cases double <;> decide
    simp only [pathText, Base.ups, Bool.false_eq_true, iff_false]
    omega
  | relative ups =>
    cases hnames : v.names with
    | nil =>
      simp only [pathText, List.foldl_nil, Base.ups, decide_true, iff_true]
      cases ups with
      | zero => decide
      | succ n =>
        rw [length_ups]
        omega
    | cons n names =>
      have hle := length_foldl_extend (extend (Base.relative ups).text n) names
      have hpos : 0 < n.length := by
        rw [hnames] at hn
        exact List.length_pos_iff.mpr (hn n (List.mem_cons_self ..)).nonempty
      rw [length_extend] at hle
      simp only [pathText, List.foldl_cons, Base.ups, reduceCtorEq, decide_false,
        Bool.false_eq_true, iff_false]
      cases ups with
      | zero => omega
      | succ k =>
        rw [length_ups, glue_ups] at hle
        simp only [List.length_singleton] at hle
        omega

/-! ### Scans of a buffer -/

theorem slashLen_text (text z : List UInt8) :
    aoSlashLen (text ++ 0 :: z) = some (text.takeWhile isSlash).length := by
  induction text with
  | nil => rfl
  | cons c text ih =>
    rw [List.cons_append, aoSlashLen, List.takeWhile_cons, ih]
    by_cases h : c = slash <;> simp [h, isSlash]

theorem strchrnul_text {text : List UInt8} (h : NulFree text) (z : List UInt8) :
    aoStrchrnul (text ++ 0 :: z) slash = some (firstName text).length := by
  induction text with
  | nil => rfl
  | cons c text ih =>
    have hc := h c (List.mem_cons_self ..)
    have htail := ih fun d hd => h d (List.mem_cons_of_mem _ hd)
    rw [List.cons_append, aoStrchrnul, firstName, List.takeWhile_cons, htail]
    by_cases hs : c = slash <;> simp [hs, hc, notSlash, firstName]

theorem cString_text {text : List UInt8} (h : NulFree text) (z : List UInt8) :
    cString (text ++ 0 :: z) = some text := by
  induction text with
  | nil => rfl
  | cons c text ih =>
    have hc := h c (List.mem_cons_self ..)
    rw [List.cons_append, cString, if_pos hc, ih fun d hd => h d (List.mem_cons_of_mem _ hd)]
    rfl

theorem strnlen_text {text : List UInt8} (h : NulFree text) (z : List UInt8) (n : ℕ) :
    strnlen (text ++ 0 :: z) n = some (min text.length n) := by
  induction text generalizing n with
  | nil => cases n <;> simp [strnlen]
  | cons c text ih =>
    have hc := h c (List.mem_cons_self ..)
    cases n with
    | zero => rfl
    | succ n =>
      rw [List.cons_append, strnlen, if_pos hc, ih fun d hd => h d (List.mem_cons_of_mem _ hd)]
      simp

theorem first_after (text : List UInt8) : firstName text ++ afterName text = text :=
  List.takeWhile_append_dropWhile

theorem plain_firstName {text : List UInt8} (h : NulFree text) : Plain (firstName text) := by
  intro c hc
  have hmem := List.mem_takeWhile_imp hc
  refine ⟨h c ((List.takeWhile_prefix notSlash).subset hc), ?_⟩
  simpa [notSlash] using hmem

theorem afterName_cases (text : List UInt8) :
    afterName text = [] ∨ ∃ rest, afterName text = slash :: rest := by
  cases h : afterName text with
  | nil => exact Or.inl rfl
  | cons c rest =>
    have hc : notSlash c = false := by
      have hhead := List.head?_dropWhile_not notSlash text
      unfold afterName at h
      rw [h] at hhead
      simpa using hhead
    have heq : c = slash := by simpa [notSlash] using hc
    exact Or.inr ⟨rest, by rw [heq]⟩

/-! ### What a view keeps -/

def Query.isLink : Query → Bool
  | .readlink _ _ (.stored _) => true
  | _ => false

/-- The links that were read. -/
def linksRead (trace : List Query) : ℕ := trace.countP Query.isLink

/-- What a view keeps. -/
structure View.Good (v : View) : Prop where
  rest : NulFree v.rest
  short : v.rest.length < pathMax
  names : ∀ n ∈ v.names, IsName n
  size : v.out.length < pathMax
  check : v.checkDir = true → v.names ≠ []

/-- The counter is that of the links read. -/
structure View.Counted (v : View) : Prop where
  links : linksRead v.trace = v.loopCount
  below : v.loopCount < symloopMax

/-- Link targets are stored within the given size and hold no NUL. -/
def Env.Links (env : Env) : Prop :=
  ∀ trace path size target, env.readlink trace path size = .stored target →
    target.length ≤ size ∧ NulFree target

theorem nulFree_out {v : View} (h : ∀ n ∈ v.names, IsName n) : NulFree v.out := by
  refine nulFree_foldl ?_ fun n hn => plain_nulFree (h n hn).plain
  cases v.base with
  | rooted double =>
    cases double <;> exact nulFree_of_all rfl
  | relative ups =>
    refine nulFree_foldl (fun c hc => (List.not_mem_nil hc).elim) fun n hn => ?_
    rw [List.eq_of_mem_replicate hn]
    exact plain_nulFree plain_upName

end LibcOverride.Path

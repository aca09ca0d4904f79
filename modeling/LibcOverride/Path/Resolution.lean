import LibcOverride.Lib.PathTree
import LibcOverride.Path.Finish

/-!
# Texts as paths in a file tree

What a text names in a tree of directories, files and links, from a working
directory. The pieces between slashes are the components; an empty piece stands
for the directory itself, so that a trailing slash asks for one.
-/

namespace LibcOverride.Path
open PathTree

abbrev FileTree (Node : Type) := Tree Node (List UInt8) (List UInt8)

def componentOf (piece : List UInt8) : Component (List UInt8) :=
  if piece = [] ∨ piece = [dot] then .here else if piece = upName then .up else .name piece

def components (text : List UInt8) : List (Component (List UInt8)) :=
  (text.splitOn slash).map componentOf

def isAbsolute (text : List UInt8) : Bool := decide (text.head? = some slash)

/-- The empty text is no path. -/
def routeOf (text : List UInt8) : Option (Route (List UInt8)) :=
  if text = [] then none else some ⟨isAbsolute text, components text⟩

variable {Node : Type} (t : FileTree Node) (cwd : Node)

/-- The resolution of a text, with a last link followed. -/
def Names (text : List UInt8) (n : Node) : Prop :=
  ∃ r, routeOf text = some r ∧ t.Resolves routeOf (t.start cwd r.absolute) r.components n

/-- The same, with a last name not followed. -/
def Locates (text : List UInt8) (n : Node) : Prop :=
  ∃ r, routeOf text = some r ∧ t.Finds routeOf (t.start cwd r.absolute) r.components n

/-- The system calls answer from the tree, where `dir` are the names on the way
from the root to the working directory. -/
structure Env.Serves (env : Env) (dir : List (List UInt8)) : Prop where
  path : t.walk t.root dir = some cwd
  isDir : t.kind cwd = .dir
  names : ∀ n ∈ dir, IsName n
  link : ∀ trace text size n target, text.length < pathMax → 0 < size → Locates t cwd text n →
    t.kind n = .link target → env.readlink trace text size = .stored (target.take size)
  noLink : ∀ trace text size n, text.length < pathMax → 0 < size → Locates t cwd text n →
    (t.kind n).isLink = false → env.readlink trace text size = .failed .einval
  missing : ∀ trace text size, text.length < pathMax → 0 < size →
    (∀ n, ¬Locates t cwd text n) → ∃ e, e ≠ .einval ∧ env.readlink trace text size = .failed e
  getcwd : ∀ trace size bytes, env.getcwd trace size = .stored bytes →
    bytes = pathText (.rooted false) dir ++ [0]

variable {t cwd} {n m : Node} {text x y : List UInt8}

/-! ### Components of a text -/

theorem components_slash (x y : List UInt8) :
    components (x ++ slash :: y) = components x ++ components y := by
  unfold components
  rw [List.splitOn_append_cons_self, List.map_append]

theorem components_plain (h : Plain x) : components x = [componentOf x] := by
  unfold components
  rw [List.splitOn_eq_singleton fun hmem => (h _ hmem).2 rfl]
  rfl

theorem components_ne (text : List UInt8) : components text ≠ [] :=
  mt List.map_eq_nil_iff.mp (List.splitOn_ne_nil slash text)

theorem componentOf_name (h : IsName x) : componentOf x = .name x := by
  unfold componentOf
  rw [if_neg (not_or.mpr ⟨h.nonempty, h.notHere⟩), if_neg h.notUp]

theorem routeOf_some (h : text ≠ []) : routeOf text = some ⟨isAbsolute text, components text⟩ :=
  if_neg h

theorem names_text (h : text ≠ []) : Names t cwd text n ↔
    t.Resolves routeOf (t.start cwd (isAbsolute text)) (components text) n := by
  unfold Names
  rw [routeOf_some h]
  simp

theorem locates_text (h : text ≠ []) : Locates t cwd text n ↔
    t.Finds routeOf (t.start cwd (isAbsolute text)) (components text) n := by
  unfold Locates
  rw [routeOf_some h]
  simp

/-- Where what is left of a text leads to. -/
def Onward (t : FileTree Node) (n : Node) (rest : List UInt8) (m : Node) : Prop :=
  if rest = [] then m = n else Names t n rest m

theorem onward_nil : Onward t n [] m ↔ m = n := Iff.rfl

theorem onward_text (h : text ≠ []) : Onward t n text m ↔ Names t n text m := by
  rw [Onward, if_neg h]

/-- What is behind the first component. -/
def behind (after : List UInt8) : List (Component (List UInt8)) :=
  if after = [] then [] else components after.tail

theorem components_first (h : NulFree text) :
    components text = componentOf (firstName text) :: behind (afterName text) := by
  have hplain := plain_firstName h
  have hsplit := first_after text
  unfold behind
  rcases afterName_cases text with hnil | ⟨rest, hrest⟩
  · have hone := components_plain hplain
    rw [hnil, List.append_nil] at hsplit
    rw [if_pos hnil, ← hone, hsplit]
  · rw [hrest] at hsplit
    rw [if_neg (by rw [hrest]; exact List.cons_ne_nil _ _), hrest, List.tail_cons]
    calc components text = components (firstName text ++ slash :: rest) := by rw [hsplit]
      _ = components (firstName text) ++ components rest := components_slash _ _
      _ = componentOf (firstName text) :: components rest := by rw [components_plain hplain]; rfl

/-- Slashes before a text only ask for a directory. -/
theorem resolves_strip (text : List UInt8) : t.Resolves routeOf n (components text) m ↔
    t.kind n = .dir ∧ Onward t n (strip text) m := by
  induction text with
  | nil => exact resolves_here.trans (and_congr_right fun _ => resolves_nil)
  | cons c text ih =>
    by_cases hc : c = slash
    · have hstrip : strip (c :: text) = strip text :=
        List.dropWhile_cons_of_pos (decide_eq_true hc)
      have hcons : components (c :: text) = .here :: components text := by
        rw [hc]
        exact components_slash [] text
      rw [hstrip, hcons, resolves_here_cons (components_ne text)]
      exact ih
    · have hstrip : strip (c :: text) = c :: text :=
        List.dropWhile_cons_of_neg (by simpa [isSlash] using hc)
      have habs : isAbsolute (c :: text) = false := by simpa [isAbsolute] using hc
      rw [hstrip, onward_text (List.cons_ne_nil _ _), names_text (List.cons_ne_nil _ _), habs]
      exact (and_iff_right_of_imp (resolves_dir (components_ne _))).symm

/-- What a component leaves unread is behind slashes. -/
theorem resolves_behind (text : List UInt8) :
    t.Resolves routeOf n (behind (afterName text)) m ↔
      (afterName text ≠ [] → t.kind n = .dir) ∧ Onward t n (strip (afterName text)) m := by
  unfold behind
  rcases afterName_cases text with hnil | ⟨rest, hrest⟩
  · rw [hnil, if_pos rfl, resolves_nil]
    exact (and_iff_right fun h => (h rfl).elim).symm
  · have hstrip : strip (slash :: rest) = strip rest := List.dropWhile_cons_of_pos rfl
    rw [hrest, if_neg (List.cons_ne_nil _ _), List.tail_cons, resolves_strip, hstrip]
    simp only [ne_eq, reduceCtorEq, not_false_eq_true, forall_const]

theorem onward_first (h : NulFree text) (hne : text ≠ []) (hhead : text.head? ≠ some slash) :
    Onward t n text m ↔
      t.Resolves routeOf n (componentOf (firstName text) :: behind (afterName text)) m := by
  have habs : isAbsolute text = false := decide_eq_false hhead
  rw [onward_text hne, names_text hne, habs, components_first h]
  rfl

/-- A target goes before what is unread, without a doubled slash between them. -/
theorem resolves_target {target : List UInt8} (text : List UInt8) :
    t.Resolves routeOf n (components (target ++ if target.getLast? = some slash then
        strip (afterName text) else afterName text)) m ↔
      t.Resolves routeOf n (components target ++ behind (afterName text)) m := by
  rcases afterName_cases text with hnil | ⟨rest, hrest⟩
  · rw [hnil]
    simp [strip, behind]
  · rw [hrest, behind, if_neg (List.cons_ne_nil _ _), List.tail_cons]
    split
    · rename_i hlast
      obtain ⟨front, rfl⟩ := List.getLast?_eq_some_iff.mp hlast
      have hstrip : strip (slash :: rest) = strip rest := List.dropWhile_cons_of_pos rfl
      have hempty : components (front ++ [slash]) = components front ++ [.here] :=
        components_slash front []
      rw [hstrip, hempty, List.append_assoc, List.append_assoc, List.singleton_append,
        List.singleton_append, components_slash, resolves_append, resolves_append]
      refine exists_congr fun k => and_congr_right fun _ => ?_
      have hidem : strip (strip rest) = strip rest :=
        List.dropWhile_idempotent isSlash rest
      rw [resolves_here_cons (components_ne rest), resolves_strip, resolves_strip, hidem]
    · rw [components_slash]

/-! ### Components of an output -/

def Base.isRooted : Base → Bool
  | .rooted _ => true
  | .relative _ => false

def Base.components : Base → List (Component (List UInt8))
  | .rooted false => [.here]
  | .rooted true => [.here, .here]
  | .relative ups => List.replicate ups .up

/-- The node that the names follow. -/
def Base.node (t : FileTree Node) (cwd : Node) : Base → Node
  | .rooted _ => t.root
  | .relative ups => t.parent^[ups] cwd

theorem text_extend {out name : List UInt8} (hne : name ≠ []) (hp : Plain name) (hx : Plain x) :
    isAbsolute (extend (extend out name) x) = isAbsolute (extend out name) ∧
      components (extend (extend out name) x) =
        components (extend out name) ++ [componentOf x] := by
  have hsplit : extend (extend out name) x = extend out name ++ slash :: x := by
    rw [extend, glue_extend hne hp]
    rfl
  have hfirst : extend out name ≠ [] := by simp [extend, hne]
  rw [hsplit, components_slash, components_plain hx, isAbsolute, List.head?_append_of_ne_nil _ hfirst]
  exact ⟨rfl, rfl⟩

theorem text_base (base : Base) (hx : Plain x) :
    isAbsolute (extend base.text x) = base.isRooted ∧
      components (extend base.text x) = base.components ++ [componentOf x] := by
  cases base with
  | rooted double =>
    cases double with
    | false => exact ⟨rfl, (components_slash [] x).trans (by rw [components_plain hx]; rfl)⟩
    | true =>
      refine ⟨rfl, (components_slash [slash] x).trans ?_⟩
      rw [components_plain hx]
      rfl
  | relative ups =>
    induction ups generalizing x with
    | zero =>
      refine ⟨decide_eq_false fun hhead => ?_, components_plain hx⟩
      exact (hx slash (List.mem_of_head? hhead)).2 rfl
    | succ n ih =>
      obtain ⟨habs, hcomponents⟩ := ih plain_upName
      obtain ⟨habs', hcomponents'⟩ := text_extend (by decide) plain_upName hx
      rw [ups_succ, habs', hcomponents', habs, hcomponents]
      refine ⟨rfl, ?_⟩
      simp only [Base.components, List.replicate_succ']
      rfl

theorem text_out (base : Base) {names : List (List UInt8)} (hn : ∀ n ∈ names, IsName n)
    (hx : Plain x) : isAbsolute (extend (pathText base names) x) = base.isRooted ∧
      components (extend (pathText base names) x) =
        (base.components ++ names.map .name) ++ [componentOf x] := by
  induction names using List.reverseRecOn generalizing x with
  | nil =>
    rw [List.map_nil, List.append_nil]
    exact text_base base hx
  | append_singleton names n ih =>
    have hname := hn n (List.mem_append_right _ (List.mem_singleton_self n))
    obtain ⟨habs, hcomponents⟩ := ih (fun m hm => hn m (List.mem_append_left _ hm)) hname.plain
    obtain ⟨habs', hcomponents'⟩ := text_extend hname.nonempty hname.plain hx
    rw [pathText_snoc, habs', hcomponents', habs, hcomponents, componentOf_name hname]
    refine ⟨rfl, ?_⟩
    rw [List.map_append, List.append_assoc base.components]
    rfl

theorem resolves_base (hdir : ∀ k, t.kind (t.parent^[k] cwd) = .dir) (base : Base)
    {cs : List (Component (List UInt8))} :
    t.Resolves routeOf (t.start cwd base.isRooted) (base.components ++ cs) m ↔
      t.Resolves routeOf (base.node t cwd) cs m := by
  have hroot := t.root_dir
  cases base with
  | rooted double =>
    cases double with
    | false => exact resolves_here.trans (and_iff_right hroot)
    | true =>
      refine resolves_here.trans ((and_iff_right hroot).trans ?_)
      exact resolves_here.trans (and_iff_right hroot)
  | relative ups =>
    induction ups generalizing cs with
    | zero => rfl
    | succ n ih =>
      have hnode : t.kind (Base.node t cwd (.relative n)) = .dir := hdir n
      have hup := @ih (.up :: cs)
      rw [resolves_up, and_iff_right hnode] at hup
      simp only [Base.components, List.replicate_succ', List.append_assoc, List.singleton_append,
        Base.node, Function.iterate_succ_apply'] at hup ⊢
      exact hup

/-! ### Lookups behind an output -/

/-- Names below a base, and the node they lead to. -/
structure Placed (t : FileTree Node) (cwd : Node) (base : Base) (names : List (List UInt8))
    (cur : Node) : Prop where
  walk : t.walk (base.node t cwd) names = some cur
  notLink : (t.kind cur).isLink = false

variable {base : Base} {names : List (List UInt8)} {cur : Node}

theorem resolves_placed (hdir : ∀ k, t.kind (t.parent^[k] cwd) = .dir)
    (h : Placed t cwd base names cur) {cs : List (Component (List UInt8))} :
    t.Resolves routeOf (t.start cwd base.isRooted) ((base.components ++ names.map .name) ++ cs) m ↔
      t.Resolves routeOf cur cs m := by
  rw [List.append_assoc, resolves_base hdir]
  exact resolves_walk h.walk h.notLink

/-- A lookup behind an output is one from the node of the output. -/
theorem locates_out (hdir : ∀ k, t.kind (t.parent^[k] cwd) = .dir)
    (hn : ∀ n ∈ names, IsName n) (h : Placed t cwd base names cur) (hx : Plain x)
    (hne : extend (pathText base names) x ≠ []) :
    Locates t cwd (extend (pathText base names) x) m ↔ match componentOf x with
      | .name y => t.child cur y = some m
      | c => t.Resolves routeOf cur [c] m := by
  obtain ⟨habs, hcomponents⟩ := text_out base hn hx
  rw [locates_text hne, habs, hcomponents]
  cases hc : componentOf x with
  | here => exact (finds_other fun x heq => by cases heq).trans (resolves_placed hdir h)
  | up => exact (finds_other fun x heq => by cases heq).trans (resolves_placed hdir h)
  | name y =>
    have hfront : ∀ d, t.Resolves routeOf (t.start cwd base.isRooted)
        (base.components ++ names.map .name) d ↔ d = cur := by
      intro d
      have hplaced := @resolves_placed _ _ _ d _ _ _ hdir h []
      rwa [List.append_nil, resolves_nil] at hplaced
    rw [finds_name]
    simp only [hfront, exists_eq_left]

theorem names_out (hdir : ∀ k, t.kind (t.parent^[k] cwd) = .dir) (hn : ∀ n ∈ names, IsName n)
    (h : Placed t cwd base names cur) (hx : Plain x) (hne : extend (pathText base names) x ≠ []) :
    Names t cwd (extend (pathText base names) x) m ↔ t.Resolves routeOf cur [componentOf x] m := by
  obtain ⟨habs, hcomponents⟩ := text_out base hn hx
  rw [names_text hne, habs, hcomponents]
  exact resolves_placed hdir h

/-- An absolute text with names only reaches the node they walk to, which is what
the last of them names too. -/
theorem rooted_text (hdir : ∀ k, t.kind (t.parent^[k] cwd) = .dir) (double : Bool)
    (hn : ∀ n ∈ names, IsName n) (hwalk : t.walk t.root names = some cur)
    (hcur : (t.kind cur).isLink = false) :
    (Names t cwd (pathText (.rooted double) names) m ↔ m = cur) ∧
      (Locates t cwd (pathText (.rooted double) names) m ↔ m = cur) := by
  rcases List.eq_nil_or_concat' names with hnil | ⟨ms, n, hms⟩
  · subst hnil
    obtain rfl := Option.some.inj hwalk
    have hplaced : Placed t cwd (.rooted double) [] t.root := ⟨rfl, hcur⟩
    have hplain : Plain [] := fun c hc => (List.not_mem_nil hc).elim
    have htext : pathText (.rooted double) [] = extend (pathText (.rooted double) []) [] := by
      cases double <;> rfl
    have hne : extend (pathText (.rooted double) []) [] ≠ [] := by
      cases double <;> decide
    have hroot : t.Resolves routeOf t.root [.here] m ↔ m = t.root :=
      resolves_here.trans ((and_iff_right t.root_dir).trans resolves_nil)
    rw [htext]
    exact ⟨(names_out hdir hn hplaced hplain hne).trans hroot,
      (locates_out hdir hn hplaced hplain hne).trans hroot⟩
  · rw [hms, walk_snoc, Option.bind_eq_some_iff] at hwalk
    obtain ⟨d, hd, hx⟩ := hwalk
    have hms' : ∀ k ∈ ms, IsName k := fun k hk => hn k (by
      rw [hms]
      exact List.mem_append_left _ hk)
    have hname : IsName n := hn n (by
      rw [hms]
      exact List.mem_append_right _ (List.mem_singleton_self n))
    have hplaced : Placed t cwd (.rooted double) ms d := ⟨hd, isLink_parent hx⟩
    have hne : extend (pathText (.rooted double) ms) n ≠ [] := by simp [extend, hname.nonempty]
    have hfollow := names_out (m := m) hdir hms' hplaced hname.plain hne
    have hfind := locates_out (m := m) hdir hms' hplaced hname.plain hne
    rw [componentOf_name hname] at hfollow hfind
    have hchild : t.child d n = some m ↔ m = cur := by
      rw [hx, Option.some.injEq]
      exact eq_comm
    rw [hms, pathText_snoc]
    exact ⟨hfollow.trans ((resolves_name hx hcur).trans resolves_nil), hfind.trans hchild⟩

theorem placed_parent (h : Placed t cwd base names cur) (hcur : t.kind cur = .dir)
    (hup : names = [] → base.isRooted = true) :
    Placed t cwd base names.dropLast (t.parent cur) ∧ t.kind (t.parent cur) = .dir := by
  have hbase : names = [] → t.parent (base.node t cwd) = base.node t cwd := by
    intro hnil
    have hrooted := hup hnil
    cases base with
    | rooted double => exact t.parent_root
    | relative ups => cases hrooted
  obtain ⟨hwalk, hdir⟩ := walk_parent hbase h.walk hcur
  refine ⟨⟨hwalk, ?_⟩, hdir⟩
  rw [hdir]
  rfl

end LibcOverride.Path

import LibcOverride.Path.Tracking

/-!
# realpath resolves paths

On a file tree a call returns the absolute path without links of the node that
the filename names, and NULL only where there is none or for one of the limits.
-/

namespace LibcOverride.Path
open PathTree

variable {Node : Type} {t : FileTree Node} {cwd cur m : Node} {env : Env}
  {dir : List (List UInt8)} {filename : List UInt8}

/-! ### The working directory's text -/

theorem rooted_nameText {names : List (List UInt8)} (hn : ∀ n ∈ names, IsName n) :
    pathText (.rooted false) names = slash :: nameText names := by
  by_cases hnil : names = []
  · rw [hnil]
    rfl
  · have hglue : glue [slash] = [] := rfl
    refine (foldl_extend [slash] hnil hn).trans ?_
    rw [hglue]
    rfl

theorem rdropWhile_name {name : List UInt8} (hp : Plain name) (text : List UInt8) :
    (text ++ name).rdropWhile notSlash = text.rdropWhile notSlash := by
  induction name using List.reverseRecOn with
  | nil => rw [List.append_nil]
  | append_singleton name c ih =>
    have hc := (hp c (List.mem_append_right _ (List.mem_singleton_self c))).2
    rw [← List.append_assoc, List.rdropWhile_concat_pos _ _ _ (by simpa [notSlash] using hc)]
    exact ih fun d hd => hp d (List.mem_append_left _ hd)

theorem parentTail_nameText {names : List (List UInt8)} (hn : ∀ n ∈ names, IsName n) :
    parentTail (nameText names) = nameText names.dropLast := by
  rcases List.eq_nil_or_concat' names with rfl | ⟨ms, n, rfl⟩
  · rfl
  · have hname := hn n (List.mem_append_right _ (List.mem_singleton_self n))
    have htext : nameText (ms ++ [n]) = (nameText ms ++ glue (nameText ms)) ++ n := by
      rw [nameText, List.foldl_append, List.append_assoc]
      rfl
    rw [htext, List.dropLast_concat, parentTail, rdropWhile_name hname.plain]
    rcases List.eq_nil_or_concat' ms with rfl | ⟨ks, k, rfl⟩
    · rfl
    · have hk := hn k (List.mem_append_left _ (List.mem_append_right _ (List.mem_singleton_self k)))
      have hglue : glue (nameText (ks ++ [k])) = [slash] := by
        rw [nameText, List.foldl_append]
        exact glue_extend hk.nonempty hk.plain
      rw [hglue, List.rdropWhile_concat_neg _ _ _ (by decide), List.dropLast_concat]

theorem dropLasts_starts (k : ℕ) (names : List (List UInt8)) : List.dropLast^[k] names <+: names := by
  induction k with
  | zero => exact List.prefix_rfl
  | succ k ih =>
    rw [Function.iterate_succ_apply']
    exact (List.dropLast_prefix _).trans ih

theorem parentTails_nameText {names : List (List UInt8)} (hn : ∀ n ∈ names, IsName n) (k : ℕ) :
    parentTail^[k] (nameText names) = nameText (List.dropLast^[k] names) := by
  induction k with
  | zero => rfl
  | succ k ih =>
    rw [Function.iterate_succ_apply', Function.iterate_succ_apply', ih]
    exact parentTail_nameText fun n hmem => hn n ((dropLasts_starts k names).subset hmem)

theorem spliced_text {names : List (List UInt8)} (hd : ∀ n ∈ dir, IsName n) (ups : ℕ) :
    names.foldl extend (slash :: parentTail^[ups] (nameText dir)) =
      pathText (.rooted false) (List.dropLast^[ups] dir ++ names) := by
  have hfront : ∀ n ∈ List.dropLast^[ups] dir, IsName n := fun n hmem =>
    hd n ((dropLasts_starts ups dir).subset hmem)
  rw [parentTails_nameText hd, ← rooted_nameText hfront, pathText, pathText, List.foldl_append]

/-! ### What is returned -/

/-- An absolute text with neither `.`, `..`, an empty component nor a link, which
names what the filename does. -/
structure Canonical (t : FileTree Node) (cwd : Node) (filename text : List UInt8) : Prop where
  form : ∃ double names, text = pathText (.rooted double) names ∧ (∀ n ∈ names, IsName n) ∧
    ∀ front, front <+: names → ∀ n, Locates t cwd (pathText (.rooted double) front) n →
      (t.kind n).isLink = false
  same : ∃ node, ∀ n, (Names t cwd text n ↔ n = node) ∧ (Names t cwd filename n ↔ n = node)

theorem rooted_canonical (hs : env.Serves t cwd dir) (double : Bool) {names : List (List UInt8)}
    (hn : ∀ n ∈ names, IsName n) (hwalk : t.walk t.root names = some cur)
    (hcur : (t.kind cur).isLink = false) (hsame : ∀ n, Names t cwd filename n ↔ n = cur) :
    Canonical t cwd filename (pathText (.rooted double) names) := by
  have hdirs := serves_dirs hs
  refine ⟨⟨double, names, rfl, hn, fun front hpre n hloc => ?_⟩, cur, fun n => ⟨?_, hsame n⟩⟩
  · obtain ⟨c, hc, hlink⟩ := walk_notLink hpre hwalk hcur
    have hfront : ∀ n ∈ front, IsName n := fun k hk => hn k (hpre.subset hk)
    obtain ⟨_, hlocates⟩ := rooted_text (m := n) hdirs double hfront hc hlink
    rw [hlocates.mp hloc]
    exact hlink
  · exact (rooted_text hdirs double hn hwalk hcur).1

/-- The result is right for the filename, and where that names a node so is NULL. -/
def Sound (t : FileTree Node) (cwd : Node) (filename : List UInt8) : Result × List Query → Prop
  | (.path bytes, _) => ∃ text, bytes = text ++ [0] ∧ Canonical t cwd filename text
  | (.null e, trace) => ∀ n, Names t cwd filename n → Limited e trace

theorem deliver_sound {text : List UInt8} (h : Canonical t cwd filename text)
    (trace : List Query) (resolved : Bool) :
    Sound t cwd filename (deliver env text trace resolved) := by
  unfold deliver
  cases resolved with
  | true => exact ⟨text, rfl, h⟩
  | false =>
    dsimp only
    cases env.malloc trace (text.length + 1) with
    | true => exact ⟨text, rfl, h⟩
    | false => exact fun n _ => .strdup _ _

theorem finish_sound (hs : env.Serves t cwd dir) {v : View} (h : v.Tracks t cwd filename cur)
    (hg : v.Good) (hrest : v.rest = []) (hcheck : v.checkDir = false) (resolved : Bool) :
    Sound t cwd filename (v.finish env resolved) := by
  have hsame : ∀ n, Names t cwd filename n ↔ n = cur := by
    intro n
    rw [h.same, hrest, onward_nil, hcheck]
    exact and_iff_right fun hc => by cases hc
  unfold View.finish
  cases hbase : v.base with
  | rooted double =>
    have hwalk := h.walk
    rw [hbase] at hwalk
    have hcanon := rooted_canonical hs double hg.names hwalk h.notLink hsame
    unfold View.out
    rw [hbase]
    exact deliver_sound hcanon v.trace resolved
  | relative ups =>
    have hwalk := h.walk
    rw [hbase] at hwalk
    dsimp only
    cases hcwd : env.getcwd v.trace (pathMax + 1) with
    | failed e => exact fun n _ => .getcwd _ _ _
    | stored bytes =>
      have hbytes := hs.getcwd _ _ _ hcwd
      have htail : bytes.dropLast.tail = nameText dir := by
        rw [hbytes, List.dropLast_concat, rooted_nameText hs.names]
        rfl
      have hup := (walk_parents hs.path hs.isDir ups).1
      have hfront : ∀ n ∈ List.dropLast^[ups] dir, IsName n := fun n hmem =>
        hs.names n ((dropLasts_starts ups dir).subset hmem)
      have hnames := List.forall_mem_append.mpr ⟨hfront, hg.names⟩
      have hfull : t.walk t.root (List.dropLast^[ups] dir ++ v.names) = some cur := by
        rw [walk_append, hup]
        exact hwalk
      have hcanon := rooted_canonical hs false hnames hfull h.notLink hsame
      dsimp only
      rw [htail, spliced_text hs.names]
      split
      · exact fun n _ => .long _
      · exact deliver_sound hcanon _ resolved

theorem startView_tracks (hs : env.Serves t cwd dir) (hne : filename ≠ []) :
    (startView filename).Tracks t cwd filename cwd := by
  refine ⟨⟨rfl, by rw [hs.isDir]; rfl⟩, fun _ => hs.isDir, fun n => ?_⟩
  refine (onward_text hne).symm.trans ?_
  exact (and_iff_right fun hc => by cases hc).symm

/-- In a tree of directories, files and links from which `readlink` and `getcwd`
answer, a call returns a canonical path of the node that the filename names; it
returns NULL where there is none, and else only for a path that is too long, the
40th link, or a failure of `getcwd` or `strdup`. -/
theorem realpath_resolves {Node : Type} (t : FileTree Node) (cwd : Node) (dir : List (List UInt8))
    (env : Env) (hl : env.Links) (ha : env.Absolute) (hs : env.Serves t cwd dir)
    (stack output : List UInt8) (hstack : stack.length = pathMax + 1)
    (houtput : output.length = pathMax) (filename after : List UInt8) (hn : NulFree filename)
    (resolved : Bool) :
    ∃ r, realpath env stack output (some (filename ++ 0 :: after)) resolved = some r ∧
      Sound t cwd filename r ∧ ((∀ n, ¬Names t cwd filename n) → ∃ e, r.1 = .null e) := by
  have hnull : ∀ r, Sound t cwd filename r → (∀ n, ¬Names t cwd filename n) →
      ∃ e, r.1 = .null e := by
    rintro ⟨bytes | e, trace⟩ hr hno
    · obtain ⟨text, _, hcanon⟩ := hr
      obtain ⟨node, hnode⟩ := hcanon.same
      exact (hno node ((hnode node).2.mpr rfl)).elim
    · exact ⟨e, rfl⟩
  suffices hcall : ∃ r, realpath env stack output (some (filename ++ 0 :: after)) resolved =
      some r ∧ Sound t cwd filename r by
    obtain ⟨r, hr, hright⟩ := hcall
    exact ⟨r, hr, hright, hnull r hright⟩
  by_cases hne : filename = []
  · subst hne
    refine ⟨_, rfl, fun n hname => ?_⟩
    obtain ⟨r, hr, _⟩ := hname
    cases hr
  by_cases hlen : filename.length < pathMax
  · obtain ⟨r, hruns, hcall⟩ := realpath_runs hl ha after hstack houtput hn hne hlen resolved
    obtain ⟨hgood, hcount, _⟩ := startView_good hn hlen
    have hkeep : ∀ v w : View, (v.Good ∧ v.Counted ∧ ∃ cur, v.Tracks t cwd filename cur) →
        v.step env = .more w → w.Good ∧ w.Counted ∧ ∃ cur, w.Tracks t cwd filename cur := by
      rintro v w ⟨hg, hc, cur, htracks⟩ hstep
      obtain ⟨hg', hc', _⟩ := step_keeps hl hg hc hstep
      exact ⟨hg', hc', step_tracks hl hs htracks hg hstep⟩
    rcases runs_keep hkeep hruns ⟨hgood, hcount, cwd, startView_tracks hs hne⟩ with
      ⟨w, ⟨hg, _, cur, htracks⟩, rfl, hstep⟩ | ⟨w, e, trace, ⟨hg, hc, cur, htracks⟩, rfl, hstep⟩
    · obtain ⟨_, hrest, hcheck⟩ := step_done hstep
      exact ⟨_, hcall, finish_sound hs htracks hg hrest hcheck resolved⟩
    · exact ⟨_, hcall, fun n hname => step_refuses hs htracks hg hc hstep hname⟩
  · exact ⟨_, realpath_long env stack output hn (not_lt.mp hlen) after resolved, fun n _ => .long _⟩

/-! ### A small tree -/

inductive SampleNode where
  | root
  | sub
  | link
  deriving Repr, DecidableEq

/-- A directory `d` and a link `l` to it in the root. -/
def sampleChild : SampleNode → List UInt8 → Option SampleNode
  | .root, x => if x = [100] then some .sub else if x = [108] then some .link else none
  | _, _ => none

theorem sampleChild_cases {d n : SampleNode} {x : List UInt8} (h : sampleChild d x = some n) :
    d = .root ∧ ((x = [100] ∧ n = .sub) ∨ (x = [108] ∧ n = .link)) := by
  cases d with
  | root =>
    dsimp only [sampleChild] at h
    split_ifs at h with hd hl
    · exact ⟨rfl, Or.inl ⟨hd, (Option.some.inj h).symm⟩⟩
    · exact ⟨rfl, Or.inr ⟨hl, (Option.some.inj h).symm⟩⟩
  | sub => cases h
  | link => cases h

def sampleTree : FileTree SampleNode where
  kind n := if n = .link then .link [100] else .dir
  root := .root
  parent _ := .root
  child := sampleChild
  root_dir := rfl
  parent_root := rfl
  child_dir h := by rw [(sampleChild_cases h).1]; rfl
  child_parent h _ := (sampleChild_cases h).1.symm

/-- One component, through the link. -/
def sampleStep : SampleNode → Component (List UInt8) → Option SampleNode
  | .root, .name x => if x = [100] ∨ x = [108] then some .sub else none
  | .root, _ => some .root
  | .sub, .here => some .sub
  | .sub, .up => some .root
  | _, _ => none

theorem sampleTree_resolves {n m : SampleNode} {cs : List (Component (List UInt8))} :
    sampleTree.Resolves routeOf n cs m ↔ cs.foldlM sampleStep n = some m := by
  constructor
  · intro h
    induction h with
    | nil n => rfl
    | @here n m cs hn h ih =>
      cases n with
      | link => cases hn
      | root => exact ih
      | sub => exact ih
    | @up n m cs hn h ih =>
      cases n with
      | link => cases hn
      | root => exact ih
      | sub => exact ih
    | name hx hc h ih =>
      obtain ⟨rfl, ⟨rfl, rfl⟩ | ⟨rfl, rfl⟩⟩ := sampleChild_cases hx
      · exact ih
      · cases hc
    | link hx hc hr h ih =>
      obtain ⟨rfl, ⟨rfl, rfl⟩ | ⟨rfl, rfl⟩⟩ := sampleChild_cases hx
      · cases hc
      · cases hc
        cases hr
        exact ih
  · intro h
    induction cs generalizing n with
    | nil =>
      obtain rfl := Option.some.inj h
      exact .nil n
    | cons c cs ih =>
      rw [List.foldlM_cons] at h
      obtain ⟨k, hk, hrest⟩ := Option.bind_eq_some_iff.mp h
      have hcs := ih hrest
      cases n with
      | link => cases hk
      | sub =>
        cases c with
        | here =>
          cases hk
          exact .here rfl hcs
        | up =>
          cases hk
          exact .up rfl hcs
        | name x => cases hk
      | root =>
        cases c with
        | here =>
          cases hk
          exact .here rfl hcs
        | up =>
          cases hk
          exact .up rfl hcs
        | name x =>
          dsimp only [sampleStep] at hk
          split_ifs at hk with hx
          cases hk
          rcases hx with rfl | rfl
          · exact .name (c := .sub) rfl rfl hcs
          · exact .link (c := .link) rfl rfl rfl (.name (c := .sub) rfl rfl hcs)

/-- The node that a lookup from `d` finds. -/
def sampleLookup (text : List UInt8) : Option SampleNode :=
  let cs := components text
  let start := if isAbsolute text then .root else .sub
  if text = [] then none
  else match cs.getLast? with
    | some (.name x) => (cs.dropLast.foldlM sampleStep start).bind (sampleChild · x)
    | _ => cs.foldlM sampleStep start

theorem sampleLookup_locates {text : List UInt8} {n : SampleNode} :
    Locates sampleTree .sub text n ↔ sampleLookup text = some n := by
  by_cases hne : text = []
  · subst hne
    refine iff_of_false ?_ (by simp [sampleLookup])
    rintro ⟨r, hr, _⟩
    cases hr
  · obtain ⟨cs, c, hcs⟩ := (List.eq_nil_or_concat' (components text)).resolve_left
      (components_ne text)
    rw [locates_text hne, hcs]
    unfold sampleLookup
    rw [if_neg hne, hcs, List.getLast?_concat, List.dropLast_concat]
    cases c with
    | here => exact (finds_other fun x heq => by cases heq).trans sampleTree_resolves
    | up => exact (finds_other fun x heq => by cases heq).trans sampleTree_resolves
    | name x =>
      rw [finds_name]
      simp only [sampleTree_resolves, Option.bind_eq_some_iff]
      rfl

def sampleEnv : Env where
  readlink _ text size := match sampleLookup text with
    | none => .failed .enoent
    | some .link => .stored ([100].take size)
    | some _ => .failed .einval
  getcwd _ size := if 3 ≤ size then .stored [slash, 100, 0] else .failed (.other 34)
  malloc _ _ := true

theorem sampleEnv_links : sampleEnv.Links := by
  intro trace path size target h
  unfold sampleEnv at h
  dsimp only at h
  split at h
  · cases h
  · cases h
    exact ⟨List.length_take_le _ _, fun c hc => by
      rw [List.mem_singleton.mp (List.mem_of_mem_take hc)]
      decide⟩
  · cases h

theorem sampleEnv_absolute : sampleEnv.Absolute := by
  intro trace size bytes h
  unfold sampleEnv at h
  dsimp only at h
  split at h
  · cases h
    exact ⟨[100], rfl, nulFree_of_all rfl, by assumption⟩
  · cases h

theorem sampleEnv_serves : sampleEnv.Serves sampleTree .sub [[100]] where
  path := rfl
  isDir := rfl
  names n hn := by
    rw [List.mem_singleton.mp hn]
    exact ⟨by decide, fun c hc => by
      rw [List.mem_singleton.mp hc]
      decide, by decide, by decide⟩
  link trace text size n target _ _ hn hk := by
    cases n with
    | link =>
      cases hk
      have hlookup := sampleLookup_locates.mp hn
      unfold sampleEnv
      dsimp only
      rw [hlookup]
    | root => cases hk
    | sub => cases hk
  noLink trace text size n _ _ hn hk := by
    have hlookup := sampleLookup_locates.mp hn
    unfold sampleEnv
    dsimp only
    rw [hlookup]
    cases n with
    | link => cases hk
    | root => rfl
    | sub => rfl
  missing trace text size _ _ hno := by
    refine ⟨.enoent, by decide, ?_⟩
    have hlookup : sampleLookup text = none := by
      cases h : sampleLookup text with
      | none => rfl
      | some n => exact (hno n (sampleLookup_locates.mpr h)).elim
    unfold sampleEnv
    dsimp only
    rw [hlookup]
  getcwd trace size bytes h := by
    unfold sampleEnv at h
    dsimp only at h
    split at h
    · cases h
      rfl
    · cases h

/-- `../l` from `/d`. -/
theorem realpath_resolves_sample : ∃ r, realpath sampleEnv (List.replicate (pathMax + 1) 170)
    (List.replicate pathMax 170) (some ([dot, dot, slash, 108] ++ 0 :: [])) true = some r ∧
      Sound sampleTree .sub [dot, dot, slash, 108] r ∧
      ((∀ n, ¬Names sampleTree .sub [dot, dot, slash, 108] n) → ∃ e, r.1 = .null e) :=
  realpath_resolves sampleTree .sub [[100]] sampleEnv sampleEnv_links sampleEnv_absolute
    sampleEnv_serves _ _ List.length_replicate List.length_replicate _ _ (nulFree_of_all rfl) true

end LibcOverride.Path

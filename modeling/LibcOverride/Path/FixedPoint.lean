import LibcOverride.Path.Resolved

/-!
# realpath of a path it has returned

An absolute path of names that are no links goes through the loop name by name
and comes out as it was. On a file tree the paths returned are such, so a second
call changes nothing; for directories they are also the only ones.
-/

namespace LibcOverride.Path
open PathTree

variable {env : Env} {double : Bool} {names ms ns : List (List UInt8)} {n : List UInt8}

/-! ### A text of names, from the front -/

theorem nameText_cons (hn : IsName n) (hns : ∀ m ∈ ns, IsName m) :
    nameText (n :: ns) = n ++ if ns = [] then [] else slash :: nameText ns := by
  have hfirst : nameText (n :: ns) = ns.foldl extend n := rfl
  rw [hfirst]
  by_cases hnil : ns = []
  · rw [if_pos hnil, hnil, List.append_nil]
    rfl
  · have hglue : glue n = [slash] := @glue_append [] n hn.nonempty hn.plain
    rw [if_neg hnil, foldl_extend n hnil hns, hglue]
    rfl

theorem pathText_rooted (double : Bool) (hn : ∀ n ∈ names, IsName n) :
    pathText (.rooted double) names = (Base.rooted double).text ++ nameText names := by
  by_cases hnil : names = []
  · rw [hnil]
    exact (List.append_nil _).symm
  · have hglue : glue (Base.rooted double).text = [] := by cases double <;> rfl
    rw [pathText, foldl_extend _ hnil hn, hglue]
    rfl

theorem head_nameText (hn : ∀ n ∈ names, IsName n) : (nameText names).head? ≠ some slash := by
  cases names with
  | nil => exact Option.some_ne_none slash |>.symm
  | cons n ns =>
    have hname := hn n List.mem_cons_self
    rw [nameText_cons hname fun m hm => hn m (List.mem_cons_of_mem n hm)]
    obtain ⟨c, cs, hc⟩ := List.exists_cons_of_ne_nil hname.nonempty
    have hslash := (hname.plain c (by rw [hc]; exact List.mem_cons_self)).2
    rw [hc, List.cons_append, List.head?_cons]
    exact fun heq => hslash (Option.some.inj heq)

theorem strip_same {text : List UInt8} (h : text.head? ≠ some slash) : strip text = text := by
  cases text with
  | nil => rfl
  | cons c cs =>
    refine List.dropWhile_cons_of_neg ?_
    simpa [isSlash] using h

theorem strip_nameText (hn : ∀ n ∈ names, IsName n) : strip (nameText names) = nameText names :=
  strip_same (head_nameText hn)

theorem firstName_nameText (hn : IsName n) (hns : ∀ m ∈ ns, IsName m) :
    firstName (nameText (n :: ns)) = n ∧
      afterName (nameText (n :: ns)) = if ns = [] then [] else slash :: nameText ns := by
  have hall : ∀ c ∈ n, notSlash c = true := fun c hc => decide_eq_true (hn.plain c hc).2
  rw [nameText_cons hn hns]
  constructor
  · rw [firstName, List.takeWhile_append_of_pos hall]
    split
    · exact List.append_nil n
    · rw [List.takeWhile_cons_of_neg (by decide), List.append_nil]
  · rw [afterName, List.dropWhile_append_of_pos hall]
    split
    · rfl
    · exact List.dropWhile_cons_of_neg (by decide)

/-! ### The loop -/

theorem runs_unique {v : View} {r r' : ViewNext} (h : v.Runs env r) (h' : v.Runs env r') :
    r = r' := by
  induction h with
  | done h =>
    cases h' with
    | done h' => exact h.symm.trans h'
    | fail h' => exact h.symm.trans h'
    | more h' _ =>
      rw [h] at h'
      cases h'
  | fail h =>
    cases h' with
    | done h' => exact h.symm.trans h'
    | fail h' => exact h.symm.trans h'
    | more h' _ =>
      rw [h] at h'
      cases h'
  | more h _ ih =>
    cases h' with
    | done h' =>
      rw [h] at h'
      cases h'
    | fail h' =>
      rw [h] at h'
      cases h'
    | more h' hr =>
      rw [h] at h'
      cases h'
      exact ih hr

/-- `readlink` finds no link on the way. -/
def Env.LinkFree (env : Env) (double : Bool) (names : List (List UInt8)) : Prop :=
  ∀ front, front <+: names → front ≠ [] → ∀ trace size, 0 < size →
    env.readlink trace (pathText (.rooted double) front) size = .failed .einval

theorem length_pathText_part (base : Base) (hpre : ms <+: names) :
    (pathText base ms).length ≤ (pathText base names).length := by
  obtain ⟨rest, rfl⟩ := hpre
  rw [pathText, pathText, List.foldl_append]
  exact length_foldl_extend _ rest

theorem step_asks {v : View} (h : v.Asks) : v.step env = v.query env := by
  unfold View.step
  rw [if_neg h.head, if_neg, if_neg h.notHere, if_neg (Nat.not_le.mpr h.fits), if_neg, if_neg]
  · intro hup
    rw [(h.up hup.1).2] at hup
    cases hup.2
  · intro hup
    rw [(h.up hup.1).1] at hup
    cases hup.2
  · intro hend
    rw [h.empty hend.1] at hend
    cases hend.2

theorem query_plain {v : View} (hup : firstName v.rest ≠ upName)
    (hreply : env.readlink v.trace (extend v.out (firstName v.rest))
      (pathMax - (afterName v.rest).length) = .failed .einval) :
    ∃ trace, v.query env = .more { v.enter with trace := trace } := by
  refine ⟨v.trace ++ [.readlink (extend v.out (firstName v.rest))
    (pathMax - (afterName v.rest).length) (.failed .einval)], ?_⟩
  unfold View.query
  dsimp only
  rw [hreply]
  dsimp only
  rw [if_neg (not_not.mpr rfl), if_neg hup]
  rfl

/-- One name. -/
theorem rooted_step (hfree : env.LinkFree double (ms ++ n :: ns))
    (hn : ∀ m ∈ ms ++ n :: ns, IsName m)
    (hlen : (pathText (.rooted double) (ms ++ n :: ns)).length < pathMax) (check : Bool)
    (trace : List Query) :
    ∃ trace', View.step env ⟨nameText (n :: ns), .rooted double, ms, check, 0, trace⟩ =
      .more ⟨nameText ns, .rooted double, ms ++ [n], decide (ns ≠ []), 0, trace'⟩ := by
  have hname : IsName n := hn n (List.mem_append_right _ List.mem_cons_self)
  have hns : ∀ m ∈ ns, IsName m := fun m hm =>
    hn m (List.mem_append_right _ (List.mem_cons_of_mem n hm))
  have hall : ∀ m ∈ n :: ns, IsName m := fun m hm => hn m (List.mem_append_right _ hm)
  obtain ⟨hfirst, hafter⟩ := firstName_nameText hname hns
  have hpre : ms ++ [n] <+: ms ++ n :: ns := ⟨ns, by simp⟩
  have hout : extend (pathText (.rooted double) ms) n = pathText (.rooted double) (ms ++ [n]) :=
    (pathText_snoc _ _ _).symm
  have hfits : (extend (pathText (.rooted double) ms) n).length < pathMax := by
    have hle := length_pathText_part (.rooted double) hpre
    rw [hout]
    omega
  have hsize : 0 < pathMax - (afterName (nameText (n :: ns))).length := by
    have hsum := length_first_after (nameText (n :: ns))
    have hwhole : (nameText (n :: ns)).length ≤ (pathText (.rooted double) (ms ++ n :: ns)).length := by
      rw [pathText, List.foldl_append, foldl_extend _ (List.cons_ne_nil n ns) hall,
        List.length_append, List.length_append]
      omega
    omega
  have hreply := hfree _ hpre (by simp) trace _ hsize
  rw [← hout] at hreply
  have hasks : View.Asks ⟨nameText (n :: ns), .rooted double, ms, check, 0, trace⟩ := by
    refine ⟨head_nameText hall, ?_, ?_, ?_, ?_⟩
    · dsimp only
      rw [hfirst]
      exact hfits
    · dsimp only
      rw [hfirst]
      exact hname.notHere
    · dsimp only
      rw [hfirst]
      exact fun h => (hname.nonempty h).elim
    · dsimp only
      rw [hfirst]
      exact fun h => (hname.notUp h).elim
  obtain ⟨trace', hquery⟩ := query_plain (v := ⟨nameText (n :: ns), .rooted double, ms, check, 0,
    trace⟩) (by dsimp only; rw [hfirst]; exact hname.notUp) (by dsimp only; rw [hfirst]; exact hreply)
  refine ⟨trace', (step_asks hasks).trans (hquery.trans ?_)⟩
  unfold View.enter
  dsimp only
  rw [hfirst, hafter, if_neg hname.nonempty]
  by_cases hnil : ns = []
  · simp only [hnil, if_true]
    rfl
  · have hskip : strip (slash :: nameText ns) = strip (nameText ns) := List.dropWhile_cons_of_pos rfl
    simp [hnil, hskip, strip_nameText hns]

/-- All names, one after the other. -/
theorem rooted_runs (ns : List (List UInt8)) : ∀ (ms : List (List UInt8)) (check : Bool)
    (trace : List Query), env.LinkFree double (ms ++ ns) → (∀ m ∈ ms ++ ns, IsName m) →
    (pathText (.rooted double) (ms ++ ns)).length < pathMax → (ns = [] → check = false) →
    ∃ trace', View.Runs env ⟨nameText ns, .rooted double, ms, check, 0, trace⟩
      (.done ⟨[], .rooted double, ms ++ ns, false, 0, trace'⟩) := by
  induction ns with
  | nil =>
    intro ms check trace _ _ _ hcheck
    rw [hcheck rfl, List.append_nil]
    exact ⟨trace, .done rfl⟩
  | cons n ns ih =>
    intro ms check trace hfree hn hlen _
    obtain ⟨trace₁, hstep⟩ := rooted_step hfree hn hlen check trace
    have hsnoc : ms ++ n :: ns = ms ++ [n] ++ ns := by simp
    rw [hsnoc] at hfree hn hlen ⊢
    obtain ⟨trace₂, hruns⟩ := ih (ms ++ [n]) (decide (ns ≠ [])) trace₁ hfree hn hlen (by simp)
    exact ⟨trace₂, .more hstep hruns⟩

/-- The slashes in front. -/
theorem rooted_start (hn : ∀ n ∈ names, IsName n) :
    (startView (pathText (.rooted double) names)).step env =
      .more ⟨nameText names, .rooted double, [], false, 0, []⟩ := by
  have hhead := head_nameText hn
  have hstrip := strip_nameText hn
  rw [pathText_rooted double hn]
  cases double with
  | false =>
    have hreset : (startView (slash :: nameText names)).step env =
        .more (startView (slash :: nameText names)).reset := rfl
    refine hreset.trans ?_
    simp [View.reset, startView, hstrip, hhead]
  | true =>
    have hreset : (startView (slash :: slash :: nameText names)).step env =
        .more (startView (slash :: slash :: nameText names)).reset := rfl
    have hskip : strip (slash :: nameText names) = strip (nameText names) :=
      List.dropWhile_cons_of_pos rfl
    refine hreset.trans ?_
    simp [View.reset, startView, hskip, hstrip, hhead]

/-- A path of names that are no links is what a call on it returns. -/
theorem realpath_rooted (hl : env.Links) (ha : env.Absolute) {stack output : List UInt8}
    (hstack : stack.length = pathMax + 1) (houtput : output.length = pathMax)
    (hn : ∀ n ∈ names, IsName n) (hlen : (pathText (.rooted double) names).length < pathMax)
    (hfree : env.LinkFree double names) (after : List UInt8) :
    ∃ trace, ∀ resolved, realpath env stack output
      (some (pathText (.rooted double) names ++ 0 :: after)) resolved =
        some (deliver env (pathText (.rooted double) names) trace resolved) := by
  have hnul : NulFree (pathText (.rooted double) names) :=
    nulFree_foldl (by cases double <;> exact nulFree_of_all rfl) fun n h => plain_nulFree (hn n h).plain
  have hne : pathText (.rooted double) names ≠ [] := by
    rw [pathText_rooted double hn]
    cases double <;> exact List.cons_ne_nil _ _
  obtain ⟨trace, hrest⟩ := rooted_runs names [] false [] hfree hn hlen fun _ => rfl
  refine ⟨trace, fun resolved => ?_⟩
  obtain ⟨r, hruns, hcall⟩ := realpath_runs hl ha after hstack houtput hnul hne hlen resolved
  have hr := runs_unique hruns (.more (rooted_start hn) hrest)
  subst hr
  exact hcall

/-! ### On a file tree -/

variable {Node : Type} {t : FileTree Node} {cwd cur : Node} {dir : List (List UInt8)}
  {filename : List UInt8}

/-- A path that a call can have returned, with the node at its end. -/
structure Returned (t : FileTree Node) (cwd : Node) (filename : List UInt8) (double : Bool)
    (names : List (List UInt8)) (cur : Node) : Prop where
  parts : ∀ n ∈ names, IsName n
  size : (pathText (.rooted double) names).length < pathMax
  walk : t.walk t.root names = some cur
  notLink : (t.kind cur).isLink = false
  same : ∀ n, Names t cwd filename n ↔ n = cur

theorem deliver_path {text bytes : List UInt8} {trace trace' : List Query} {resolved : Bool}
    (h : deliver env text trace resolved = (.path bytes, trace')) : bytes = text ++ [0] := by
  unfold deliver at h
  split at h
  · cases h
    rfl
  · dsimp only at h
    split at h
    · cases h
      rfl
    · cases h

theorem finish_returned (hs : env.Serves t cwd dir) {v : View} (h : v.Tracks t cwd filename cur)
    (hg : v.Good) (hrest : v.rest = []) (hcheck : v.checkDir = false) {resolved : Bool}
    {bytes : List UInt8} {trace : List Query} (hf : v.finish env resolved = (.path bytes, trace)) :
    ∃ double names, bytes = pathText (.rooted double) names ++ [0] ∧
      Returned t cwd filename double names cur := by
  have hsame : ∀ n, Names t cwd filename n ↔ n = cur := by
    intro n
    rw [h.same, hrest, onward_nil, hcheck]
    exact and_iff_right fun hc => by cases hc
  have hwalk := h.walk
  have hsize := hg.size
  unfold View.finish at hf
  unfold View.out at hsize
  cases hbase : v.base with
  | rooted double =>
    rw [hbase] at hwalk hf hsize
    unfold View.out at hf
    rw [hbase] at hf
    exact ⟨double, v.names, deliver_path hf, hg.names, hsize, hwalk, h.notLink, hsame⟩
  | relative ups =>
    rw [hbase] at hwalk hf
    dsimp only at hf
    cases hcwd : env.getcwd v.trace (pathMax + 1) with
    | failed e =>
      rw [hcwd] at hf
      cases hf
    | stored stored =>
      have hstored := hs.getcwd _ _ _ hcwd
      have htail : stored.dropLast.tail = nameText dir := by
        rw [hstored, List.dropLast_concat, rooted_nameText hs.names]
        rfl
      have hfront : ∀ n ∈ List.dropLast^[ups] dir, IsName n := fun n hmem =>
        hs.names n ((dropLasts_starts ups dir).subset hmem)
      rw [hcwd] at hf
      dsimp only at hf
      rw [htail, spliced_text hs.names] at hf
      split at hf
      · cases hf
      · rename_i hfits
        refine ⟨false, List.dropLast^[ups] dir ++ v.names, deliver_path hf,
          List.forall_mem_append.mpr ⟨hfront, hg.names⟩, by omega, ?_, h.notLink, hsame⟩
        rw [walk_append, (walk_parents hs.path hs.isDir ups).1]
        exact hwalk

theorem realpath_returned (hl : env.Links) (ha : env.Absolute) (hs : env.Serves t cwd dir)
    {stack output : List UInt8} (hstack : stack.length = pathMax + 1)
    (houtput : output.length = pathMax) (hn : NulFree filename) {after bytes : List UInt8}
    {resolved : Bool} {trace : List Query}
    (h : realpath env stack output (some (filename ++ 0 :: after)) resolved =
      some (.path bytes, trace)) :
    ∃ double names cur, bytes = pathText (.rooted double) names ++ [0] ∧
      Returned t cwd filename double names cur := by
  by_cases hne : filename = []
  · subst hne
    cases h
  by_cases hlen : filename.length < pathMax
  · obtain ⟨r, hruns, hcall⟩ := realpath_runs hl ha after hstack houtput hn hne hlen resolved
    obtain ⟨hgood, hcount, _⟩ := startView_good hn hlen
    have hkeep : ∀ v w : View, (v.Good ∧ v.Counted ∧ ∃ cur, v.Tracks t cwd filename cur) →
        v.step env = .more w → w.Good ∧ w.Counted ∧ ∃ cur, w.Tracks t cwd filename cur := by
      intro v w hv hstep
      obtain ⟨hg, hc, cur, htracks⟩ := hv
      obtain ⟨hg', hc', _⟩ := step_keeps hl hg hc hstep
      exact ⟨hg', hc', step_tracks hl hs htracks hg hstep⟩
    rw [h] at hcall
    rcases runs_keep hkeep hruns ⟨hgood, hcount, cwd, startView_tracks hs hne⟩ with
      ⟨w, ⟨hg, _, cur, htracks⟩, hr, hstep⟩ | ⟨w, e, trace, _, hr, _⟩
    · subst hr
      obtain ⟨_, hrest, hcheck⟩ := step_done hstep
      obtain ⟨double, names, hbytes, hret⟩ :=
        finish_returned hs htracks hg hrest hcheck (Option.some.inj hcall).symm
      exact ⟨double, names, cur, hbytes, hret⟩
    · subst hr
      cases hcall
  · rw [realpath_long env stack output hn (Nat.le_of_not_lt hlen) after resolved] at h
    cases h

/-- The tree's own answers on the way to a node. -/
theorem Returned.linkFree (h : Returned t cwd filename double names cur)
    (hs : env.Serves t cwd dir) : env.LinkFree double names := by
  intro front hpre _ trace size hsize
  obtain ⟨c, hc, hlink⟩ := walk_notLink hpre h.walk h.notLink
  have hfront : ∀ n ∈ front, IsName n := fun k hk => h.parts k (hpre.subset hk)
  have hlocates := (rooted_text (m := c) (serves_dirs hs) double hfront hc hlink).2.mpr rfl
  have hlen := lt_of_le_of_lt (length_pathText_part (.rooted double) hpre) h.size
  exact hs.noLink trace _ size c hlen hsize hlocates hlink

/-- A path that a call has returned is returned unchanged by every later call on
it, whatever is behind its terminator; without a caller's buffer it is unless the
`malloc` of the copy fails. -/
theorem realpath_idempotent (t : FileTree Node) (cwd : Node) (dir : List (List UInt8)) (env : Env)
    (hl : env.Links) (ha : env.Absolute) (hs : env.Serves t cwd dir)
    (stack output : List UInt8) (hstack : stack.length = pathMax + 1)
    (houtput : output.length = pathMax) (filename after : List UInt8) (hn : NulFree filename)
    (resolved : Bool) (bytes : List UInt8) (trace : List Query)
    (h : realpath env stack output (some (filename ++ 0 :: after)) resolved =
      some (.path bytes, trace)) (stack' output' : List UInt8)
    (hstack' : stack'.length = pathMax + 1) (houtput' : output'.length = pathMax)
    (after' : List UInt8) :
    ∃ trace', realpath env stack' output' (some (bytes ++ after')) true =
        some (.path bytes, trace') ∧
      realpath env stack' output' (some (bytes ++ after')) false =
        some (if env.malloc trace' bytes.length then .path bytes else .null .enomem,
          trace' ++ [.malloc bytes.length (env.malloc trace' bytes.length)]) := by
  obtain ⟨double, names, cur, hbytes, hret⟩ := realpath_returned hl ha hs hstack houtput hn h
  obtain ⟨trace', hcall⟩ := realpath_rooted hl ha hstack' houtput' hret.parts hret.size
    (hret.linkFree hs) after'
  refine ⟨trace', ?_, ?_⟩
  · rw [hbytes, List.append_assoc]
    exact hcall true
  · rw [hbytes, List.append_assoc, List.length_append]
    exact hcall false

/-! ### One path for each directory -/

theorem splitOn_nameText (hne : names ≠ []) (hn : ∀ n ∈ names, IsName n) :
    (nameText names).splitOn slash = names := by
  induction names with
  | nil => exact (hne rfl).elim
  | cons n ns ih =>
    have hname := hn n List.mem_cons_self
    have hns : ∀ m ∈ ns, IsName m := fun m hm => hn m (List.mem_cons_of_mem n hm)
    have hplain : n.splitOn slash = [n] :=
      List.splitOn_eq_singleton fun hmem => (hname.plain slash hmem).2 rfl
    rw [nameText_cons hname hns]
    by_cases hnil : ns = []
    · rw [if_pos hnil, List.append_nil, hplain, hnil]
    · rw [if_neg hnil, List.splitOn_append_cons_self, hplain, ih hnil hns]
      rfl

theorem nameText_injective {names' : List (List UInt8)} (hn : ∀ n ∈ names, IsName n)
    (hn' : ∀ n ∈ names', IsName n) (h : nameText names = nameText names') : names = names' := by
  by_cases hnil : names = []
  · by_cases hnil' : names' = []
    · rw [hnil, hnil']
    · have hpos := length_nameText hnil' hn'
      rw [← h, hnil] at hpos
      exact absurd hpos (Nat.lt_irrefl 0)
  · by_cases hnil' : names' = []
    · have hpos := length_nameText hnil hn
      rw [h, hnil'] at hpos
      exact absurd hpos (Nat.lt_irrefl 0)
    · rw [← splitOn_nameText hnil hn, h, splitOn_nameText hnil' hn']

theorem strip_pathText (double : Bool) (hn : ∀ n ∈ names, IsName n) :
    strip (pathText (.rooted double) names ++ [0]) = nameText names ++ [0] := by
  have hrest : strip (nameText names ++ [0]) = nameText names ++ [0] := by
    apply strip_same
    have hhead := head_nameText hn
    cases htext : nameText names with
    | nil => decide
    | cons c cs => rwa [htext] at hhead
  have hskip (text : List UInt8) : strip (slash :: text) = strip text :=
    List.dropWhile_cons_of_pos rfl
  rw [pathText_rooted double hn]
  cases double with
  | false => exact (hskip _).trans hrest
  | true => exact (hskip _).trans ((hskip _).trans hrest)

/-- Two filenames, read from working directories of their own, name the same
directory exactly if the paths returned for them are the same behind the leading
slashes. -/
theorem realpath_same_directory (t : FileTree Node) (hp : t.Proper) (cwd cwd' : Node)
    (dir dir' : List (List UInt8)) (env env' : Env) (hl : env.Links) (hl' : env'.Links)
    (ha : env.Absolute) (ha' : env'.Absolute) (hs : env.Serves t cwd dir)
    (hs' : env'.Serves t cwd' dir') (stack output stack' output' : List UInt8)
    (hstack : stack.length = pathMax + 1) (houtput : output.length = pathMax)
    (hstack' : stack'.length = pathMax + 1) (houtput' : output'.length = pathMax)
    (filename filename' after after' : List UInt8) (hn : NulFree filename)
    (hn' : NulFree filename') (resolved resolved' : Bool) (bytes bytes' : List UInt8)
    (trace trace' : List Query)
    (h : realpath env stack output (some (filename ++ 0 :: after)) resolved =
      some (.path bytes, trace))
    (h' : realpath env' stack' output' (some (filename' ++ 0 :: after')) resolved' =
      some (.path bytes', trace'))
    (n : Node) (hnames : Names t cwd filename n) (hdir : t.kind n = .dir) :
    Names t cwd' filename' n ↔ strip bytes = strip bytes' := by
  obtain ⟨double, names, cur, hbytes, hret⟩ := realpath_returned hl ha hs hstack houtput hn h
  obtain ⟨double', names', cur', hbytes', hret'⟩ :=
    realpath_returned hl' ha' hs' hstack' houtput' hn' h'
  obtain rfl := (hret.same n).mp hnames
  rw [hret'.same n, hbytes, hbytes', strip_pathText double hret.parts,
    strip_pathText double' hret'.parts, List.append_cancel_right_eq]
  constructor
  · intro hcur
    have hwalk' := hret'.walk
    rw [← hcur] at hwalk'
    rw [walk_unique hp hret.walk hwalk' hdir]
  · intro htext
    have hwalk := hret.walk
    rw [nameText_injective hret.parts hret'.parts htext, hret'.walk] at hwalk
    exact (Option.some.inj hwalk).symm

/-! ### Calls on the small tree -/

theorem sampleTree_proper : sampleTree.Proper where
  root d x h := by
    obtain ⟨_, ⟨_, hn⟩ | ⟨_, hn⟩⟩ := sampleChild_cases h <;> cases hn
  directory d x y n hx hy hn := by
    obtain ⟨_, ⟨hxd, rfl⟩ | ⟨_, rfl⟩⟩ := sampleChild_cases hx
    · obtain ⟨_, ⟨hyd, _⟩ | ⟨_, hlink⟩⟩ := sampleChild_cases hy
      · rw [hxd, hyd]
      · cases hlink
    · cases hn

/-- A call runs as the loop on views does. -/
theorem realpath_eq (hl : env.Links) (ha : env.Absolute) {stack output : List UInt8}
    (after : List UInt8) (hstack : stack.length = pathMax + 1) (houtput : output.length = pathMax)
    (hn : NulFree filename) (hne : filename ≠ []) (hlen : filename.length < pathMax) (resolved : Bool)
    {v : View} (hruns : (startView filename).Runs env (.done v)) :
    realpath env stack output (some (filename ++ 0 :: after)) resolved =
      some (v.finish env resolved) := by
  obtain ⟨r, hr, hcall⟩ := realpath_runs hl ha after hstack houtput hn hne hlen resolved
  have heq := runs_unique hr hruns
  subst heq
  exact hcall

/-- `../l` from `/d` leads through the link back to `/d`. -/
theorem sample_link : ∃ trace, realpath sampleEnv (List.replicate (pathMax + 1) 170)
    (List.replicate pathMax 170) (some ([dot, dot, slash, 108] ++ 0 :: [])) true =
      some (.path [slash, 100, 0], trace) := by
  have hruns : (startView [dot, dot, slash, 108]).Runs sampleEnv (.done _) :=
    .more rfl (.more rfl (.more rfl (.done rfl)))
  exact ⟨_, realpath_eq sampleEnv_links sampleEnv_absolute [] List.length_replicate
    List.length_replicate (nulFree_of_all rfl) (by decide) (by decide) true hruns⟩

theorem sample_here : ∃ trace, realpath sampleEnv (List.replicate (pathMax + 1) 171)
    (List.replicate pathMax 171) (some ([dot] ++ 0 :: [])) true =
      some (.path [slash, 100, 0], trace) := by
  have hruns : (startView [dot]).Runs sampleEnv (.done _) := .more rfl (.done rfl)
  exact ⟨_, realpath_eq sampleEnv_links sampleEnv_absolute [] List.length_replicate
    List.length_replicate (nulFree_of_all rfl) (by decide) (by decide) true hruns⟩

theorem realpath_idempotent_link : ∃ trace,
    realpath sampleEnv (List.replicate (pathMax + 1) 171) (List.replicate pathMax 171)
      (some ([slash, 100, 0] ++ [])) true = some (.path [slash, 100, 0], trace) ∧
    realpath sampleEnv (List.replicate (pathMax + 1) 171) (List.replicate pathMax 171)
      (some ([slash, 100, 0] ++ [])) false =
        some (.path [slash, 100, 0], trace ++ [.malloc 3 true]) := by
  obtain ⟨trace, h⟩ := sample_link
  exact realpath_idempotent sampleTree .sub [[100]] sampleEnv sampleEnv_links sampleEnv_absolute
    sampleEnv_serves _ _ List.length_replicate List.length_replicate _ [] (nulFree_of_all rfl) true
    _ trace h _ _ List.length_replicate List.length_replicate []

theorem sample_above : ∃ trace, realpath sampleEnv (List.replicate (pathMax + 1) 171)
    (List.replicate pathMax 171) (some ([dot, dot] ++ 0 :: [])) true =
      some (.path [slash, 0], trace) := by
  have hruns : (startView [dot, dot]).Runs sampleEnv (.done _) := .more rfl (.done rfl)
  exact ⟨_, realpath_eq sampleEnv_links sampleEnv_absolute [] List.length_replicate
    List.length_replicate (nulFree_of_all rfl) (by decide) (by decide) true hruns⟩

/-- From `/d`, `../l` leads to the directory that `.` names, and `..` to another. -/
theorem realpath_same_directory_link :
    Names sampleTree .sub [dot] .sub ∧ ¬Names sampleTree .sub [dot, dot] .sub := by
  obtain ⟨trace, h⟩ := sample_link
  obtain ⟨here, hhere⟩ := sample_here
  obtain ⟨above, habove⟩ := sample_above
  have hnames : Names sampleTree .sub [dot, dot, slash, 108] .sub :=
    (names_text (by decide)).mpr (sampleTree_resolves.mpr (by decide))
  have hsame {filename' bytes' : List UInt8} {trace' : List Query} (hn' : NulFree filename')
      (h' : realpath sampleEnv (List.replicate (pathMax + 1) 171) (List.replicate pathMax 171)
        (some (filename' ++ 0 :: [])) true = some (.path bytes', trace')) :=
    realpath_same_directory sampleTree sampleTree_proper .sub .sub [[100]] [[100]] sampleEnv
      sampleEnv sampleEnv_links sampleEnv_links sampleEnv_absolute sampleEnv_absolute
      sampleEnv_serves sampleEnv_serves _ _ _ _ List.length_replicate List.length_replicate
      List.length_replicate List.length_replicate _ filename' [] [] (nulFree_of_all rfl) hn'
      true true _ bytes' trace trace' h h' .sub hnames rfl
  refine ⟨(hsame (nulFree_of_all rfl) hhere).mpr rfl, fun hup => ?_⟩
  exact absurd ((hsame (nulFree_of_all rfl) habove).mp hup) (by decide)

end LibcOverride.Path

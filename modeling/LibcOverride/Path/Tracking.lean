import LibcOverride.Path.Resolution

/-!
# What the loop has resolved

In a file tree every view of the loop stands at a node: its output names that
node without a link, and what is unread leads from it to where the filename does.
-/

namespace LibcOverride.Path
open PathTree

variable {Node : Type} {t : FileTree Node} {cwd cur m : Node}

/-- `cur` is known to be a directory where a link was just found in it, which may
start with a slash, and where no check is pending. -/
structure View.Tracks (t : FileTree Node) (cwd : Node) (filename : List UInt8) (v : View)
    (cur : Node) : Prop extends Placed t cwd v.base v.names cur where
  dir : v.rest.head? = some slash ∨ (v.checkDir = false ∧ v.rest ≠ []) → t.kind cur = .dir
  same : ∀ m, Names t cwd filename m ↔
    (v.checkDir = true → t.kind cur = .dir) ∧ Onward t cur v.rest m

variable {filename : List UInt8} {v : View}

theorem tracks_trace (h : v.Tracks t cwd filename cur) (trace : List Query) :
    View.Tracks t cwd filename { v with trace := trace } cur := ⟨h.toPlaced, h.dir, h.same⟩

theorem strip_head (text : List UInt8) : (strip text).head? ≠ some slash := by
  intro h
  have hhead := List.head?_dropWhile_not isSlash text
  unfold strip at h
  rw [h] at hhead
  exact absurd hhead (by decide)

theorem rest_ne {text x : List UInt8} (h : firstName text = x) (hx : x ≠ []) : text ≠ [] := by
  intro hnil
  rw [hnil] at h
  exact hx h.symm

theorem rest_of_name {text y : List UInt8} (h : componentOf (firstName text) = .name y) :
    text ≠ [] := by
  intro hnil
  rw [hnil] at h
  cases h

/-- What the next component has to lead to. -/
theorem tracks_first (h : v.Tracks t cwd filename cur) (hg : v.Good) (hne : v.rest ≠ [])
    (hhead : v.rest.head? ≠ some slash) (m : Node) : Names t cwd filename m ↔
      t.Resolves routeOf cur (componentOf (firstName v.rest) :: behind (afterName v.rest)) m := by
  rw [h.same, onward_first hg.rest hne hhead]
  exact and_iff_right_of_imp fun hm _ => resolves_dir (List.cons_ne_nil _ _) hm

/-! ### Components that are not looked up -/

theorem tracks_reset (h : v.Tracks t cwd filename cur) (hhead : v.rest.head? = some slash) :
    v.reset.Tracks t cwd filename t.root := by
  obtain ⟨tail, htail⟩ := List.head?_eq_some_iff.mp hhead
  have hrest : v.reset.rest = strip tail := by
    show strip v.rest.tail = _
    rw [htail]
    rfl
  have hcur := h.dir (Or.inl hhead)
  have hroot := t.root_dir
  refine ⟨⟨rfl, by rw [hroot]; rfl⟩, fun _ => hroot, fun m => ?_⟩
  have hcons : components (slash :: tail) = .here :: components tail := components_slash [] tail
  rw [h.same, htail, onward_text (List.cons_ne_nil _ _), names_text (List.cons_ne_nil _ _), hcons,
    resolves_here_cons (components_ne tail), hrest]
  refine (and_iff_right fun _ => hcur).trans ((resolves_strip tail).trans ?_)
  exact (and_iff_right hroot).trans (and_iff_right fun hc => by cases hc).symm

theorem tracks_skip (h : v.Tracks t cwd filename cur) (hg : v.Good)
    (hhead : v.rest.head? ≠ some slash) (hname : firstName v.rest = [dot]) :
    v.skip.Tracks t cwd filename cur := by
  have hne := rest_ne hname (by decide)
  have hcur : v.checkDir = false → t.kind cur = .dir := fun hc => h.dir (Or.inr ⟨hc, hne⟩)
  refine ⟨h.toPlaced, ?_, fun m => ?_⟩
  · rintro (hslash | ⟨hc, _⟩)
    · exact (strip_head _ hslash).elim
    · exact hcur hc
  · have hhere : componentOf (firstName v.rest) = .here := by
      rw [hname]
      rfl
    rw [tracks_first h hg hne hhead, hhere, resolves_here, resolves_behind]
    show _ ↔ (v.checkDir = true → t.kind cur = .dir) ∧ Onward t cur (strip (afterName v.rest)) m
    cases hc : v.checkDir with
    | false => simp [hcur hc]
    | true =>
      simp only [forall_const]
      tauto

/-- `..` leads on from the parent. -/
theorem tracks_up (h : v.Tracks t cwd filename cur) (hg : v.Good)
    (hhead : v.rest.head? ≠ some slash) (hname : firstName v.rest = upName)
    (hcur : t.kind cur = .dir) (hparent : t.kind (t.parent cur) = .dir) (m : Node) :
    Names t cwd filename m ↔ Onward t (t.parent cur) (strip (afterName v.rest)) m := by
  have hup : componentOf (firstName v.rest) = .up := by
    rw [hname]
    rfl
  rw [tracks_first h hg (rest_ne hname (by decide)) hhead, hup, resolves_up, resolves_behind]
  exact (and_iff_right hcur).trans (and_iff_right fun _ => hparent)

theorem tracks_pend (hdirs : ∀ k, t.kind (t.parent^[k] cwd) = .dir)
    (h : v.Tracks t cwd filename cur) (hg : v.Good) (hhead : v.rest.head? ≠ some slash)
    (hname : firstName v.rest = upName) (honly : v.onlyUps = true) :
    v.pend.Tracks t cwd filename (t.parent cur) := by
  have hnames := onlyUps_names honly
  have hcur : t.parent^[v.base.ups] cwd = cur := by
    have hwalk := h.walk
    rw [hnames] at hwalk
    cases hbase : v.base with
    | rooted double =>
      unfold View.onlyUps at honly
      rw [hbase] at honly
      cases honly
    | relative ups =>
      rw [hbase] at hwalk
      exact Option.some.inj hwalk
  have hnode : t.parent^[v.base.ups + 1] cwd = t.parent cur := by
    rw [Function.iterate_succ_apply', hcur]
  have hdir : t.kind cur = .dir := hcur ▸ hdirs _
  have hparent : t.kind (t.parent cur) = .dir := hnode ▸ hdirs _
  refine ⟨⟨congrArg some hnode, by rw [hparent]; rfl⟩, fun _ => hparent, fun m => ?_⟩
  refine (tracks_up h hg hhead hname hdir hparent m).trans ?_
  exact (and_iff_right fun _ => hparent).symm

/-- The node of an output with a name, or of a root, has a directory above it. -/
theorem tracks_parent (h : v.Tracks t cwd filename cur) (honly : v.onlyUps = false)
    (hcur : t.kind cur = .dir) :
    Placed t cwd v.base v.names.dropLast (t.parent cur) ∧ t.kind (t.parent cur) = .dir := by
  refine placed_parent h.toPlaced hcur fun hnil => ?_
  unfold View.onlyUps at honly
  cases hbase : v.base with
  | rooted double => rfl
  | relative ups =>
    rw [hbase, hnil] at honly
    cases honly

theorem tracks_cancel (h : v.Tracks t cwd filename cur) (hg : v.Good)
    (hhead : v.rest.head? ≠ some slash) (hname : firstName v.rest = upName)
    (honly : v.onlyUps = false) (hcur : t.kind cur = .dir) :
    v.cancel.Tracks t cwd filename (t.parent cur) := by
  obtain ⟨hplaced, hparent⟩ := tracks_parent h honly hcur
  refine ⟨hplaced, fun _ => hparent, fun m => ?_⟩
  refine (tracks_up h hg hhead hname hcur hparent m).trans ?_
  exact (and_iff_right fun _ => hparent).symm

/-! ### Lookups -/

variable {env : Env} {dir : List (List UInt8)}

theorem serves_dirs (hs : env.Serves t cwd dir) (k : ℕ) : t.kind (t.parent^[k] cwd) = .dir :=
  (walk_parents hs.path hs.isDir k).2

/-- All that `readlink` can answer. -/
inductive Reply (t : FileTree Node) (cwd : Node) (text : List UInt8) (size : ℕ) : Answer → Prop
  | link {n : Node} {target : List UInt8} (hn : Locates t cwd text n)
      (hk : t.kind n = .link target) : Reply t cwd text size (.stored (target.take size))
  | plain {n : Node} (hn : Locates t cwd text n) (hk : (t.kind n).isLink = false) :
      Reply t cwd text size (.failed .einval)
  | missing {e : Errno} (h : ∀ n, ¬Locates t cwd text n) (he : e ≠ .einval) :
      Reply t cwd text size (.failed e)

theorem serves_reply (hs : env.Serves t cwd dir) (trace : List Query) {text : List UInt8} {size : ℕ}
    (hlen : text.length < pathMax) (hsize : 0 < size) :
    Reply t cwd text size (env.readlink trace text size) := by
  by_cases hex : ∃ n, Locates t cwd text n
  · obtain ⟨n, hn⟩ := hex
    cases hk : t.kind n with
    | link target =>
      rw [hs.link trace text size n target hlen hsize hn hk]
      exact .link hn hk
    | dir =>
      have hlink : (t.kind n).isLink = false := by rw [hk]; rfl
      rw [hs.noLink trace text size n hlen hsize hn hlink]
      exact .plain hn hlink
    | file =>
      have hlink : (t.kind n).isLink = false := by rw [hk]; rfl
      rw [hs.noLink trace text size n hlen hsize hn hlink]
      exact .plain hn hlink
  · obtain ⟨e, he, hfail⟩ := hs.missing trace text size hlen hsize (not_exists.mp hex)
    rw [hfail]
    exact .missing (not_exists.mp hex) he

/-- A lookup asks for the next component below the node of the output. -/
theorem asks_locates (hs : env.Serves t cwd dir) (h : v.Tracks t cwd filename cur) (hg : v.Good)
    (ha : v.Asks) (m : Node) : Locates t cwd (extend v.out (firstName v.rest)) m ↔
      match componentOf (firstName v.rest) with
      | .name y => t.child cur y = some m
      | c => t.Resolves routeOf cur [c] m := by
  refine locates_out (serves_dirs hs) hg.names h.toPlaced (plain_firstName hg.rest) ?_
  intro hnil
  obtain ⟨hout, hrest⟩ := List.append_eq_nil_iff.mp hnil
  have hnames := hg.check (ha.empty (List.append_eq_nil_iff.mp hrest).2)
  obtain ⟨ms, n, hms⟩ := (List.eq_nil_or_concat' v.names).resolve_left hnames
  have hn := hg.names n (by rw [hms]; exact List.mem_append_right _ (List.mem_singleton_self n))
  rw [hms, pathText_snoc] at hout
  exact hn.nonempty (List.append_eq_nil_iff.mp (List.append_eq_nil_iff.mp hout).2).2

theorem asks_size (hg : v.Good) : 0 < pathMax - (afterName v.rest).length := by
  have hshort := hg.short
  have hsum := length_first_after v.rest
  omega

/-- Where the filename names a node, the lookup finds one. -/
theorem asks_found (hs : env.Serves t cwd dir) (h : v.Tracks t cwd filename cur) (hg : v.Good)
    (ha : v.Asks) (hm : Names t cwd filename m) :
    ∃ n, Locates t cwd (extend v.out (firstName v.rest)) n := by
  have hasks := asks_locates hs h hg ha
  by_cases hne : v.rest = []
  · have hname : firstName v.rest = [] := by
      rw [hne]
      rfl
    have hcur := ((h.same m).mp hm).1 (ha.empty hname)
    refine ⟨cur, (hasks cur).mpr ?_⟩
    rw [hname]
    exact .here hcur (.nil cur)
  · have hfirst := (tracks_first h hg hne ha.head m).mp hm
    cases hc : componentOf (firstName v.rest) with
    | name y =>
      rw [hc] at hfirst hasks
      obtain ⟨n, hn⟩ := resolves_child hfirst
      exact ⟨n, (hasks n).mpr hn⟩
    | here =>
      rw [hc] at hfirst hasks
      obtain ⟨k, hk⟩ := resolves_first hfirst
      exact ⟨k, (hasks k).mpr hk⟩
    | up =>
      rw [hc] at hfirst hasks
      obtain ⟨k, hk⟩ := resolves_first hfirst
      exact ⟨k, (hasks k).mpr hk⟩

/-- Only a name leads to a link. -/
theorem asks_link (hs : env.Serves t cwd dir) (h : v.Tracks t cwd filename cur) (hg : v.Good)
    (ha : v.Asks) {n : Node} (hn : Locates t cwd (extend v.out (firstName v.rest)) n)
    (hlink : (t.kind n).isLink = true) :
    ∃ y, componentOf (firstName v.rest) = .name y ∧ t.child cur y = some n := by
  rw [asks_locates hs h hg ha] at hn
  cases hc : componentOf (firstName v.rest) with
  | name y =>
    rw [hc] at hn
    exact ⟨y, rfl, hn⟩
  | here =>
    rw [hc] at hn
    obtain ⟨_, hnil⟩ := resolves_here.mp hn
    rw [resolves_nil.mp hnil, h.notLink] at hlink
    cases hlink
  | up =>
    rw [hc] at hn
    have hname : firstName v.rest = upName := by
      unfold componentOf at hc
      split_ifs at hc with _ hup
      exact hup
    obtain ⟨hcur, hnil⟩ := resolves_up.mp hn
    obtain ⟨_, hparent⟩ := tracks_parent h (ha.up hname).1 hcur
    rw [resolves_nil.mp hnil, hparent] at hlink
    cases hlink

theorem tracks_check (h : v.Tracks t cwd filename cur) (ha : v.Asks)
    (hname : firstName v.rest = []) (hcur : t.kind cur = .dir) :
    v.enter.Tracks t cwd filename cur := by
  have hnil := rest_nil ha.head hname
  have hrest : v.enter.rest = [] := by
    unfold View.enter
    rw [hnil]
    rfl
  have hnames : v.enter.names = v.names := if_pos hname
  refine ⟨⟨?_, h.notLink⟩, fun _ => hcur, fun m => ?_⟩
  · rw [hnames]
    exact h.walk
  · rw [h.same, hnil, hrest]
    exact and_congr_left fun _ => iff_of_true (fun _ => hcur) fun _ => hcur

theorem tracks_enter (h : v.Tracks t cwd filename cur) (hg : v.Good) (ha : v.Asks)
    (hname : IsName (firstName v.rest)) {n : Node} (hx : t.child cur (firstName v.rest) = some n)
    (hn : (t.kind n).isLink = false) : v.enter.Tracks t cwd filename n := by
  have hne := rest_ne rfl hname.nonempty
  have hnames : v.enter.names = v.names ++ [firstName v.rest] := if_neg hname.nonempty
  have hcheck : v.enter.checkDir = true ↔ afterName v.rest ≠ [] := decide_eq_true_iff
  refine ⟨⟨?_, hn⟩, ?_, fun m => ?_⟩
  · rw [hnames, walk_snoc]
    exact (congrArg (Option.bind · _) h.walk).trans hx
  · rintro (hslash | ⟨hc, hrest⟩)
    · exact (strip_head _ hslash).elim
    · have hnil : afterName v.rest = [] := by
        rw [← Bool.not_eq_true, hcheck, not_not] at hc
        exact hc
      refine (hrest ?_).elim
      show strip (afterName v.rest) = []
      rw [hnil]
      rfl
  · rw [tracks_first h hg hne ha.head, componentOf_name hname, resolves_name hx hn,
      resolves_behind, hcheck]
    rfl

theorem tracks_follow (h : v.Tracks t cwd filename cur) (hg : v.Good) (ha : v.Asks)
    {y target : List UInt8} {n : Node} (hc : componentOf (firstName v.rest) = .name y)
    (hx : t.child cur y = some n) (hn : t.kind n = .link target) (hne : target ≠ []) :
    (v.follow target).Tracks t cwd filename cur := by
  have hcur := t.child_dir hx
  have hrest := rest_of_name hc
  have hfront : (v.follow target).rest ≠ [] := List.append_ne_nil_of_left_ne_nil hne _
  have habs : isAbsolute (v.follow target).rest = isAbsolute target := by
    unfold isAbsolute View.follow
    rw [List.head?_append_of_ne_nil _ hne]
  refine ⟨h.toPlaced, fun _ => hcur, fun m => ?_⟩
  rw [tracks_first h hg hrest ha.head, hc, resolves_link hx hn]
  refine Iff.trans ?_ (and_iff_right fun _ => hcur).symm
  rw [onward_text hfront, names_text hfront, habs]
  refine Iff.trans ?_ (resolves_target v.rest).symm
  rw [routeOf_some hne]
  simp

/-! ### The loop -/

theorem asks_reply (hs : env.Serves t cwd dir) (hg : v.Good) (ha : v.Asks) {answer : Answer}
    (hans : env.readlink v.trace (extend v.out (firstName v.rest))
      (pathMax - (afterName v.rest).length) = answer) :
    Reply t cwd (extend v.out (firstName v.rest)) (pathMax - (afterName v.rest).length) answer := by
  have hreply := serves_reply hs v.trace ha.fits (asks_size hg)
  rwa [hans] at hreply

theorem asks_plain (hs : env.Serves t cwd dir) (h : v.Tracks t cwd filename cur) (hg : v.Good)
    (ha : v.Asks) (hans : env.readlink v.trace (extend v.out (firstName v.rest))
      (pathMax - (afterName v.rest).length) = .failed .einval) :
    ∃ n, (t.kind n).isLink = false ∧ match componentOf (firstName v.rest) with
      | .name y => t.child cur y = some n
      | c => t.Resolves routeOf cur [c] n := by
  cases asks_reply hs hg ha hans with
  | plain hn hk => exact ⟨_, hk, (asks_locates hs h hg ha _).mp hn⟩
  | missing hno he => exact (he rfl).elim

theorem asks_target (hs : env.Serves t cwd dir) (h : v.Tracks t cwd filename cur) (hg : v.Good)
    (ha : v.Asks) {bytes : List UInt8}
    (hans : env.readlink v.trace (extend v.out (firstName v.rest))
      (pathMax - (afterName v.rest).length) = .stored bytes) :
    ∃ y n target, componentOf (firstName v.rest) = .name y ∧ t.child cur y = some n ∧
      t.kind n = .link target ∧ bytes = target.take (pathMax - (afterName v.rest).length) := by
  cases asks_reply hs hg ha hans with
  | link hn hk =>
    obtain ⟨y, hc, hx⟩ := asks_link hs h hg ha hn (by rw [hk]; rfl)
    exact ⟨y, _, _, hc, hx, hk, rfl⟩

theorem query_tracks (hl : env.Links) (hs : env.Serves t cwd dir) {v' : View}
    (h : v.Tracks t cwd filename cur) (hg : v.Good) (ha : v.Asks)
    (hstep : v.query env = .more v') : ∃ cur', v'.Tracks t cwd filename cur' := by
  obtain ⟨answer, hans, hanswered⟩ := query_answered env v
  rw [hstep] at hanswered
  cases hanswered with
  | up name answer =>
    obtain ⟨n, _, hn⟩ := asks_plain hs h hg ha answer
    rw [name] at hn
    have hcur := (resolves_up.mp hn).1
    exact ⟨_, tracks_trace (tracks_cancel h hg ha.head name (ha.up name).1 hcur) _⟩
  | plain name answer =>
    obtain ⟨n, hlink, hn⟩ := asks_plain hs h hg ha answer
    by_cases hempty : firstName v.rest = []
    · rw [hempty] at hn
      have hcur := (resolves_here.mp hn).1
      exact ⟨_, tracks_trace (tracks_check h ha hempty hcur) _⟩
    · have hname : IsName (firstName v.rest) :=
        ⟨hempty, plain_firstName hg.rest, ha.notHere, name⟩
      rw [componentOf_name hname] at hn
      exact ⟨_, tracks_trace (tracks_enter h hg ha hname hn hlink) _⟩
  | link bytes answer short nonempty count =>
    obtain ⟨y, n, target, hc, hx, hk, htake⟩ := asks_target hs h hg ha answer
    obtain ⟨hlen, _⟩ := hl _ _ _ _ answer
    -- what was stored was not cut off
    have hwhole : bytes = target := by
      rw [htake, List.length_take] at hlen short
      rw [htake, List.take_of_length_le (by omega)]
    subst hwhole
    exact ⟨_, tracks_trace (tracks_follow h hg ha hc hx hk nonempty) _⟩

theorem step_tracks (hl : env.Links) (hs : env.Serves t cwd dir) {v' : View}
    (h : v.Tracks t cwd filename cur) (hg : v.Good) (hstep : v.step env = .more v') :
    ∃ cur', v'.Tracks t cwd filename cur' := by
  generalize hnext : v.step env = next at hstep
  have hb := step_branch env v
  rw [hnext] at hb
  cases hb with
  | reset head =>
    cases hstep
    exact ⟨_, tracks_reset h head⟩
  | done head name check => cases hstep
  | skip head name =>
    cases hstep
    exact ⟨_, tracks_skip h hg head name⟩
  | long head size => cases hstep
  | pend head name fits only =>
    cases hstep
    exact ⟨_, tracks_pend (serves_dirs hs) h hg head name only⟩
  | cancel head name only check =>
    cases hstep
    have hcur := h.dir (Or.inr ⟨check, rest_ne name (by decide)⟩)
    exact ⟨_, tracks_cancel h hg head name only hcur⟩
  | ask ha => exact query_tracks hl hs h hg ha hstep

/-- A NULL for which the path itself is not the reason. -/
inductive Limited : Errno → List Query → Prop
  | long (trace : List Query) : Limited .enametoolong trace
  | loop (trace : List Query) (path : List UInt8) (size : ℕ) (target : List UInt8)
      (h : linksRead (trace ++ [.readlink path size (.stored target)]) = symloopMax) :
      Limited .eloop (trace ++ [.readlink path size (.stored target)])
  | getcwd (trace : List Query) (size : ℕ) (e : Errno) :
      Limited e (trace ++ [.getcwd size (.failed e)])
  | strdup (trace : List Query) (size : ℕ) : Limited .enomem (trace ++ [.malloc size false])

theorem query_refuses (hs : env.Serves t cwd dir) (h : v.Tracks t cwd filename cur) (hg : v.Good)
    (hcount : v.Counted) (ha : v.Asks) {e : Errno} {trace : List Query}
    (hstep : v.query env = .fail e trace) (hm : Names t cwd filename m) : Limited e trace := by
  obtain ⟨n, hn⟩ := asks_found hs h hg ha hm
  obtain ⟨answer, hans, hanswered⟩ := query_answered env v
  rw [hstep] at hanswered
  cases hanswered with
  | refused e answer he =>
    cases asks_reply hs hg ha answer with
    | plain hn hk => exact (he rfl).elim
    | missing hno he => exact (hno n hn).elim
  | long => exact .long _
  | empty answer =>
    obtain ⟨y, n, target, hc, hx, hk, htake⟩ := asks_target hs h hg ha answer
    have hrest := rest_of_name hc
    have hfirst := (tracks_first h hg hrest ha.head m).mp hm
    rw [hc, resolves_link hx hk] at hfirst
    obtain ⟨r, hr, _⟩ := hfirst
    have hsize := asks_size hg
    have hlen := congrArg List.length htake
    rw [List.length_take, List.length_nil] at hlen
    obtain rfl : target = [] := List.length_eq_zero_iff.mp (by omega)
    cases hr
  | loop count target answer =>
    rw [answer] at hans
    subst hans
    refine .loop _ _ _ _ ?_
    rw [linksRead_stored, hcount.links]
    exact count

theorem step_refuses (hs : env.Serves t cwd dir) (h : v.Tracks t cwd filename cur) (hg : v.Good)
    (hcount : v.Counted) {e : Errno} {trace : List Query} (hstep : v.step env = .fail e trace)
    (hm : Names t cwd filename m) : Limited e trace := by
  generalize hnext : v.step env = next at hstep
  have hb := step_branch env v
  rw [hnext] at hb
  cases hb with
  | reset head => cases hstep
  | done head name check => cases hstep
  | skip head name => cases hstep
  | long head size =>
    cases hstep
    exact .long _
  | pend head name fits only => cases hstep
  | cancel head name only check => cases hstep
  | ask ha => exact query_refuses hs h hg hcount ha hstep hm

end LibcOverride.Path

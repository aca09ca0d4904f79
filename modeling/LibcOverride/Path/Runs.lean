import LibcOverride.Path.Lockstep

/-!
# Runs of the loop

What an iteration on a view can do, what it keeps, and that it comes to an end.
-/

namespace LibcOverride.Path
open Buffer

/-! ### The branches of an iteration on a view -/

/-- The name that is looked up in `query`: a new one, `..` behind a name that must
be a directory, or nothing behind such a name. -/
structure View.Asks (v : View) : Prop where
  head : v.rest.head? ≠ some slash
  fits : (extend v.out (firstName v.rest)).length < pathMax
  notHere : firstName v.rest ≠ [dot]
  empty : firstName v.rest = [] → v.checkDir = true
  up : firstName v.rest = upName → v.onlyUps = false ∧ v.checkDir = true

/-- All that an iteration can do. -/
inductive View.Branch (env : Env) (v : View) : ViewNext → Prop
  | reset (head : v.rest.head? = some slash) : Branch env v (.more v.reset)
  | done (head : v.rest.head? ≠ some slash) (name : firstName v.rest = [])
      (check : v.checkDir = false) : Branch env v (.done v)
  | skip (head : v.rest.head? ≠ some slash) (name : firstName v.rest = [dot]) :
      Branch env v (.more v.skip)
  | long (head : v.rest.head? ≠ some slash) (size : pathMax ≤ (extend v.out (firstName v.rest)).length) :
      Branch env v (.fail .enametoolong v.trace)
  | pend (head : v.rest.head? ≠ some slash) (name : firstName v.rest = upName)
      (fits : (extend v.out (firstName v.rest)).length < pathMax) (only : v.onlyUps = true) :
      Branch env v (.more v.pend)
  | cancel (head : v.rest.head? ≠ some slash) (name : firstName v.rest = upName)
      (only : v.onlyUps = false) (check : v.checkDir = false) : Branch env v (.more v.cancel)
  | ask (h : v.Asks) : Branch env v (v.query env)

theorem step_branch (env : Env) (v : View) : v.Branch env (v.step env) := by
  unfold View.step
  by_cases hhead : v.rest.head? = some slash
  · rw [if_pos hhead]
    exact .reset hhead
  rw [if_neg hhead]
  by_cases hdone : firstName v.rest = [] ∧ v.checkDir = false
  · rw [if_pos hdone]
    exact .done hhead hdone.1 hdone.2
  rw [if_neg hdone]
  by_cases hhere : firstName v.rest = [dot]
  · rw [if_pos hhere]
    exact .skip hhead hhere
  rw [if_neg hhere]
  by_cases hlong : (extend v.out (firstName v.rest)).length ≥ pathMax
  · rw [if_pos hlong]
    exact .long hhead hlong
  rw [if_neg hlong]
  by_cases hpend : firstName v.rest = upName ∧ v.onlyUps = true
  · rw [if_pos hpend]
    exact .pend hhead hpend.1 (not_le.mp hlong) hpend.2
  rw [if_neg hpend]
  by_cases hcancel : firstName v.rest = upName ∧ v.checkDir = false
  · rw [if_pos hcancel]
    exact .cancel hhead hcancel.1 (by simpa [hcancel.1] using hpend) hcancel.2
  rw [if_neg hcancel]
  refine .ask ⟨hhead, not_le.mp hlong, hhere, ?_, ?_⟩
  · intro hname
    simpa [hname] using hdone
  · intro hname
    exact ⟨by simpa [hname] using hpend, by simpa [hname] using hcancel⟩

/-! ### What an iteration keeps -/

theorem nulFree_strip {text : List UInt8} (h : NulFree text) : NulFree (strip text) :=
  fun c hc => h c ((List.dropWhile_suffix isSlash).subset hc)

theorem nulFree_afterName {text : List UInt8} (h : NulFree text) : NulFree (afterName text) :=
  fun c hc => h c ((List.dropWhile_suffix notSlash).subset hc)

theorem length_strip (text : List UInt8) : (strip text).length ≤ text.length :=
  (List.dropWhile_suffix isSlash).length_le

theorem length_first_after (text : List UInt8) :
    (firstName text).length + (afterName text).length = text.length := by
  rw [← List.length_append, first_after]

theorem good_reset {v : View} (h : v.Good) : v.reset.Good := by
  have htail : NulFree v.rest.tail := fun c hc => h.rest c (List.mem_of_mem_tail hc)
  have hlen : v.rest.tail.length ≤ v.rest.length := by simp
  refine ⟨nulFree_strip htail, ?_, by simp [View.reset], ?_, by simp [View.reset]⟩
  · have hle := length_strip v.rest.tail
    have hshort := h.short
    show (strip v.rest.tail).length < pathMax
    omega
  · have hroot : ∀ double, (pathText (.rooted double) []).length < pathMax := by decide
    exact hroot _

theorem good_rest {v : View} (h : v.Good) :
    NulFree (strip (afterName v.rest)) ∧ (strip (afterName v.rest)).length < pathMax := by
  refine ⟨nulFree_strip (nulFree_afterName h.rest), ?_⟩
  have hle := length_strip (afterName v.rest)
  have hsum := length_first_after v.rest
  have hshort := h.short
  omega

theorem onlyUps_names {v : View} (h : v.onlyUps = true) : v.names = [] := by
  unfold View.onlyUps at h
  cases hbase : v.base with
  | rooted double =>
    rw [hbase] at h
    cases h
  | relative ups =>
    rw [hbase] at h
    exact of_decide_eq_true h

theorem out_pend {v : View} (h : v.onlyUps = true) : v.pend.out = extend v.out upName := by
  have hnil := onlyUps_names h
  unfold View.onlyUps at h
  unfold View.out
  cases hbase : v.base with
  | rooted double =>
    rw [hbase] at h
    cases h
  | relative ups =>
    rw [hnil]
    show (Base.relative (v.base.ups + 1)).text = _
    rw [hbase]
    exact ups_succ ups

theorem good_pend {v : View} (h : v.Good) (hup : firstName v.rest = upName)
    (hfit : (extend v.out (firstName v.rest)).length < pathMax) (honly : v.onlyUps = true) :
    v.pend.Good := by
  obtain ⟨hnul, hshort⟩ := good_rest h
  refine ⟨hnul, hshort, by simp [View.pend], ?_, fun hc => ?_⟩
  · rw [out_pend honly, ← hup]
    exact hfit
  · exact (h.check hc (onlyUps_names honly)).elim

theorem length_dropLast (base : Base) (names : List (List UInt8)) :
    (pathText base names.dropLast).length ≤ (pathText base names).length := by
  rcases List.eq_nil_or_concat' names with rfl | ⟨ms, n, rfl⟩
  · exact le_rfl
  · rw [List.dropLast_concat, pathText_snoc, length_extend]
    omega

theorem good_cancel {v : View} (h : v.Good) : v.cancel.Good := by
  obtain ⟨hnul, hshort⟩ := good_rest h
  exact ⟨hnul, hshort, fun n hn => h.names n ((List.dropLast_sublist _).subset hn),
    lt_of_le_of_lt (length_dropLast v.base v.names) h.size, fun hc => by cases hc⟩

theorem good_enter {v : View} (h : v.Good) (ha : v.Asks) (hup : firstName v.rest ≠ upName) :
    v.enter.Good := by
  obtain ⟨hnul, hshort⟩ := good_rest h
  by_cases hname : firstName v.rest = []
  · have hnames : v.enter.names = v.names := if_pos hname
    have hout : v.enter.out = v.out := congrArg (pathText v.base) hnames
    refine ⟨hnul, hshort, ?_, ?_, ?_⟩
    · rw [hnames]
      exact h.names
    · rw [hout]
      exact h.size
    · rw [hnames]
      exact fun _ => h.check (ha.empty hname)
  · have hnames : v.enter.names = v.names ++ [firstName v.rest] := if_neg hname
    have hout : v.enter.out = extend v.out (firstName v.rest) :=
      (congrArg (pathText v.base) hnames).trans (pathText_snoc _ _ _)
    refine ⟨hnul, hshort, ?_, ?_, ?_⟩
    · rw [hnames, List.forall_mem_append, List.forall_mem_singleton]
      exact ⟨h.names, hname, plain_firstName h.rest, ha.notHere, hup⟩
    · rw [hout]
      exact ha.fits
    · rw [hnames]
      exact fun _ => List.append_ne_nil_of_right_ne_nil _ (List.cons_ne_nil _ _)

theorem good_follow {v : View} (h : v.Good) {target : List UInt8} (hnul : NulFree target)
    (hlen : target.length < pathMax - (afterName v.rest).length) : (v.follow target).Good := by
  have hafter := nulFree_afterName h.rest
  have hle := length_strip (afterName v.rest)
  have hrest : NulFree (v.follow target).rest ∧ (v.follow target).rest.length < pathMax := by
    unfold View.follow
    dsimp only
    rw [List.length_append]
    split
    · exact ⟨nulFree_append hnul (nulFree_strip hafter), by omega⟩
    · exact ⟨nulFree_append hnul hafter, by omega⟩
  exact ⟨hrest.1, hrest.2, h.names, h.size, h.check⟩

/-- All that a lookup can lead to. -/
inductive View.Answered (env : Env) (v : View) (trace : List Query) : ViewNext → Prop
  | refused (e : Errno) (answer : env.readlink v.trace (extend v.out (firstName v.rest))
        (pathMax - (afterName v.rest).length) = .failed e) (he : e ≠ .einval) :
      Answered env v trace (.fail e trace)
  | up (name : firstName v.rest = upName) (answer : env.readlink v.trace
        (extend v.out (firstName v.rest)) (pathMax - (afterName v.rest).length) = .failed .einval) :
      Answered env v trace (.more { v.cancel with trace := trace })
  | plain (name : firstName v.rest ≠ upName) (answer : env.readlink v.trace
        (extend v.out (firstName v.rest)) (pathMax - (afterName v.rest).length) = .failed .einval) :
      Answered env v trace (.more { v.enter with trace := trace })
  | long : Answered env v trace (.fail .enametoolong trace)
  | empty (answer : env.readlink v.trace (extend v.out (firstName v.rest))
        (pathMax - (afterName v.rest).length) = .stored []) :
      Answered env v trace (.fail .enoent trace)
  | loop (count : v.loopCount + 1 = symloopMax) (target : List UInt8)
      (answer : env.readlink v.trace (extend v.out (firstName v.rest))
        (pathMax - (afterName v.rest).length) = .stored target) :
      Answered env v trace (.fail .eloop trace)
  | link (target : List UInt8) (answer : env.readlink v.trace (extend v.out (firstName v.rest))
        (pathMax - (afterName v.rest).length) = .stored target)
      (short : target.length ≠ pathMax - (afterName v.rest).length) (nonempty : target ≠ [])
      (count : v.loopCount + 1 ≠ symloopMax) :
      Answered env v trace (.more { v.follow target with trace := trace })

theorem query_answered (env : Env) (v : View) :
    ∃ answer, env.readlink v.trace (extend v.out (firstName v.rest))
        (pathMax - (afterName v.rest).length) = answer ∧
      v.Answered env (v.trace ++ [.readlink (extend v.out (firstName v.rest))
        (pathMax - (afterName v.rest).length) answer]) (v.query env) := by
  refine ⟨_, rfl, ?_⟩
  unfold View.query
  dsimp only
  generalize hans : env.readlink v.trace (extend v.out (firstName v.rest))
    (pathMax - (afterName v.rest).length) = answer
  cases answer with
  | failed e =>
    dsimp only
    by_cases he : e = .einval
    · subst he
      rw [if_neg (not_not.mpr rfl)]
      by_cases hup : firstName v.rest = upName
      · rw [if_pos hup]
        exact .up hup hans
      · rw [if_neg hup]
        exact .plain hup hans
    · rw [if_pos he]
      exact .refused e hans he
  | stored target =>
    dsimp only
    by_cases htoo : target.length = pathMax - (afterName v.rest).length
    · rw [if_pos htoo]
      exact .long
    rw [if_neg htoo]
    by_cases hnil : target = []
    · rw [if_pos hnil]
      exact .empty (by rw [hans, hnil])
    rw [if_neg hnil]
    by_cases hloop : v.loopCount + 1 = symloopMax
    · rw [if_pos hloop]
      exact .loop hloop target hans
    · rw [if_neg hloop]
      exact .link target hans htoo hnil hloop

theorem good_trace {v : View} (h : v.Good) (trace : List Query) : View.Good { v with trace := trace } :=
  ⟨h.rest, h.short, h.names, h.size, h.check⟩

theorem linksRead_failed (trace : List Query) (path : List UInt8) (size : ℕ) (e : Errno) :
    linksRead (trace ++ [.readlink path size (.failed e)]) = linksRead trace := by
  simp [linksRead, Query.isLink]

theorem linksRead_stored (trace : List Query) (path : List UInt8) (size : ℕ)
    (target : List UInt8) :
    linksRead (trace ++ [.readlink path size (.stored target)]) = linksRead trace + 1 := by
  simp [linksRead, Query.isLink]

/-- Reads a link, or leaves less unread, or has no more directory to check. -/
def View.measure (v : View) : ℕ :=
  (symloopMax - v.loopCount) * (2 * pathMax + 1) + (2 * v.rest.length + v.checkDir.toNat)

theorem rest_nil {v : View} (hhead : v.rest.head? ≠ some slash) (hname : firstName v.rest = []) :
    v.rest = [] := by
  have hsplit := first_after v.rest
  rw [hname, List.nil_append] at hsplit
  rcases afterName_cases v.rest with hnil | ⟨rest, hrest⟩
  · rw [← hsplit, hnil]
  · rw [← hsplit, hrest] at hhead
    exact (hhead rfl).elim

theorem length_rest {v : View} (hname : firstName v.rest ≠ []) :
    (strip (afterName v.rest)).length < v.rest.length := by
  have hle := length_strip (afterName v.rest)
  have hsum := length_first_after v.rest
  have hpos := List.length_pos_iff.mpr hname
  omega

theorem measure_less {v w : View} (hl : w.loopCount = v.loopCount)
    (hr : w.rest.length < v.rest.length) : w.measure < v.measure := by
  have hcheck := Bool.toNat_le w.checkDir
  unfold View.measure
  rw [hl]
  omega

/-- A directory that is checked is not checked again. -/
theorem measure_check {v : View} (hhead : v.rest.head? ≠ some slash)
    (hname : firstName v.rest = []) (hcheck : v.checkDir = true) : v.enter.measure < v.measure := by
  have hnil := rest_nil hhead hname
  have hrest : v.enter.rest = [] := by
    unfold View.enter
    rw [hnil]
    rfl
  have hcheck' : v.enter.checkDir = false := by
    unfold View.enter
    rw [hnil]
    rfl
  unfold View.measure
  rw [hrest, hcheck', hcheck, show v.enter.loopCount = v.loopCount from rfl]
  exact Nat.add_lt_add_left (Nat.succ_pos _) _

/-- A link may leave more unread, but one link less. -/
theorem measure_follow {v : View} {target : List UInt8} (hshort : (v.follow target).rest.length < pathMax)
    (hbelow : v.loopCount < symloopMax) : (v.follow target).measure < v.measure := by
  have hcheck := Bool.toNat_le v.checkDir
  obtain ⟨k, hk⟩ := Nat.exists_eq_add_of_lt hbelow
  have hmul : (k + 1) * (2 * pathMax + 1) = k * (2 * pathMax + 1) + (2 * pathMax + 1) :=
    Nat.succ_mul _ _
  unfold View.measure
  rw [show (v.follow target).loopCount = v.loopCount + 1 from rfl,
    show (v.follow target).checkDir = v.checkDir from rfl,
    show symloopMax - (v.loopCount + 1) = k by omega,
    show symloopMax - v.loopCount = k + 1 by omega, hmul]
  omega

theorem up_ne {text : List UInt8} (h : firstName text = upName) : firstName text ≠ [] := by
  rw [h]
  decide

theorem query_keeps {env : Env} {v v' : View} (henv : env.Links) (hg : v.Good) (hc : v.Counted)
    (ha : v.Asks) (h : v.query env = .more v') :
    v'.Good ∧ v'.Counted ∧ v'.measure < v.measure := by
  obtain ⟨answer, hans, hanswered⟩ := query_answered env v
  rw [h] at hanswered
  cases hanswered with
  | up name answer =>
    rw [answer] at hans
    subst hans
    refine ⟨good_trace (good_cancel hg) _, ⟨?_, hc.below⟩,
      measure_less rfl (length_rest (up_ne name))⟩
    exact (linksRead_failed _ _ _ _).trans hc.links
  | plain name answer =>
    rw [answer] at hans
    subst hans
    refine ⟨good_trace (good_enter hg ha name) _, ⟨?_, hc.below⟩, ?_⟩
    · exact (linksRead_failed _ _ _ _).trans hc.links
    · by_cases hname : firstName v.rest = []
      · exact measure_check ha.head hname (ha.empty hname)
      · exact measure_less rfl (length_rest hname)
  | link target answer short nonempty count =>
    rw [answer] at hans
    subst hans
    obtain ⟨hlen, hnul⟩ := henv _ _ _ _ answer
    have hgood := good_follow hg hnul (lt_of_le_of_ne hlen short)
    refine ⟨good_trace hgood _, ⟨?_, lt_of_le_of_ne hc.below count⟩, ?_⟩
    · exact (linksRead_stored _ _ _ _).trans (congrArg (· + 1) hc.links)
    · exact measure_follow hgood.short hc.below

/-- An iteration keeps what a view keeps, and the measure falls. -/
theorem step_keeps {env : Env} {v v' : View} (henv : env.Links) (hg : v.Good) (hc : v.Counted)
    (h : v.step env = .more v') : v'.Good ∧ v'.Counted ∧ v'.measure < v.measure := by
  generalize hnext : v.step env = next at h
  have hb := step_branch env v
  rw [hnext] at hb
  cases hb with
  | reset head =>
    cases h
    refine ⟨good_reset hg, ⟨hc.links, hc.below⟩, measure_less rfl ?_⟩
    obtain ⟨tail, hrest⟩ := List.head?_eq_some_iff.mp head
    have hle := length_strip tail
    show (strip v.rest.tail).length < v.rest.length
    rw [hrest, List.tail_cons, List.length_cons]
    omega
  | done head name check => cases h
  | skip head name =>
    cases h
    obtain ⟨hnul, hshort⟩ := good_rest hg
    refine ⟨⟨hnul, hshort, hg.names, hg.size, hg.check⟩, ⟨hc.links, hc.below⟩,
      measure_less rfl (length_rest ?_)⟩
    rw [name]
    decide
  | long head size => cases h
  | pend head name fits only =>
    cases h
    exact ⟨good_pend hg name fits only, ⟨hc.links, hc.below⟩,
      measure_less rfl (length_rest (up_ne name))⟩
  | cancel head name only check =>
    cases h
    exact ⟨good_cancel hg, ⟨hc.links, hc.below⟩, measure_less rfl (length_rest (up_ne name))⟩
  | ask ha => exact query_keeps henv hg hc ha h

/-! ### Runs -/

/-- The loop from a view to its end. -/
inductive View.Runs (env : Env) : View → ViewNext → Prop
  | done {v w : View} (h : v.step env = .done w) : Runs env v (.done w)
  | fail {v : View} {e : Errno} {trace : List Query} (h : v.step env = .fail e trace) :
      Runs env v (.fail e trace)
  | more {v w : View} {r : ViewNext} (h : v.step env = .more w) (hr : Runs env w r) : Runs env v r

theorem step_done {env : Env} {v w : View} (h : v.step env = .done w) :
    w = v ∧ v.rest = [] ∧ v.checkDir = false := by
  generalize hnext : v.step env = next at h
  have hb := step_branch env v
  rw [hnext] at hb
  cases hb with
  | reset head => cases h
  | done head name check =>
    cases h
    exact ⟨rfl, rest_nil head name, check⟩
  | skip head name => cases h
  | long head size => cases h
  | pend head name fits only => cases h
  | cancel head name only check => cases h
  | ask ha =>
    obtain ⟨answer, _, hanswered⟩ := query_answered env v
    rw [h] at hanswered
    cases hanswered

/-- What iterations keep holds where the loop ends. -/
theorem runs_keep {env : Env} {I : View → Prop}
    (hI : ∀ v w, I v → v.step env = .more w → I w) {v : View} {r : ViewNext} (h : v.Runs env r)
    (hv : I v) : (∃ w, I w ∧ r = .done w ∧ w.step env = .done w) ∨
      ∃ w e trace, I w ∧ r = .fail e trace ∧ w.step env = .fail e trace := by
  induction h with
  | done h =>
    obtain ⟨rfl, _⟩ := step_done h
    exact Or.inl ⟨_, hv, rfl, h⟩
  | fail h => exact Or.inr ⟨_, _, _, hv, rfl, h⟩
  | more h _ ih => exact ih (hI _ _ hv h)

/-- The loop on buffers ends as that on views, within any number of iterations
above the measure. -/
theorem mainLoop_runs {env : Env} (henv : env.Links) {n : ℕ} {s : State} {v : View}
    (h : Shows s v) (hg : v.Good) (hc : v.Counted) (hn : v.measure < n) :
    ∃ r, v.Runs env r ∧ Matches (mainLoop env n s) r := by
  induction n generalizing s v with
  | zero => exact (Nat.not_lt_zero _ hn).elim
  | succ n ih =>
    have hm := iteration_matches h hg henv
    rw [mainLoop]
    generalize hiter : iteration env s = result at hm
    generalize hstep : v.step env = next at hm
    cases hm with
    | again hshow =>
      obtain ⟨hg', hc', hlt⟩ := step_keeps henv hg hc hstep
      obtain ⟨hlen, hshow'⟩ := shows_strip hshow
      obtain ⟨r, hr, hmatch⟩ := ih hshow' hg' hc' (by omega)
      refine ⟨r, .more hstep hr, ?_⟩
      simp only [Option.bind_eq_bind, Option.bind_some, hlen]
      exact hmatch
    | restart hshow =>
      obtain ⟨hg', hc', hlt⟩ := step_keeps henv hg hc hstep
      obtain ⟨r, hr, hmatch⟩ := ih hshow hg' hc' (by omega)
      exact ⟨r, .more hstep hr, hmatch⟩
    | done hshow => exact ⟨_, .done hstep, Matches.done hshow⟩
    | fail htrace => exact ⟨_, .fail hstep, Matches.fail htrace⟩

end LibcOverride.Path

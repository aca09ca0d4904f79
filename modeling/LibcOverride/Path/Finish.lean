import LibcOverride.Path.Runs
import Mathlib.Logic.Function.Iterate

/-!
# The end of a call

What is returned for a view: its output behind a root, else its names behind the
working directory, from which a name is dropped for each `..`.
-/

namespace LibcOverride.Path
open Buffer

/-- The working directory's text without its last name; the root's slash is not
part of it. -/
def parentTail (tail : List UInt8) : List UInt8 := (tail.rdropWhile notSlash).dropLast

def nameText (names : List (List UInt8)) : List UInt8 := names.foldl extend []

def deliver (env : Env) (text : List UInt8) (trace : List Query) (resolved : Bool) :
    Result × List Query :=
  if resolved then (.path (text ++ [0]), trace)
  else
    let succeeds := env.malloc trace (text.length + 1)
    (if succeeds then .path (text ++ [0]) else .null .enomem,
      trace ++ [.malloc (text.length + 1) succeeds])

def View.finish (env : Env) (v : View) (resolved : Bool) : Result × List Query :=
  match v.base with
  | .rooted _ => deliver env v.out v.trace resolved
  | .relative ups =>
    let answer := env.getcwd v.trace (pathMax + 1)
    let trace := v.trace ++ [.getcwd (pathMax + 1) answer]
    match answer with
    | .failed e => (.null e, trace)
    | .stored bytes =>
      let text := v.names.foldl extend (slash :: parentTail^[ups] bytes.dropLast.tail)
      if text.length + 1 ≥ pathMax then (.null .enametoolong, trace)
      else deliver env text trace resolved

/-- The working directory is stored as an absolute path with its terminator. -/
def Env.Absolute (env : Env) : Prop :=
  ∀ trace size bytes, env.getcwd trace size = .stored bytes →
    ∃ tail, bytes = slash :: (tail ++ [0]) ∧ NulFree tail ∧ bytes.length ≤ size

/-! ### Names behind a text -/

theorem glue_append {out name : List UInt8} (hne : name ≠ []) (hp : Plain name) :
    glue (out ++ name) = [slash] := by
  unfold glue
  rw [if_neg]
  rintro (h | h)
  · exact hne (List.append_eq_nil_iff.mp h).2
  · rw [List.getLast?_append_of_ne_nil _ hne] at h
    exact (hp _ (List.mem_of_getLast? h)).2 rfl

theorem foldl_extend_append (out : List UInt8) {name : List UInt8} {names : List (List UInt8)}
    (hne : name ≠ []) (hp : Plain name) (hn : ∀ n ∈ names, IsName n) :
    names.foldl extend (out ++ name) = out ++ names.foldl extend name := by
  induction names using List.reverseRecOn with
  | nil => rfl
  | append_singleton names n ih =>
    have hn' : ∀ m ∈ names, IsName m := fun m hm => hn m (List.mem_append_left _ hm)
    have hlast : ∀ x, glue (names.foldl extend (x ++ name)) = [slash] := by
      intro x
      rcases List.eq_nil_or_concat' names with rfl | ⟨ms, m, rfl⟩
      · exact glue_append hne hp
      · have hm := hn' m (List.mem_append_right _ (List.mem_singleton_self m))
        rw [List.foldl_append]
        exact glue_extend hm.nonempty hm.plain
    rw [List.foldl_append, List.foldl_append, List.foldl_cons, List.foldl_cons, List.foldl_nil,
      List.foldl_nil]
    have hempty := hlast []
    rw [List.nil_append] at hempty
    rw [extend, extend, hlast out, hempty, ih hn', List.append_assoc]

theorem foldl_extend (out : List UInt8) {names : List (List UInt8)} (hne : names ≠ [])
    (hn : ∀ n ∈ names, IsName n) :
    names.foldl extend out = out ++ (glue out ++ nameText names) := by
  obtain ⟨n, ns, rfl⟩ := List.exists_cons_of_ne_nil hne
  have hname := hn n (List.mem_cons_self ..)
  have hns : ∀ m ∈ ns, IsName m := fun m hm => hn m (List.mem_cons_of_mem _ hm)
  have hempty : extend [] n = n := rfl
  rw [nameText, List.foldl_cons, List.foldl_cons, hempty, extend, ← List.append_assoc,
    foldl_extend_append _ hname.nonempty hname.plain hns, List.append_assoc]

theorem length_nameText {names : List (List UInt8)} (hne : names ≠ [])
    (hn : ∀ n ∈ names, IsName n) : 0 < (nameText names).length := by
  obtain ⟨n, ns, rfl⟩ := List.exists_cons_of_ne_nil hne
  have hpos := List.length_pos_iff.mpr (hn n (List.mem_cons_self ..)).nonempty
  exact lt_of_lt_of_le hpos (length_foldl_extend (extend [] n) ns)

theorem length_ups_glue (ups : ℕ) :
    ((Base.relative ups).text ++ glue (Base.relative ups).text).length = 3 * ups := by
  cases ups with
  | zero => rfl
  | succ n =>
    rw [List.length_append, length_ups, glue_ups, List.length_singleton]
    omega

/-! ### Dropping names of the working directory -/

theorem dropCwdName_tail {stack tail z : List UInt8} (h : stack = slash :: (tail ++ z)) :
    dropCwdName stack (tail.length + 1) = some ((parentTail tail).length + 1) := by
  induction tail using List.reverseRecOn generalizing z with
  | nil => rfl
  | append_singleton tail c ih =>
    have hget : stack[tail.length + 1]? = some c := by
      refine get_append (x := slash :: tail) (y := z) ?_ (by rw [List.length_cons])
      rw [h, List.append_assoc]
      rfl
    rw [List.length_append, List.length_singleton, dropCwdName, hget]
    simp only [Option.bind_eq_bind, Option.bind_some]
    unfold parentTail
    by_cases hc : c = slash
    · rw [if_neg (not_not.mpr hc), List.rdropWhile_concat_neg _ _ _ (by simp [notSlash, hc]),
        List.dropLast_concat]
    · rw [if_pos hc, List.rdropWhile_concat_pos _ _ _ (by simpa [notSlash] using hc)]
      refine ih (z := c :: z) ?_
      rw [h, List.append_assoc]
      rfl

theorem parentTail_starts (tail : List UInt8) : parentTail tail <+: tail :=
  (List.dropLast_prefix _).trans (List.rdropWhile_prefix _ _)

theorem parentTails_starts (n : ℕ) (tail : List UInt8) : parentTail^[n] tail <+: tail := by
  induction n generalizing tail with
  | zero => exact List.prefix_rfl
  | succ n ih => exact (ih (parentTail tail)).trans (parentTail_starts tail)

/-- `skip` passes the `..` and the slash behind them, if there is one. -/
theorem dropUps_tail {stack tail z : List UInt8} (h : stack = slash :: (tail ++ z)) {q n i : ℕ}
    (hq : 3 * (i + n) ≤ q + 1) :
    dropUps stack q n (tail.length + 1) (min (3 * i) q) =
      some ((parentTail^[n] tail).length + 1, min (3 * (i + n)) q) := by
  induction n generalizing i tail z with
  | zero => rfl
  | succ n ih =>
    obtain ⟨w, hw⟩ := parentTail_starts tail
    have hskip : (if min (3 * i) q + 2 < q then min (3 * i) q + 3 else min (3 * i) q + 2) =
        min (3 * (i + 1)) q := by
      split <;> omega
    rw [dropUps, dropCwdName_tail h, Option.bind_eq_bind, Option.bind_some, hskip,
      Function.iterate_succ_apply]
    rw [show i + (n + 1) = i + 1 + n by omega] at hq ⊢
    refine ih (z := w ++ z) ?_ hq
    rw [h, ← List.append_assoc (parentTail tail), hw]

/-! ### The splice -/

theorem endCwd_text {stack dir z : List UInt8} {c : UInt8} {rest : ℕ} (hdir : dir ≠ [])
    (h : stack = dir ++ c :: z) (hrest : rest ≠ 0) :
    ∃ stack', endCwd stack dir.length rest = some (stack', (dir ++ glue dir).length) ∧
      ∃ z', stack' = (dir ++ glue dir) ++ z' := by
  obtain ⟨front, d, rfl⟩ := (List.eq_nil_or_concat' dir).resolve_left hdir
  have hlen : (front ++ [d]).length = front.length + 1 := by simp
  have hget : stack[front.length]? = some d := by
    refine get_append (y := c :: z) ?_ rfl
    rw [h, List.append_assoc]
    rfl
  unfold endCwd
  rw [if_neg hrest, hlen, minus_of_le (by omega), Nat.add_sub_cancel]
  simp only [Option.bind_eq_bind, Option.bind_some, hget]
  by_cases hd : d = slash
  · have hglue : glue (front ++ [d]) = [] := if_pos (Or.inr (by simp [hd]))
    rw [if_neg (not_not.mpr hd), hglue, List.append_nil, hlen]
    exact ⟨stack, rfl, c :: z, h⟩
  · have hglue : glue (front ++ [d]) = [slash] := by
      refine if_neg ?_
      rintro (hnil | hlast)
      · simp at hnil
      · rw [List.getLast?_concat] at hlast
        exact hd (Option.some.inj hlast)
    rw [if_pos hd, hglue, put_append slash h hlen.symm]
    refine ⟨(front ++ [d]) ++ slash :: z, ?_, z, ?_⟩
    · rw [List.length_append, hlen]
      rfl
    · simp only [List.append_assoc, List.cons_append, List.nil_append]

theorem out_drop {v : View} (hn : ∀ n ∈ v.names, IsName n) {ups : ℕ} (hb : v.base = .relative ups) :
    ∃ front, v.out = front ++ nameText v.names ∧ front.length = min (3 * ups) v.out.length ∧
      3 * ups ≤ v.out.length + 1 := by
  unfold View.out pathText
  rw [hb]
  by_cases hnil : v.names = []
  · rw [hnil]
    refine ⟨(Base.relative ups).text, (List.append_nil _).symm, ?_, ?_⟩
    · show _ = min (3 * ups) (Base.relative ups).text.length
      cases ups with
      | zero => rfl
      | succ n =>
        rw [length_ups]
        omega
    · show 3 * ups ≤ (Base.relative ups).text.length + 1
      cases ups with
      | zero => exact Nat.zero_le _
      | succ n =>
        rw [length_ups]
        omega
  · have hlen := length_ups_glue ups
    rw [foldl_extend _ hnil hn, ← List.append_assoc]
    generalize (Base.relative ups).text ++ glue (Base.relative ups).text = front at hlen ⊢
    rw [List.length_append, hlen]
    exact ⟨front, rfl, by omega, by omega⟩

theorem endCwd_names {stack dir z : List UInt8} {c : UInt8} {names : List (List UInt8)}
    (hdir : dir ≠ []) (h : stack = dir ++ c :: z) (hn : ∀ n ∈ names, IsName n) :
    ∃ stack' front, endCwd stack dir.length (nameText names).length = some (stack', front.length) ∧
      (∃ z', stack' = front ++ z') ∧ names.foldl extend dir = front ++ nameText names := by
  by_cases hnil : names = []
  · rw [hnil]
    exact ⟨stack, dir, if_pos rfl, ⟨_, h⟩, (List.append_nil _).symm⟩
  · obtain ⟨stack', hend, hz⟩ := endCwd_text hdir h (length_nameText hnil hn).ne'
    refine ⟨stack', dir ++ glue dir, hend, hz, ?_⟩
    rw [foldl_extend dir hnil hn, List.append_assoc]

theorem splice_text {s : State} {v : View} {ups : ℕ} {tail z zo : List UInt8}
    (hn : ∀ n ∈ v.names, IsName n) (hb : v.base = .relative ups)
    (hstack : s.stack = slash :: (tail ++ 0 :: z)) (htail : NulFree tail)
    (hout : s.output = v.out ++ 0 :: zo) (hsize : s.output.length = pathMax)
    (hq : s.q = v.out.length) (hup : s.pendingUp = ups) :
    if (v.names.foldl extend (slash :: parentTail^[ups] tail)).length + 1 ≥ pathMax then
      splice s = some (.error (.enametoolong, s.trace))
    else ∃ s' zo, splice s = some (.ok s') ∧ s'.trace = s.trace ∧
      s'.output = v.names.foldl extend (slash :: parentTail^[ups] tail) ++ 0 :: zo ∧
      s'.q = (v.names.foldl extend (slash :: parentTail^[ups] tail)).length := by
  have hcwd : cString s.stack = some (slash :: tail) := by
    rw [hstack, ← List.cons_append]
    refine cString_text (fun c hc => ?_) z
    rcases List.mem_cons.mp hc with rfl | hc
    · decide
    · exact htail c hc
  obtain ⟨front, hfront, hlen, hbound⟩ := out_drop hn hb
  have hdrop : dropUps s.stack s.q ups (tail.length + 1) 0 =
      some ((parentTail^[ups] tail).length + 1, min (3 * ups) s.q) := by
    have h := dropUps_tail (q := s.q) (n := ups) (i := 0) hstack (by rw [hq]; omega)
    simpa using h
  have hrest : minus s.q (min (3 * ups) s.q) = some (nameText v.names).length := by
    rw [minus_of_le (Nat.min_le_right _ _), hq, ← hlen, hfront, List.length_append,
      Nat.add_sub_cancel_left]
  obtain ⟨w, hw⟩ := parentTails_starts ups tail
  obtain ⟨c, y, hcy⟩ : ∃ c y, w ++ 0 :: z = c :: y :=
    List.exists_cons_of_ne_nil (List.append_ne_nil_of_right_ne_nil _ (List.cons_ne_nil _ _))
  have hdir : s.stack = (slash :: parentTail^[ups] tail) ++ c :: y := by
    rw [hstack, ← hcy, List.cons_append, ← List.append_assoc, hw]
  obtain ⟨stack', dir, hend, ⟨z', hz'⟩, htext⟩ :=
    endCwd_names (List.cons_ne_nil _ _) hdir hn
  rw [htext, List.length_append]
  have hsplice : splice s = if dir.length + (nameText v.names).length + 1 ≥ pathMax then
      some (.error (.enametoolong, s.trace))
    else (slice s.output (min (3 * ups) s.q) ((nameText v.names).length + 1)).bind fun moved =>
      (blit s.output dir.length moved).bind fun output =>
      (slice stack' 0 dir.length).bind fun front =>
      (blit output 0 front).bind fun output => some (.ok { s with
        stack := stack', output := output, q := dir.length + (nameText v.names).length }) := by
    unfold splice
    simp only [hcwd, Option.bind_eq_bind, Option.bind_some, List.length_cons, hup, hdrop, hrest]
    rw [← List.length_cons (a := slash), hend]
    rfl
  rw [hsplice]
  split
  · rfl
  · rename_i hfit
    have hmoved : slice s.output (min (3 * ups) s.q) ((nameText v.names).length + 1) =
        some (nameText v.names ++ [0]) := by
      refine slice_append (x := front) (y := zo) ?_ (by rw [hlen, hq]) (by simp)
      rw [hout, hfront]
      simp only [List.append_assoc, List.singleton_append]
    obtain ⟨x, r, hx, hxlen⟩ := exists_split (y := s.output) (n := dir.length) (by omega)
    obtain ⟨m, r', hm, hmlen⟩ :=
      exists_split (y := r) (n := (nameText v.names).length + 1) (by
        rw [hx, List.length_append] at hsize
        omega)
    have hblit : blit s.output dir.length (nameText v.names ++ [0]) =
        some (x ++ ((nameText v.names ++ [0]) ++ r')) := by
      refine blit_append (m := m) ?_ hxlen.symm (by simp [hmlen])
      rw [hx, hm]
    have hslice : slice stack' 0 dir.length = some dir :=
      slice_append (x := []) hz' rfl rfl
    have hblit' : blit (x ++ ((nameText v.names ++ [0]) ++ r')) 0 dir =
        some (dir ++ ((nameText v.names ++ [0]) ++ r')) :=
      blit_append (x := []) (m := x) rfl rfl hxlen.symm
    simp only [hmoved, Option.bind_some, hblit, hslice, hblit']
    refine ⟨_, r', rfl, rfl, ?_, rfl⟩
    simp only [List.append_assoc, List.singleton_append]

/-! ### What a call returns -/

theorem giveBack_text {env : Env} {s : State} {text z : List UInt8} (ht : NulFree text)
    (ho : s.output = text ++ 0 :: z) (hq : s.q = text.length) (resolved : Bool) :
    giveBack env s resolved = some (deliver env text s.trace resolved) := by
  unfold giveBack deliver
  cases resolved with
  | true =>
    have hslice : slice s.output 0 (s.q + 1) = some (text ++ [0]) := by
      refine slice_append (x := []) (y := z) ?_ rfl (by rw [hq, List.length_append]; rfl)
      rw [ho, List.append_assoc]
      rfl
    simp only [ite_true, hslice, Option.map_some]
  | false =>
    have hstring : cString s.output = some text := by
      rw [ho]
      exact cString_text ht z
    simp only [Bool.false_eq_true, ite_false, hstring, Option.bind_eq_bind, Option.bind_some]

theorem foldl_extend_starts (out : List UInt8) (names : List (List UInt8)) :
    out <+: names.foldl extend out := by
  induction names generalizing out with
  | nil => exact List.prefix_rfl
  | cons n names ih => exact (List.prefix_append out _).trans (ih (extend out n))

/-- The output is absolute just when its base is a root. -/
theorem head_out {v : View} (hn : ∀ n ∈ v.names, IsName n) (z : List UInt8) :
    ∃ c, (v.out ++ 0 :: z)[0]? = some c ∧ (c = slash ↔ ∃ double, v.base = .rooted double) := by
  have hfirst : ∀ {c : UInt8} {x : List UInt8}, c :: x <+: v.out →
      (v.out ++ 0 :: z)[0]? = some c := by
    rintro c x ⟨y, hy⟩
    rw [← hy]
    rfl
  have hrel : ∀ ups, v.base = .relative ups → ¬∃ double, v.base = .rooted double := by
    rintro ups hbase ⟨double, hb⟩
    rw [hbase] at hb
    cases hb
  have hprefix := foldl_extend_starts v.base.text v.names
  cases hbase : v.base with
  | rooted double =>
    refine ⟨slash, ?_, iff_of_true rfl ⟨double, rfl⟩⟩
    rw [hbase] at hprefix
    cases double
    · exact hfirst (x := []) (by
        unfold View.out
        rw [hbase]
        exact hprefix)
    · exact hfirst (x := [slash]) (by
        unfold View.out
        rw [hbase]
        exact hprefix)
  | relative ups =>
    have hno := hrel ups hbase
    rw [hbase] at hno
    cases ups with
    | zero =>
      cases hnames : v.names with
      | nil =>
        refine ⟨0, ?_, iff_of_false (by decide) hno⟩
        unfold View.out
        rw [hbase, hnames]
        rfl
      | cons n ns =>
        have hname := hn n (by
          rw [hnames]
          exact List.mem_cons_self ..)
        obtain ⟨c, t, hc⟩ := List.exists_cons_of_ne_nil hname.nonempty
        refine ⟨c, hfirst (x := t) ?_, iff_of_false ?_ hno⟩
        · unfold View.out pathText
          rw [hbase, hnames, ← hc]
          exact foldl_extend_starts n ns
        · exact (hname.plain c (by
            rw [hc]
            exact List.mem_cons_self ..)).2
    | succ k =>
      refine ⟨dot, hfirst (x := [dot]) ?_, iff_of_false (by decide) hno⟩
      rw [hbase] at hprefix
      unfold View.out pathText
      rw [hbase]
      exact (foldl_extend_starts upName (List.replicate k upName)).trans hprefix

theorem getcwd_failed {env : Env} {s : State} {e : Errno}
    (h : env.getcwd s.trace (pathMax + 1) = .failed e) : getcwd env s =
      some (.error (e, s.trace ++ [.getcwd (pathMax + 1) (.failed e)])) := by
  unfold getcwd
  rw [h]

theorem getcwd_stored {env : Env} {s : State} {tail : List UInt8}
    (hs : s.stack.length = pathMax + 1) (hlen : (slash :: (tail ++ [0])).length ≤ pathMax + 1)
    (h : env.getcwd s.trace (pathMax + 1) = .stored (slash :: (tail ++ [0]))) :
    ∃ z, getcwd env s = some (.ok { s with
      stack := slash :: (tail ++ 0 :: z)
      trace := s.trace ++ [.getcwd (pathMax + 1) (.stored (slash :: (tail ++ [0])))] }) := by
  obtain ⟨old, z, hold, hlen'⟩ := exists_split (y := s.stack) (hlen.trans hs.ge)
  have hblit : blit s.stack 0 (slash :: (tail ++ [0])) = some (slash :: (tail ++ 0 :: z)) := by
    refine (blit_append (x := []) (m := old) (y := z) hold rfl hlen'.symm).trans ?_
    simp
  refine ⟨z, ?_⟩
  unfold getcwd
  rw [h]
  simp only [hblit, Option.bind_eq_bind, Option.bind_some, List.length_cons, Nat.succ_ne_zero,
    ite_false]
  rfl

/-- The end of a call on the buffers is that on the view. -/
theorem finish_text {env : Env} {s : State} {v : View} (h : Shows s v) (hg : v.Good)
    (henv : env.Absolute) (resolved : Bool) :
    finish env s resolved = some (v.finish env resolved) := by
  obtain ⟨tail, htail⟩ := h.output
  obtain ⟨c, zo, rfl⟩ : ∃ c t, tail = c :: t := by
    refine List.exists_cons_of_ne_nil ?_
    rintro rfl
    have hsize := h.outputSize
    have hlt := hg.size
    rw [htail, List.append_nil] at hsize
    omega
  have hput : put s.output s.q 0 = some (v.out ++ 0 :: zo) := put_append 0 htail h.q
  obtain ⟨d, hd, hroot⟩ := head_out hg.names zo
  unfold finish
  simp only [hput, Option.bind_eq_bind, Option.bind_some, hd]
  unfold View.finish
  cases hbase : v.base with
  | rooted double =>
    rw [if_neg (not_not.mpr (hroot.mpr ⟨double, hbase⟩)), ← h.trace]
    exact giveBack_text (s := { s with output := v.out ++ 0 :: zo }) (nulFree_out hg.names) rfl h.q
      resolved
  | relative ups =>
    have hd' : d ≠ slash := by
      intro heq
      obtain ⟨double, hb⟩ := hroot.mp heq
      rw [hbase] at hb
      cases hb
    rw [if_pos hd', ← h.trace]
    dsimp only
    cases hcwd : env.getcwd s.trace (pathMax + 1) with
    | failed e => rw [getcwd_failed (s := { s with output := v.out ++ 0 :: zo }) hcwd]; rfl
    | stored bytes =>
      obtain ⟨dir, rfl, hdir, hsize⟩ := henv _ _ _ hcwd
      obtain ⟨z, hget⟩ :=
        getcwd_stored (s := { s with output := v.out ++ 0 :: zo }) h.stackSize hsize hcwd
      have hlen : (v.out ++ 0 :: zo).length = pathMax := by
        have hout := h.outputSize
        rw [htail] at hout
        simpa only [List.length_append, List.length_cons] using hout
      have hup : s.pendingUp = ups := by
        rw [h.pendingUp, hbase]
        rfl
      have hsplice := splice_text (s := { s with
          stack := slash :: (dir ++ 0 :: z)
          output := v.out ++ 0 :: zo
          trace := s.trace ++ [.getcwd (pathMax + 1) (.stored (slash :: (dir ++ [0])))] })
        hg.names hbase rfl hdir rfl hlen h.q hup
      have htl : (slash :: (dir ++ [0])).dropLast.tail = dir := by
        rw [← List.cons_append, List.dropLast_concat]
        rfl
      have hnul : NulFree (v.names.foldl extend (slash :: parentTail^[ups] dir)) := by
        refine nulFree_foldl ?_ fun n hn => plain_nulFree (hg.names n hn).plain
        intro b hb
        rcases List.mem_cons.mp hb with rfl | hb
        · decide
        · exact hdir b ((parentTails_starts ups dir).subset hb)
      rw [hget]
      simp only [Option.bind_some, htl]
      split at hsplice
      · rename_i hlong
        rw [hsplice, if_pos hlong]
        rfl
      · rename_i hshort
        obtain ⟨s', zo', hs', htrace, hout, hq⟩ := hsplice
        rw [hs', if_neg hshort, Option.bind_some]
        dsimp only
        rw [giveBack_text hnul hout hq, htrace]

/-- The view at the start of the loop. -/
def startView (name : List UInt8) : View := ⟨name, .relative 0, [], false, 0, []⟩

theorem entry_shows (after : List UInt8) {stack output name : List UInt8} (hs : stack.length = pathMax + 1)
    (ho : output.length = pathMax) (hlen : name.length < pathMax) :
    ∃ s, entry stack output (name ++ 0 :: after) name.length = some s ∧
      Shows s (startView name) := by
  have hslice : slice (name ++ 0 :: after) 0 (name.length + 1) = some (name ++ [0]) := by
    refine slice_append (x := []) (y := after) ?_ rfl (by simp)
    simp
  obtain ⟨x, old, hx, hold⟩ := exists_split_last (y := stack) (n := name.length + 1) (by omega)
  have hxlen : pathMax - name.length = x.length := by
    rw [hx, List.length_append] at hs
    omega
  have hblit : blit stack (pathMax - name.length) (name ++ [0]) = some (x ++ (name ++ [0])) := by
    refine (blit_append (m := old) (y := []) ?_ hxlen (by simp [hold])).trans ?_
    · rw [hx, List.append_nil]
    · rw [List.append_nil]
  refine ⟨⟨x ++ (name ++ [0]), output, pathMax - name.length, 0, 0, 0, false, []⟩, ?_,
    ⟨?_, ho, rfl, rfl, rfl, rfl, rfl⟩, ⟨x, rfl, hxlen⟩, ⟨output, rfl⟩⟩
  · simp only [entry, hslice, hblit, Option.bind_eq_bind, Option.bind_some]
  · simp only [List.length_append, List.length_singleton]
    omega

theorem startView_good {name : List UInt8} (hn : NulFree name) (hlen : name.length < pathMax) :
    (startView name).Good ∧ (startView name).Counted ∧ (startView name).measure < maxIterations := by
  have hsize : ([] : List UInt8).length < pathMax := by decide
  have hcount : 0 < symloopMax := by decide
  refine ⟨⟨hn, hlen, by simp [startView], hsize, fun h => by cases h⟩, ⟨rfl, hcount⟩, ?_⟩
  unfold View.measure maxIterations startView
  simp only [Bool.toNat_false, Nat.sub_zero]
  omega

theorem realpath_long (env : Env) (stack output : List UInt8) {name : List UInt8}
    (hn : NulFree name) (hlen : pathMax ≤ name.length) (after : List UInt8) (resolved : Bool) :
    realpath env stack output (some (name ++ 0 :: after)) resolved =
      some (.null .enametoolong, []) := by
  have hpos : 0 < pathMax := by decide
  unfold realpath
  simp only [strnlen_text hn, Option.bind_eq_bind, Option.bind_some]
  rw [if_neg (by omega), if_pos (by omega)]

/-- A call with a name of an admissible length is a run on views. -/
theorem realpath_runs {env : Env} (hl : env.Links) (ha : env.Absolute)
    {stack output name : List UInt8} (after : List UInt8) (hs : stack.length = pathMax + 1)
    (ho : output.length = pathMax) (hn : NulFree name) (hne : name ≠ [])
    (hlen : name.length < pathMax) (resolved : Bool) :
    ∃ r, (startView name).Runs env r ∧
      realpath env stack output (some (name ++ 0 :: after)) resolved = match r with
        | .done v => some (v.finish env resolved)
        | .fail e trace => some (.null e, trace)
        | .more _ => none := by
  obtain ⟨s, hentry, hshow⟩ := entry_shows after hs ho hlen
  obtain ⟨hgood, hcount, hmeasure⟩ := startView_good hn hlen
  obtain ⟨r, hruns, hmatch⟩ := mainLoop_runs hl hshow hgood hcount hmeasure
  refine ⟨r, hruns, ?_⟩
  have hstrnlen : strnlen (name ++ 0 :: after) (pathMax + 1) = some name.length := by
    rw [strnlen_text hn, Nat.min_eq_left (by omega)]
  unfold realpath
  simp only [hstrnlen, Option.bind_eq_bind, Option.bind_some, List.length_eq_zero_iff, hne,
    ite_false]
  rw [if_neg (by omega), hentry, Option.bind_some]
  have hkeep : ∀ v w : View, v.Good ∧ v.Counted → v.step env = .more w → w.Good ∧ w.Counted := by
    intro v w hv hstep
    obtain ⟨hg, hc, _⟩ := step_keeps hl hv.1 hv.2 hstep
    exact ⟨hg, hc⟩
  rcases runs_keep hkeep hruns ⟨hgood, hcount⟩ with ⟨w, hw, rfl, _⟩ | ⟨w, e, trace, _, rfl, _⟩
  · generalize mainLoop env maxIterations s = result at hmatch
    cases hmatch with
    | done hshow => exact finish_text hshow hw.1 ha resolved
  · generalize mainLoop env maxIterations s = result at hmatch
    cases hmatch with
    | fail htrace => exact congrArg (fun trace => some (Result.null e, trace)) htrace

end LibcOverride.Path

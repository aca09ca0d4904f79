import LibcOverride.Path.View

/-!
# Buffers and views in lockstep

A state of the loop shows a view when its buffers hold the view's texts. Each
branch of an iteration is taken to the same branch on the view.
-/

namespace LibcOverride.Path
open Buffer

/-! ### States that show a view -/

/-- All but the contents of the buffers. -/
structure Agrees (s : State) (v : View) : Prop where
  stackSize : s.stack.length = pathMax + 1
  outputSize : s.output.length = pathMax
  q : s.q = v.out.length
  pendingUp : s.pendingUp = v.base.ups
  checkDir : s.checkDir = v.checkDir
  loopCount : s.loopCount = v.loopCount
  trace : s.trace = v.trace

structure Shows (s : State) (v : View) : Prop extends Agrees s v where
  stack : ∃ read, s.stack = read ++ (v.rest ++ [0]) ∧ s.p = read.length
  output : ∃ tail, s.output = v.out ++ tail

/-- What is copied to the output. -/
def View.moved (v : View) : List UInt8 := glue v.out ++ firstName v.rest

/-- The component is still to be copied. -/
structure Poised (s : State) (v : View) : Prop extends Agrees s v where
  stack : ∃ read, s.stack = read ++ (v.moved ++ (afterName v.rest ++ [0])) ∧ s.p = read.length
  output : ∃ tail, s.output = v.out ++ tail

/-- The component is copied behind the output. -/
structure Copied (s : State) (v : View) : Prop extends Agrees s v where
  stack : ∃ read, s.stack = read ++ (v.moved ++ (afterName v.rest ++ [0])) ∧
    s.p = (read ++ v.moved).length
  output : ∃ tail, s.output = v.out ++ (v.moved ++ 0 :: tail)

/-- An iteration on the buffers against one on the view. -/
inductive Matches : Option (Next State) → ViewNext → Prop
  | again {s : State} {v : View} (h : Shows s v) :
      Matches (some (.again s)) (.more { v with rest := strip v.rest })
  | restart {s : State} {v : View} (h : Shows s v) : Matches (some (.restart s)) (.more v)
  | done {s : State} {v : View} (h : Shows s v) : Matches (some (.done s)) (.done v)
  | fail {e : Errno} {s : State} {trace : List Query} (h : s.trace = trace) :
      Matches (some (.fail e s)) (.fail e trace)

theorem shows_p {s : State} {v : View} (h : Shows s v) : s.p + v.rest.length = pathMax := by
  obtain ⟨read, hstack, hread⟩ := h.stack
  have hsize := h.stackSize
  rw [hstack, List.length_append, List.length_append, ← hread, List.length_singleton] at hsize
  omega

theorem shows_read {s : State} {v : View} (h : Shows s v) {x y : List UInt8}
    (hxy : v.rest = x ++ y) : Shows { s with p := s.p + x.length } { v with rest := y } := by
  obtain ⟨read, hstack, hread⟩ := h.stack
  refine ⟨⟨h.stackSize, h.outputSize, h.q, h.pendingUp, h.checkDir, h.loopCount, h.trace⟩,
    ⟨read ++ x, ?_, ?_⟩, h.output⟩
  · rw [hstack, hxy]
    simp only [List.append_assoc]
  · rw [List.length_append, ← hread]

/-- A NUL ends the text, and is what is left of an empty one. -/
theorem get_rest {stack read rest : List UInt8} {p : ℕ} (hstack : stack = read ++ (rest ++ [0]))
    (hread : p = read.length) : stack[p]? = some (rest.headD 0) := by
  cases rest with
  | nil => exact get_append hstack hread
  | cons c rest => exact get_append hstack hread

theorem shows_peek {s : State} {v : View} (h : Shows s v) :
    s.stack[s.p]? = some (v.rest.headD 0) := by
  obtain ⟨read, hstack, hread⟩ := h.stack
  exact get_rest hstack hread

theorem shows_drop {s : State} {v : View} (h : Shows s v) :
    s.stack.drop s.p = v.rest ++ [0] := by
  obtain ⟨read, hstack, hread⟩ := h.stack
  rw [hstack, hread, List.drop_left]

/-- The slashes that a `continue` passes over. -/
theorem shows_strip {s : State} {v : View} (h : Shows s v) :
    aoSlashLen (s.stack.drop s.p) = some (v.rest.takeWhile isSlash).length ∧
      Shows { s with p := s.p + (v.rest.takeWhile isSlash).length }
        { v with rest := strip v.rest } := by
  refine ⟨?_, shows_read h (List.takeWhile_append_dropWhile).symm⟩
  rw [shows_drop h]
  exact slashLen_text v.rest []

/-! ### The branches of an iteration -/

theorem loneSlash_text {s : State} {v : View} (h : Shows s v) {tail : List UInt8}
    (hrest : v.rest = slash :: tail) : loneSlash s.stack (s.p + 1) =
      some (decide (tail.head? = some slash ∧ (tail.drop 1).head? ≠ some slash)) := by
  have h1 : Shows { s with p := s.p + 1 } { v with rest := tail } := shows_read h (x := [slash]) hrest
  have hpeek : s.stack[s.p + 1]? = some (tail.headD 0) := shows_peek h1
  have hzero : (0 : UInt8) ≠ slash := by decide
  unfold loneSlash
  cases tail with
  | nil =>
    rw [List.headD_nil] at hpeek
    simp [hpeek, hzero]
  | cons c tail =>
    have h2 : Shows { s with p := s.p + 1 + 1 } { v with rest := tail } :=
      shows_read h1 (x := [c]) rfl
    have hpeek' : s.stack[s.p + 1 + 1]? = some (tail.headD 0) := shows_peek h2
    simp only [List.headD_cons] at hpeek
    simp only [hpeek, hpeek', Option.bind_eq_bind, Option.bind_some, Option.map_some,
      List.head?_cons, Option.some.injEq, List.drop_succ_cons, List.drop_zero]
    by_cases hc : c = slash
    · cases tail with
      | nil => simp [hc, hzero]
      | cons d tail => simp [hc]
    · simp [hc]

theorem reset_matches {s : State} {v : View} (h : Shows s v) {tail : List UInt8}
    (hrest : v.rest = slash :: tail) :
    Matches ((resetRoot s).map .again) (.more v.reset) := by
  obtain ⟨c, d, z, hout⟩ : ∃ c d z, s.output = c :: d :: z := by
    have hsize := h.outputSize
    rcases hs : s.output with _ | ⟨c, _ | ⟨d, z⟩⟩
    · rw [hs] at hsize
      cases hsize
    · rw [hs] at hsize
      cases hsize
    · exact ⟨c, d, z, rfl⟩
  have hread := shows_read h (x := [slash]) hrest
  have hsize := h.outputSize
  rw [hout] at hsize
  have hput : put (c :: d :: z) 0 slash = some (slash :: d :: z) :=
    put_append (x := []) slash rfl rfl
  have hput' : put (slash :: d :: z) 1 slash = some (slash :: slash :: z) :=
    put_append (x := [slash]) slash rfl rfl
  unfold resetRoot
  rw [hout, hput]
  simp only [Option.bind_eq_bind, Option.bind_some, loneSlash_text h hrest]
  have hreset : v.reset = { v with
      rest := strip tail
      base := .rooted (decide (tail.head? = some slash ∧ (tail.drop 1).head? ≠ some slash))
      names := []
      checkDir := false } := by
    unfold View.reset
    rw [hrest]
    rfl
  rw [hreset]
  cases hd : decide (tail.head? = some slash ∧ (tail.drop 1).head? ≠ some slash) with
  | true =>
    rw [if_pos rfl, hput']
    exact Matches.again (v := { v with
        rest := tail, base := .rooted true, names := [], checkDir := false })
      ⟨⟨h.stackSize, hsize, rfl, rfl, rfl, h.loopCount, h.trace⟩, hread.stack, ⟨z, rfl⟩⟩
  | false =>
    rw [if_neg Bool.false_ne_true]
    exact Matches.again (v := { v with
        rest := tail, base := .rooted false, names := [], checkDir := false })
      ⟨⟨h.stackSize, hsize, rfl, rfl, rfl, h.loopCount, h.trace⟩, hread.stack, ⟨d :: z, rfl⟩⟩

theorem needsSlash_out {s : State} {v : View} (h : Shows s v) :
    needsSlash s = some (decide (glue v.out = [slash])) := by
  obtain ⟨tail, htail⟩ := h.output
  unfold needsSlash glue
  rcases List.eq_nil_or_concat' v.out with hnil | ⟨out, c, hout⟩
  · rw [h.q, hnil]
    rfl
  · have hlen : v.out.length = out.length + 1 := by
      rw [hout, List.length_append, List.length_singleton]
    have hget : s.output[out.length]? = some c := by
      rw [hout, List.append_assoc] at htail
      exact get_append htail rfl
    rw [h.q, hlen, if_neg (Nat.succ_ne_zero _), Nat.add_sub_cancel, hget, hout]
    simp only [Option.map_some, List.append_eq_nil_iff, List.cons_ne_self, and_false, false_or,
      List.getLast?_concat, Option.some.injEq]
    by_cases hc : c = slash <;> simp [hc]

/-- The separator is put before the component, where there is room for it. -/
theorem component_poised (env : Env) {s : State} {v : View} (h : Shows s v) (hg : v.Good) :
    ∃ s', component env s (firstName v.rest).length =
        copyComponent env s' (firstName v.rest).length v.moved.length ∧ Poised s' v := by
  obtain ⟨read, hstack, hread⟩ := h.stack
  unfold component
  rw [needsSlash_out h, Option.bind_eq_bind, Option.bind_some]
  by_cases hglue : glue v.out = [slash]
  · have hp := shows_p h
    have hshort := hg.short
    obtain ⟨read, c, rfl⟩ : ∃ x c, read = x ++ [c] := by
      rcases List.eq_nil_or_concat' read with rfl | ⟨x, c, rfl⟩
      · rw [hread, List.length_nil] at hp
        omega
      · exact ⟨x, c, rfl⟩
    rw [List.length_append, List.length_singleton] at hread
    have hput : put s.stack (s.p - 1) slash = some (read ++ slash :: (v.rest ++ [0])) := by
      refine put_append (v := c) slash ?_ (by omega)
      rw [hstack, List.append_assoc]
      rfl
    have hmoved : v.moved = slash :: firstName v.rest := by
      rw [View.moved, hglue]
      rfl
    refine ⟨{ s with stack := read ++ slash :: (v.rest ++ [0]), p := s.p - 1 }, ?_,
      ⟨?_, h.outputSize, h.q, h.pendingUp, h.checkDir, h.loopCount, h.trace⟩, ⟨read, ?_, by
        show s.p - 1 = _
        omega⟩, h.output⟩
    · simp only [hglue, decide_true, ite_true, hput]
      rw [if_neg (by omega), hmoved]
      rfl
    · have hsize := h.stackSize
      rw [hstack] at hsize
      simp only [List.length_append, List.length_cons, List.length_nil] at hsize ⊢
      omega
    · show read ++ slash :: (v.rest ++ [0]) = _
      rw [hmoved, List.cons_append, ← List.append_assoc (firstName _), first_after]
  · have hnil : glue v.out = [] := by
      unfold glue at hglue ⊢
      split
      · rfl
      · rename_i hc
        rw [if_neg hc] at hglue
        exact (hglue rfl).elim
    have hmoved : v.moved = firstName v.rest := by
      rw [View.moved, hnil]
      rfl
    refine ⟨s, ?_, h.toAgrees, ⟨read, ?_, hread⟩, h.output⟩
    · simp only [hglue, decide_false, Bool.false_eq_true, ite_false, hmoved]
    · rw [hstack, hmoved, ← List.append_assoc (firstName _), first_after]

theorem isUp_moved {stack read after name : List UInt8} {p : ℕ} {sep : List UInt8}
    (hstack : stack = read ++ ((sep ++ name) ++ after)) (hp : p = (read ++ (sep ++ name)).length) :
    isUp stack p name.length = some (decide (name = upName)) := by
  unfold isUp
  by_cases hlen : name.length = 2
  · obtain ⟨c, d, rfl⟩ := List.length_eq_two.mp hlen
    have hp2 : p = (read ++ sep).length + 2 := by
      rw [hp]
      simp only [List.length_append, List.length_cons, List.length_nil]
      omega
    have hc : stack[(read ++ sep).length]? = some c := by
      refine get_append (y := d :: after) ?_ rfl
      rw [hstack]
      simp only [List.append_assoc, List.cons_append, List.nil_append]
    have hd : stack[(read ++ sep).length + 1]? = some d := by
      refine get_append (x := read ++ sep ++ [c]) (y := after) ?_ (by simp; omega)
      rw [hstack]
      simp only [List.append_assoc, List.cons_append, List.nil_append]
    rw [if_pos hlen, hp2, minus_of_le (by omega), Nat.add_sub_cancel]
    simp only [Option.bind_eq_bind, Option.bind_some, hc, hd]
    simp [upName]
  · rw [if_neg hlen, decide_eq_false]
    rintro rfl
    exact hlen rfl

theorem copyComponent_copied (env : Env) {s : State} {v : View} (h : Poised s v)
    (hn : ∀ n ∈ v.names, IsName n) (hfit : (extend v.out (firstName v.rest)).length < pathMax) :
    ∃ s', Copied s' v ∧ copyComponent env s (firstName v.rest).length v.moved.length =
      if firstName v.rest = upName ∧ v.onlyUps = true then
        some (.again { s' with
          pendingUp := s'.pendingUp + 1
          q := s'.q + v.moved.length })
      else if firstName v.rest = upName ∧ v.checkDir = false then
        skipReadlink s' true (firstName v.rest).length v.moved.length
      else queryLink env s' (decide (firstName v.rest = upName)) (firstName v.rest).length
        v.moved.length := by
  obtain ⟨read, hstack, hread⟩ := h.stack
  obtain ⟨tail, htail⟩ := h.output
  have hlen : v.out.length + v.moved.length < pathMax := by
    have hle := hfit
    rwa [extend, List.length_append] at hle
  have hroom : v.moved.length ≤ tail.length ∧ tail.length - v.moved.length ≠ 0 := by
    have hsize := h.outputSize
    rw [htail, List.length_append] at hsize
    omega
  obtain ⟨old, z, htl, hold⟩ := exists_split hroom.1
  obtain ⟨c, z, rfl⟩ : ∃ c t, z = c :: t := by
    refine List.exists_cons_of_ne_nil ?_
    rintro rfl
    rw [htl, List.append_nil] at hroom
    omega
  have hslice : slice s.stack s.p v.moved.length = some v.moved :=
    slice_append hstack hread rfl
  have hblit : blit s.output s.q v.moved = some (v.out ++ (v.moved ++ c :: z)) :=
    blit_append (by rw [htail, htl]) h.q hold.symm
  have hput : put (v.out ++ (v.moved ++ c :: z)) (s.q + v.moved.length) 0 =
      some (v.out ++ (v.moved ++ 0 :: z)) := by
    rw [← List.append_assoc, ← List.append_assoc]
    exact put_append 0 rfl (by rw [h.q, List.length_append])
  have hup : isUp s.stack (s.p + v.moved.length) (firstName v.rest).length =
      some (decide (firstName v.rest = upName)) := by
    refine isUp_moved hstack ?_
    rw [hread, View.moved]
    exact List.length_append.symm
  refine ⟨{ s with output := v.out ++ (v.moved ++ 0 :: z), p := s.p + v.moved.length },
    ⟨⟨h.stackSize, ?_, h.q, h.pendingUp, h.checkDir, h.loopCount, h.trace⟩, ⟨read, hstack, ?_⟩,
      ⟨z, rfl⟩⟩, ?_⟩
  · have hsize := h.outputSize
    rw [htail, htl] at hsize
    simp only [List.length_append, List.length_cons] at hsize ⊢
    omega
  · rw [List.length_append, ← hread]
  · have honly := length_onlyUps hn
    rw [← h.q, ← h.pendingUp] at honly
    unfold copyComponent
    rw [if_neg (by rw [h.q]; omega), hslice]
    simp only [Option.bind_eq_bind, Option.bind_some, hblit, hput, hup, decide_eq_true_eq, honly,
      h.checkDir]
    by_cases hname : firstName v.rest = upName
    · simp only [hname, decide_true]
    · simp only [hname, decide_false, false_and, ite_false]

theorem copied_stack {s : State} {v : View} (h : Copied s v) :
    ∃ read, s.stack = read ++ (afterName v.rest ++ [0]) ∧ s.p = read.length := by
  obtain ⟨read, hstack, hread⟩ := h.stack
  exact ⟨read ++ v.moved, by rw [hstack, List.append_assoc], hread⟩

theorem pend_matches {s : State} {v : View} (h : Copied s v) (hup : firstName v.rest = upName)
    (honly : v.onlyUps = true) : Matches (some (.again { s with
      pendingUp := s.pendingUp + 1
      q := s.q + v.moved.length })) (.more v.pend) := by
  obtain ⟨tail, htail⟩ := h.output
  have hout : pathText (.relative (v.base.ups + 1)) [] = v.out ++ v.moved := by
    unfold View.onlyUps at honly
    unfold View.moved
    rw [hup]
    unfold View.out
    cases hbase : v.base with
    | rooted double =>
      rw [hbase] at honly
      cases honly
    | relative ups =>
      rw [hbase] at honly
      rw [of_decide_eq_true honly]
      exact ups_succ ups
  have hstack := copied_stack h
  refine Matches.again (v := { v with
      rest := afterName v.rest, base := .relative (v.base.ups + 1), names := [] })
    ⟨⟨h.stackSize, h.outputSize, ?_, ?_, h.checkDir, h.loopCount, h.trace⟩, hstack, ?_⟩
  · show s.q + v.moved.length = (pathText (.relative (v.base.ups + 1)) []).length
    rw [hout, List.length_append, h.q]
  · show s.pendingUp + 1 = v.base.ups + 1
    rw [h.pendingUp]
  · refine ⟨0 :: tail, ?_⟩
    show s.output = pathText (.relative (v.base.ups + 1)) [] ++ 0 :: tail
    rw [hout, htail, List.append_assoc]

theorem dropName_plain {output front name tail : List UInt8} (hp : Plain name)
    (ho : output = front ++ (name ++ tail)) :
    dropName output (front.length + name.length) = dropName output front.length := by
  induction name using List.reverseRecOn generalizing tail with
  | nil => rfl
  | append_singleton name c ih =>
    have hc : c ≠ slash := (hp c (List.mem_append_right _ (List.mem_singleton_self c))).2
    have hget : output[front.length + name.length]? = some c := by
      refine get_append (x := front ++ name) (y := tail) ?_ (by rw [List.length_append])
      rw [ho]
      simp only [List.append_assoc, List.singleton_append]
    rw [List.length_append, List.length_singleton, ← Nat.add_assoc, dropName, hget]
    simp only [Option.bind_eq_bind, Option.bind_some, hc, ne_eq, not_false_eq_true, ite_true]
    have hnext : output = front ++ (name ++ (c :: tail)) := by
      rw [ho, List.append_assoc, List.singleton_append]
    exact ih (fun d hd => hp d (List.mem_append_left _ hd)) hnext

/-- Cancelling a name takes the separator with it. -/
theorem cancel_name {output out name tail : List UInt8} (hp : Plain name)
    (hout : out = [slash] ∨ out = [slash, slash] ∨ out = [] ∨ glue out = [slash])
    (ho : output = extend out name ++ tail) :
    ((dropName output (extend out name).length).bind (dropSlash output)) = some out.length := by
  have hsplit : output = (out ++ glue out) ++ (name ++ tail) := by
    rw [ho, extend]
    simp only [List.append_assoc]
  have hlen : (extend out name).length = (out ++ glue out).length + name.length := by
    rw [extend, ← List.append_assoc, List.length_append]
  rw [hlen, dropName_plain hp hsplit]
  rcases hout with rfl | rfl | rfl | hglue
  · have hget : output[0]? = some slash := get_append (x := []) hsplit rfl
    show (dropName output 1).bind _ = _
    simp [dropName, hget, dropSlash]
  · have hget : output[0]? = some slash := get_append (x := []) hsplit rfl
    have hget' : output[1]? = some slash := get_append (x := [slash]) hsplit rfl
    show (dropName output 2).bind _ = _
    simp [dropName, hget, hget', dropSlash]
  · rfl
  · have hne : out ≠ [] := by
      rintro rfl
      cases hglue
    have hget : output[out.length]? = some slash := by
      refine get_append (x := out) (y := name ++ tail) ?_ rfl
      rw [hsplit, hglue, List.append_assoc]
      rfl
    have hlast : out.getLast? ≠ some slash := by
      intro hl
      unfold glue at hglue
      rw [if_pos (Or.inr hl)] at hglue
      cases hglue
    rw [hglue, List.length_append, List.length_singleton, dropName, hget]
    simp only [Option.bind_eq_bind, Option.bind_some, ne_eq, not_true, ite_false]
    unfold dropSlash
    obtain ⟨c, rest, rfl⟩ := List.exists_cons_of_ne_nil hne
    rw [List.length_cons, if_pos (by omega)]
    split
    · rfl
    · rename_i hlt
      have hnil : rest = [] := List.eq_nil_of_length_eq_zero (by omega)
      subst hnil
      have hget0 : output[0]? = some c := get_append (x := []) hsplit rfl
      have hc : c ≠ slash := fun hc => hlast (by rw [hc]; rfl)
      simp [hget0, hc]

theorem pathText_ends (base : Base) {names : List (List UInt8)} (hn : ∀ n ∈ names, IsName n) :
    pathText base names = [slash] ∨ pathText base names = [slash, slash] ∨
      pathText base names = [] ∨ glue (pathText base names) = [slash] := by
  rcases List.eq_nil_or_concat' names with rfl | ⟨ms, n, rfl⟩
  · cases base with
    | rooted double =>
      cases double
      · exact Or.inl rfl
      · exact Or.inr (Or.inl rfl)
    | relative ups =>
      cases ups with
      | zero => exact Or.inr (Or.inr (Or.inl rfl))
      | succ k => exact Or.inr (Or.inr (Or.inr (glue_ups k)))
  · have hname := hn n (List.mem_append_right _ (List.mem_singleton_self n))
    rw [pathText_snoc]
    exact Or.inr (Or.inr (Or.inr (glue_extend hname.nonempty hname.plain)))

theorem cancel_matches {s : State} {v : View} (h : Copied s v) (hn : ∀ n ∈ v.names, IsName n)
    (honly : v.onlyUps = false) (componentSize componentLen : ℕ) :
    Matches (skipReadlink s true componentSize componentLen) (.more v.cancel) := by
  obtain ⟨tail, htail⟩ := h.output
  have hstack := copied_stack h
  have hdrop : ((dropName s.output v.out.length).bind (dropSlash s.output)) =
      some (pathText v.base v.names.dropLast).length ∧
      ∃ tail, s.output = pathText v.base v.names.dropLast ++ tail := by
    rcases List.eq_nil_or_concat' v.names with hnil | ⟨ms, n, hms⟩
    · have hroot : v.out = [slash] ∨ v.out = [slash, slash] := by
        unfold View.onlyUps at honly
        unfold View.out
        rw [hnil]
        cases hbase : v.base with
        | rooted double =>
          cases double
          · exact Or.inl rfl
          · exact Or.inr rfl
        | relative ups =>
          rw [hbase, hnil] at honly
          cases honly
      have hextend : extend v.out [] = v.out := by
        rcases hroot with hroot | hroot <;> rw [hroot] <;> rfl
      have hcut : s.output = extend v.out [] ++ (v.moved ++ 0 :: tail) := by
        rw [hextend]
        exact htail
      have hcancel := cancel_name (fun c hc => (List.not_mem_nil hc).elim)
        (hroot.elim Or.inl fun hr => Or.inr (Or.inl hr)) hcut
      rw [hextend] at hcancel
      rw [hnil, List.dropLast_nil, ← hnil]
      exact ⟨hcancel, _, htail⟩
    · have hout : v.out = extend (pathText v.base ms) n := by
        unfold View.out
        rw [hms, pathText_snoc]
      have hms' : ∀ m ∈ ms, IsName m := fun m hm => hn m (by
        rw [hms]
        exact List.mem_append_left _ hm)
      have hname : IsName n := hn n (by
        rw [hms]
        exact List.mem_append_right _ (List.mem_singleton_self n))
      rw [hout] at htail
      rw [hout, hms, List.dropLast_concat]
      refine ⟨cancel_name hname.plain (pathText_ends v.base hms') htail, ?_⟩
      rw [extend, List.append_assoc] at htail
      exact ⟨_, htail⟩
  obtain ⟨hq, hout⟩ := hdrop
  have hskip : skipReadlink s true componentSize componentLen = some (.again { s with
      q := (pathText v.base v.names.dropLast).length, checkDir := false }) := by
    unfold skipReadlink
    rw [if_pos rfl, h.q]
    obtain ⟨k, hk, hk'⟩ := Option.bind_eq_some_iff.mp hq
    simp only [Option.bind_eq_bind, hk, Option.bind_some, hk']
  rw [hskip]
  exact Matches.again (v := { v with
      rest := afterName v.rest, names := v.names.dropLast, checkDir := false })
    ⟨⟨h.stackSize, h.outputSize, rfl, h.pendingUp, rfl, h.loopCount, h.trace⟩, hstack, hout⟩

theorem enter_matches {s : State} {v : View} (h : Copied s v) :
    Matches (skipReadlink s false (firstName v.rest).length v.moved.length) (.more v.enter) := by
  obtain ⟨tail, htail⟩ := h.output
  obtain ⟨read, hstack, hread⟩ := copied_stack h
  have hpeek : s.stack[s.p]? = some ((afterName v.rest).headD 0) := get_rest hstack hread
  have hcheck : decide ((afterName v.rest).headD 0 ≠ 0) = decide (afterName v.rest ≠ []) := by
    rcases afterName_cases v.rest with hnil | ⟨rest, hrest⟩
    · rw [hnil]
      rfl
    · rw [hrest]
      rfl
  unfold skipReadlink
  rw [if_neg Bool.false_ne_true, hpeek, Option.bind_eq_bind, Option.bind_some]
  refine Matches.again (v := { v with
      rest := afterName v.rest
      names := if firstName v.rest = [] then v.names else v.names ++ [firstName v.rest]
      checkDir := decide (afterName v.rest ≠ []) })
    ⟨⟨h.stackSize, h.outputSize, ?_, h.pendingUp, hcheck, h.loopCount, h.trace⟩,
      ⟨read, hstack, hread⟩, ?_⟩
  · show (if (firstName v.rest).length ≠ 0 then s.q + v.moved.length else s.q) =
      (pathText v.base (if firstName v.rest = [] then v.names else v.names ++ [firstName v.rest])).length
    by_cases hname : firstName v.rest = []
    · rw [if_pos hname, if_neg (by simp [hname]), h.q]
      rfl
    · rw [if_neg hname, if_pos (by simpa using hname), pathText_snoc, extend, List.length_append,
        h.q]
      rfl
  · show ∃ tail, s.output = pathText v.base
      (if firstName v.rest = [] then v.names else v.names ++ [firstName v.rest]) ++ tail
    by_cases hname : firstName v.rest = []
    · rw [if_pos hname]
      exact ⟨_, htail⟩
    · rw [if_neg hname, pathText_snoc, extend]
      refine ⟨0 :: tail, ?_⟩
      rw [htail, List.append_assoc]
      rfl

/-- The target replaces what was read, right before what is unread. -/
theorem push_matches {s : State} {v : View} (h : Agrees s v) {target z : List UInt8}
    (hne : target ≠ []) (hstack : s.stack = target ++ (z ++ (afterName v.rest ++ [0])))
    (hp : s.p = (target ++ z).length) (ho : ∃ tail, s.output = v.out ++ tail) :
    Matches (pushLink { s with loopCount := s.loopCount + 1 } target.length)
      (.more (v.follow target)) := by
  obtain ⟨front, c, htarget⟩ := (List.eq_nil_or_concat' target).resolve_left hne
  have hlen : target.length = front.length + 1 := by
    rw [htarget, List.length_append, List.length_singleton]
  have hlast : s.stack[target.length - 1]? = some c := by
    refine get_append (x := front) (y := z ++ (afterName v.rest ++ [0])) ?_ (by omega)
    rw [hstack, htarget, List.append_assoc]
    rfl
  have hdrop : s.stack.drop s.p = afterName v.rest ++ [0] := by
    rw [hstack, ← List.append_assoc, hp, List.drop_left]
  -- the slashes that the target makes superfluous, and what is left unread
  have hslashes : ∃ y rest, afterName v.rest = y ++ rest ∧
      spareSlashes s.stack s.p c = some y.length ∧ (v.follow target).rest = target ++ rest := by
    unfold spareSlashes
    by_cases hc : c = slash
    · refine ⟨(afterName v.rest).takeWhile isSlash, strip (afterName v.rest),
        (List.takeWhile_append_dropWhile).symm, ?_, ?_⟩
      · rw [if_pos hc, hdrop]
        exact slashLen_text (afterName v.rest) []
      · simp [View.follow, htarget, hc]
    · refine ⟨[], afterName v.rest, rfl, if_neg hc, ?_⟩
      simp [View.follow, htarget, hc]
  obtain ⟨y, rest, hy, hspare, hrest⟩ := hslashes
  have hfull : s.stack = target ++ ((z ++ y) ++ (rest ++ [0])) := by
    rw [hstack, hy]
    simp only [List.append_assoc]
  -- the last bytes that were read make room for the target
  obtain ⟨keep, room, hroom, hroomLen⟩ :=
    exists_split_last (y := target ++ (z ++ y)) (n := target.length) (by simp)
  have htotal := congrArg List.length hroom
  simp only [List.length_append] at htotal hp
  have hkeep : s.p + y.length - target.length = keep.length := by omega
  have hslice : slice s.stack 0 target.length = some target := slice_append (x := []) hfull rfl rfl
  have hblit : blit s.stack (s.p + y.length - target.length) target =
      some (keep ++ (target ++ (rest ++ [0]))) := by
    refine blit_append (m := room) ?_ hkeep hroomLen.symm
    rw [hfull, ← List.append_assoc, hroom, List.append_assoc]
  have hpush : pushLink { s with loopCount := s.loopCount + 1 } target.length =
      some (.restart { s with
        loopCount := s.loopCount + 1
        stack := keep ++ (target ++ (rest ++ [0]))
        p := s.p + y.length - target.length }) := by
    unfold pushLink
    simp only [hlast, Option.bind_eq_bind, Option.bind_some, hspare,
      minus_of_le (show target.length ≤ s.p + y.length by omega), hslice, hblit]
  rw [hpush]
  refine Matches.restart ⟨⟨?_, h.outputSize, h.q, h.pendingUp, h.checkDir, ?_, h.trace⟩,
    ⟨keep, ?_, hkeep⟩, ho⟩
  · have hsize := h.stackSize
    rw [hfull] at hsize
    simp only [List.length_append] at hsize ⊢
    omega
  · show s.loopCount + 1 = v.loopCount + 1
    rw [h.loopCount]
  · rw [hrest, List.append_assoc]

theorem query_matches {env : Env} {s : State} {v : View} (h : Copied s v) (hg : v.Good)
    (henv : env.Links) (honly : firstName v.rest = upName → v.onlyUps = false) :
    Matches (queryLink env s (decide (firstName v.rest = upName)) (firstName v.rest).length
      v.moved.length) (v.query env) := by
  obtain ⟨tail, htail⟩ := h.output
  obtain ⟨read, hstack, hread⟩ := copied_stack h
  have hpath : cString s.output = some (extend v.out (firstName v.rest)) := by
    have hnul := nulFree_extend (nulFree_out hg.names) (plain_nulFree (plain_firstName hg.rest))
    rw [htail, View.moved, ← List.append_assoc]
    exact cString_text hnul tail
  have hp : s.p = pathMax - (afterName v.rest).length := by
    have hsize := h.stackSize
    rw [hstack, List.length_append, List.length_append, List.length_singleton, ← hread] at hsize
    omega
  have hcopied : ∀ trace, Copied { s with trace := trace } { v with trace := trace } :=
    fun trace => ⟨⟨h.stackSize, h.outputSize, h.q, h.pendingUp, h.checkDir, h.loopCount, rfl⟩,
      h.stack, h.output⟩
  unfold queryLink View.query
  rw [hpath, Option.bind_eq_bind, Option.bind_some, h.trace, ← hp]
  dsimp only
  generalize hans : env.readlink v.trace (extend v.out (firstName v.rest)) s.p = answer
  cases answer with
  | failed e =>
    dsimp only
    by_cases he : e = .einval
    · rw [if_neg (not_not.mpr he), if_neg (not_not.mpr he)]
      by_cases hup : firstName v.rest = upName
      · rw [if_pos hup, decide_eq_true hup]
        exact cancel_matches (hcopied (v.trace ++ [_])) hg.names (honly hup) _ _
      · rw [if_neg hup, decide_eq_false hup]
        exact enter_matches (hcopied (v.trace ++ [_]))
    · rw [if_pos he, if_pos he]
      exact Matches.fail rfl
  | stored target =>
    dsimp only
    obtain ⟨hlen, _⟩ := henv _ _ _ _ hans
    obtain ⟨old, z, hold, hold'⟩ := exists_split (y := read) (n := target.length) (by omega)
    have hblit : blit s.stack 0 target = some (target ++ (z ++ (afterName v.rest ++ [0]))) := by
      refine blit_append (x := []) (m := old) ?_ rfl hold'.symm
      rw [hstack, hold, List.append_assoc]
      rfl
    rw [hblit, Option.bind_some]
    by_cases htoo : target.length = s.p
    · rw [if_pos htoo, if_pos htoo]
      exact Matches.fail rfl
    · rw [if_neg htoo, if_neg htoo]
      by_cases hnil : target = []
      · rw [if_pos (by rw [hnil]; rfl), if_pos hnil]
        exact Matches.fail rfl
      · rw [if_neg (by simpa using hnil), if_neg hnil]
        simp only [h.loopCount]
        by_cases hloop : v.loopCount + 1 = symloopMax
        · rw [if_pos hloop, if_pos hloop]
          exact Matches.fail rfl
        · rw [if_neg hloop, if_neg hloop]
          have hagrees : Agrees { s with
              stack := target ++ (z ++ (afterName v.rest ++ [0]))
              trace := v.trace ++ [Query.readlink (extend v.out (firstName v.rest)) s.p
                (.stored target)] }
              { v with trace := v.trace ++ [Query.readlink (extend v.out (firstName v.rest)) s.p
                (.stored target)] } := by
            refine ⟨?_, h.outputSize, h.q, h.pendingUp, h.checkDir, h.loopCount, rfl⟩
            have hsize := h.stackSize
            rw [hstack, hold] at hsize
            simp only [List.length_append] at hsize ⊢
            omega
          have hpush := push_matches hagrees hnil rfl
            (by
              show s.p = (target ++ z).length
              rw [hread, hold, List.length_append, List.length_append, hold'])
            ⟨_, htail⟩
          dsimp only at hpush
          rwa [h.loopCount] at hpush

theorem head_slash (text : List UInt8) : text.headD 0 = slash ↔ text.head? = some slash := by
  cases text with
  | nil => decide
  | cons c text => simp

theorem firstName_here (text : List UInt8) :
    (firstName text).length = 1 ∧ text.headD 0 = dot ↔ firstName text = [dot] := by
  cases text with
  | nil => decide
  | cons c text =>
    unfold firstName
    rw [List.takeWhile_cons]
    by_cases hc : notSlash c = true
    · rw [if_pos hc, List.length_cons, List.headD_cons, List.cons.injEq, ← List.length_eq_zero_iff]
      constructor
      · rintro ⟨hlen, hdot⟩
        exact ⟨hdot, by omega⟩
      · rintro ⟨hdot, hlen⟩
        exact ⟨by omega, hdot⟩
    · rw [if_neg hc]
      simp

theorem component_matches {env : Env} {s : State} {v : View} (h : Shows s v) (hg : v.Good)
    (henv : env.Links) (hhead : v.rest.head? ≠ some slash)
    (hdone : ¬(firstName v.rest = [] ∧ v.checkDir = false)) (hhere : firstName v.rest ≠ [dot]) :
    Matches (component env s (firstName v.rest).length) (v.step env) := by
  obtain ⟨s', hcomponent, hpoised⟩ := component_poised env h hg
  have hfull : (extend v.out (firstName v.rest)).length = v.out.length + v.moved.length := by
    rw [extend, List.length_append]
    rfl
  unfold View.step
  rw [hcomponent, if_neg hhead, if_neg hdone, if_neg hhere]
  by_cases hlong : (extend v.out (firstName v.rest)).length ≥ pathMax
  · rw [if_pos hlong, copyComponent, if_pos (by rw [hpoised.q]; omega)]
    exact Matches.fail hpoised.trace
  rw [if_neg hlong]
  obtain ⟨t, hcopied, hcopy⟩ :=
    copyComponent_copied env hpoised hg.names (not_le.mp hlong)
  rw [hcopy]
  by_cases hpend : firstName v.rest = upName ∧ v.onlyUps = true
  · rw [if_pos hpend, if_pos hpend]
    exact pend_matches hcopied hpend.1 hpend.2
  rw [if_neg hpend, if_neg hpend]
  have honly : firstName v.rest = upName → v.onlyUps = false := by
    intro hup
    simpa [hup] using hpend
  by_cases hcancel : firstName v.rest = upName ∧ v.checkDir = false
  · rw [if_pos hcancel, if_pos hcancel]
    exact cancel_matches hcopied hg.names (honly hcancel.1) _ _
  · rw [if_neg hcancel, if_neg hcancel]
    exact query_matches hcopied hg henv honly

/-- One iteration on the buffers is one on the view. -/
theorem iteration_matches {env : Env} {s : State} {v : View} (h : Shows s v) (hg : v.Good)
    (henv : env.Links) : Matches (iteration env s) (v.step env) := by
  have hlen : aoStrchrnul (s.stack.drop s.p) slash = some (firstName v.rest).length := by
    rw [shows_drop h]
    exact strchrnul_text hg.rest []
  unfold iteration
  rw [shows_peek h]
  simp only [Option.bind_eq_bind, Option.bind_some, hlen, head_slash]
  by_cases hhead : v.rest.head? = some slash
  · rw [if_pos hhead, View.step, if_pos hhead]
    obtain ⟨tail, hrest⟩ := List.head?_eq_some_iff.mp hhead
    exact reset_matches h hrest
  rw [if_neg hhead]
  by_cases hdone : firstName v.rest = [] ∧ v.checkDir = false
  · rw [if_pos ⟨List.length_eq_zero_iff.mpr hdone.1, h.checkDir.trans hdone.2⟩, View.step,
      if_neg hhead, if_pos hdone]
    exact Matches.done h
  rw [if_neg (by rwa [List.length_eq_zero_iff, h.checkDir])]
  by_cases hhere : firstName v.rest = [dot]
  · rw [if_pos ((firstName_here v.rest).mpr hhere), View.step, if_neg hhead, if_neg hdone,
      if_pos hhere]
    exact Matches.again (shows_read h (first_after v.rest).symm)
  · rw [if_neg (mt (firstName_here v.rest).mp hhere)]
    exact component_matches h hg henv hhead hdone hhere

end LibcOverride.Path

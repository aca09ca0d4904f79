import LibcOverride.Scanf.Grammar

/-!
# The parser against the grammar

One lemma for each stage of a conversion on the text that the grammar gives
it, one for a whole directive, and by induction one for a format.
-/

namespace LibcOverride.Scanf
open Word

/-! ### Numbers -/

theorem digit_text (d : Fin 10) : aoIsDigitWchar (code '0' + d.val) = true := by
  have h0 : code '0' = 48 := by decide
  have h9 : code '9' = 57 := by decide
  have hd := d.isLt
  unfold aoIsDigitWchar
  rw [h0, h9]
  exact decide_eq_true (by omega)

theorem digit_value (d : Fin 10) : (code '0' + (d.val : ℤ) - code '0').toNat = d.val := by
  have h0 : code '0' = 48 := by decide
  rw [h0]
  omega

theorem widthStep_saturate (v : ℕ) (d : Fin 10) :
    widthStep (saturate v) (code '0' + d.val) = saturate (v * 10 + d.val) := by
  have hd := d.isLt
  have hlim : (sizeMax - 9) / 10 = 1844674407370955160 := by decide
  unfold widthStep saturate
  rw [digit_value, hlim]
  by_cases hv : v ≤ 1844674407370955160
  · have hsat : (if v ≤ 1844674407370955160 * 10 + 9 then v else sizeMax) = v := if_pos (by omega)
    have hsat' : (if v * 10 + d.val ≤ 1844674407370955160 * 10 + 9 then v * 10 + d.val
        else sizeMax) = v * 10 + d.val := if_pos (by omega)
    rw [hsat, hsat', if_neg (by omega)]
  · have hsat' : (if v * 10 + d.val ≤ 1844674407370955160 * 10 + 9 then v * 10 + d.val
        else sizeMax) = sizeMax := if_neg (by omega)
    rw [hsat']
    by_cases hv' : v ≤ 1844674407370955160 * 10 + 9
    · rw [if_pos hv', if_pos (by omega)]
    · rw [if_neg hv', if_pos (by decide)]

theorem widthLoop_digits (digits : List (Fin 10)) (v : ℕ) {c : ℤ} (p : List ℤ)
    (hc : aoIsDigitWchar c = false) :
    widthLoopWchar (digitsText digits ++ c :: p) (saturate v) =
      some (saturate (digits.foldl (fun v d => v * 10 + d.val) v), c :: p) := by
  induction digits generalizing v with
  | nil => simp only [digitsText, List.map_nil, List.nil_append, widthLoopWchar, hc,
      Bool.false_eq_true, ite_false, List.foldl_nil]
  | cons d digits ih =>
    have hd := digit_text d
    have hih := ih (v * 10 + d.val)
    rw [← widthStep_saturate] at hih
    simp only [digitsText, List.map_cons, List.cons_append, widthLoopWchar, hd, ite_true,
      List.foldl_cons]
    exact hih

theorem positionLoop_digits (digits : List (Fin 10)) (v : ℕ) {c : ℤ} (p : List ℤ)
    (hc : aoIsDigitWchar c = false) :
    positionLoopWchar (digitsText digits ++ c :: p) (v % 2 ^ 32) =
      some (digits.foldl (fun v d => v * 10 + d.val) v % 2 ^ 32, c :: p) := by
  induction digits generalizing v with
  | nil => simp only [digitsText, List.map_nil, List.nil_append, positionLoopWchar, hc,
      Bool.false_eq_true, ite_false, List.foldl_nil]
  | cons d digits ih =>
    have hd := digit_text d
    have hstep : positionStep (v % 2 ^ 32) (code '0' + d.val) = (v * 10 + d.val) % 2 ^ 32 := by
      rw [positionStep, digit_value]
      omega
    simp only [digitsText, List.map_cons, List.cons_append, positionLoopWchar, hd, ite_true,
      List.foldl_cons]
    rw [hstep]
    exact ih (v * 10 + d.val)

/-! ### Heads -/

/-- A character that ends a number and is no mark of its own. -/
def Quiet (c : ℤ) : Prop :=
  aoIsDigitWchar c = false ∧ c ∉ [code '$', code '*', code '%', 0]

instance (c : ℤ) : Decidable (Quiet c) := inferInstanceAs (Decidable (_ ∧ _))

/-- A specifier's first character is no length modifier either. -/
def SpecHead (c : ℤ) : Prop :=
  Quiet c ∧ c ∉ [code 'm', code 'l', code 'h', code 'j', code 'z', code 't', code 'L']

instance (c : ℤ) : Decidable (SpecHead c) := inferInstanceAs (Decidable (_ ∧ _))

def Spec.head : Spec → ℤ
  | .letter l => code l.char
  | .scanset _ _ _ => code '['

def Spec.tail : Spec → List ℤ
  | .letter _ => []
  | .scanset negated first rest =>
    (if negated then [code '^'] else []) ++ first :: rest ++ [code ']']

theorem spec_text (sp : Spec) : sp.text = sp.head :: sp.tail := by
  cases sp with
  | letter l => rfl
  | scanset negated first rest => rfl

theorem specHead_head (sp : Spec) : SpecHead sp.head := by
  cases sp with
  | letter l => cases l <;> decide
  | scanset negated first rest => exact (by decide : SpecHead (code '['))

theorem quiet_length (len : Length) {c : ℤ} (p : List ℤ) (hc : SpecHead c) :
    ∃ d q, len.text ++ c :: p = d :: q ∧ Quiet d ∧ d ≠ code 'm' := by
  cases len with
  | none => exact ⟨c, p, rfl, hc.1, fun h => hc.2 (by rw [h]; decide)⟩
  | hh => exact ⟨_, _, rfl, by decide, by decide⟩
  | h => exact ⟨_, _, rfl, by decide, by decide⟩
  | l => exact ⟨_, _, rfl, by decide, by decide⟩
  | ll => exact ⟨_, _, rfl, by decide, by decide⟩
  | j => exact ⟨_, _, rfl, by decide, by decide⟩
  | z => exact ⟨_, _, rfl, by decide, by decide⟩
  | t => exact ⟨_, _, rfl, by decide, by decide⟩
  | L => exact ⟨_, _, rfl, by decide, by decide⟩

theorem quiet_alloc (alloc : Bool) {d : ℤ} (q : List ℤ) (hd : Quiet d) :
    ∃ c p, (if alloc then [code 'm'] else []) ++ d :: q = c :: p ∧ Quiet c := by
  cases alloc with
  | false => exact ⟨d, q, rfl, hd⟩
  | true => exact ⟨_, _, rfl, by decide⟩

/-! ### Stages -/

theorem alloc_text (alloc : Bool) {d : ℤ} (q : List ℤ) (hd : d ≠ code 'm') :
    allocWchar ((if alloc then [code 'm'] else []) ++ d :: q) = some (alloc, d :: q) := by
  cases alloc with
  | false => simp only [allocWchar, Bool.false_eq_true, ite_false, List.nil_append,
      List.head?_cons, Option.bind_eq_bind, Option.bind_some, hd]
  | true => rfl

theorem size_text (len : Length) {c : ℤ} (p : List ℤ) (hc : SpecHead c) :
    sizeWchar (len.text ++ c :: p) =
      some (if len = .l then .sizeL else .sizeDef, c :: p) := by
  have hmem := hc.2
  simp only [List.mem_cons, List.not_mem_nil, or_false, not_or] at hmem
  obtain ⟨_, hl, hh, hj, hz, ht, hL⟩ := hmem
  cases len with
  | none => simp only [sizeWchar, Length.text, List.nil_append, List.head?_cons,
      Option.bind_eq_bind, Option.bind_some, hl, hh, hj, hz, ht, hL, or_self, ite_false,
      reduceCtorEq]
  | h =>
    simp only [sizeWchar, Length.text, List.cons_append, List.nil_append, List.head?_cons,
      Option.bind_eq_bind, Option.bind_some, List.tail_cons, hh, ite_false, reduceCtorEq]
    rfl
  | l =>
    simp only [sizeWchar, Length.text, List.cons_append, List.nil_append, List.head?_cons,
      Option.bind_eq_bind, Option.bind_some, List.tail_cons, ne_eq, hl, not_false_eq_true,
      ite_true]
  | _ => rfl

theorem width_text (digits : List (Fin 10)) {c : ℤ} (p : List ℤ)
    (hc : aoIsDigitWchar c = false) :
    widthWchar (digitsText digits ++ c :: p) = some (saturate (digitsValue digits), c :: p) := by
  cases digits with
  | nil =>
    simp only [widthWchar, digitsText, List.map_nil, List.nil_append, List.head?_cons,
      Option.bind_eq_bind, Option.bind_some, hc, Bool.false_eq_true, ite_false]
    rfl
  | cons d digits =>
    have hloop := widthLoop_digits (d :: digits) 0 p hc
    simp only [widthWchar, digitsText, List.map_cons, List.cons_append, List.head?_cons,
      Option.bind_eq_bind, Option.bind_some, digit_text d, ite_true]
    exact hloop

/-- The target of a conversion, as the parser computes it. -/
def Destination.target (args : ℕ → ℕ) (ap : ℕ) : Destination → Target
  | .suppressed => Target.suppress ap
  | .numbered digits => Target.nth args ap (digitsValue digits)
  | .next => Target.next args ap

theorem position_text {digits : List (Fin 10)} (p : List ℤ) (hne : digits ≠ [])
    (hfits : digitsValue digits < 2 ^ 32) :
    aoParsePositionWchar (digitsText digits ++ code '$' :: p) =
      some (decide (digitsValue digits ≠ 0), digitsValue digits, p) := by
  have hloop := positionLoop_digits digits 0 (c := code '$') p (by decide)
  rw [Nat.zero_mod] at hloop
  change _ = some (digitsValue digits % 2 ^ 32, _) at hloop
  rw [Nat.mod_eq_of_lt hfits] at hloop
  obtain ⟨d, digits, rfl⟩ := List.exists_cons_of_ne_nil hne
  have hhead : (digitsText (d :: digits) ++ code '$' :: p).head? = some (code '0' + d.val) := rfl
  simp only [aoParsePositionWchar, hhead, Option.bind_eq_bind, Option.bind_some, digit_text d,
    Bool.true_eq_false, ite_false, hloop, List.head?_cons, ne_eq, not_true, List.tail_cons]

theorem noPosition_text (digits : List (Fin 10)) {c : ℤ} (p : List ℤ) (hc : Quiet c) :
    aoParsePositionWchar (digitsText digits ++ c :: p) =
      some (false, 0, digitsText digits ++ c :: p) := by
  have hdollar : c ≠ code '$' := fun h => hc.2 (by rw [h]; decide)
  cases digits with
  | nil => simp only [aoParsePositionWchar, digitsText, List.map_nil, List.nil_append,
      List.head?_cons, Option.bind_eq_bind, Option.bind_some, hc.1, ite_true]
  | cons d digits =>
    have hloop := positionLoop_digits (d :: digits) 0 p hc.1
    rw [Nat.zero_mod] at hloop
    have hhead : (digitsText (d :: digits) ++ c :: p).head? = some (code '0' + d.val) := rfl
    simp only [aoParsePositionWchar, hhead, Option.bind_eq_bind, Option.bind_some, digit_text d,
      Bool.true_eq_false, ite_false, hloop, List.head?_cons, ne_eq, hdollar, not_false_eq_true,
      ite_true]

theorem digit_not_star (d : Fin 10) : code '0' + (d.val : ℤ) ≠ code '*' := by
  have h0 : code '0' = 48 := by decide
  have hs : code '*' = 42 := by decide
  omega

theorem target_text (args : ℕ → ℕ) (ap : ℕ) (dst : Destination) (digits : List (Fin 10)) {c : ℤ}
    (p : List ℤ) (hv : dst.Valid) (hfits : dst.Fits) (hc : Quiet c) :
    targetWchar args ap (dst.text ++ (digitsText digits ++ c :: p)) =
      some (dst.target args ap, digitsText digits ++ c :: p) := by
  cases dst with
  | suppressed => rfl
  | numbered pos =>
    obtain ⟨hne, hpos⟩ := hv
    have hparse := position_text (digitsText digits ++ c :: p) hne hfits
    obtain ⟨d, pos, rfl⟩ := List.exists_cons_of_ne_nil hne
    have hnz : digitsValue (d :: pos) ≠ 0 := by omega
    have hhead : (digitsText (d :: pos) ++ code '$' :: (digitsText digits ++ c :: p)).head? =
        some (code '0' + d.val) := rfl
    simp only [targetWchar, Destination.text, List.append_assoc, List.cons_append, List.nil_append,
      hhead, Option.bind_eq_bind, Option.bind_some, digit_not_star d, ite_false, hparse,
      decide_eq_true hnz, ite_true, Destination.target]
  | next =>
    have hparse := noPosition_text digits p hc
    have hstar : ∀ d, (digitsText digits ++ c :: p).head? = some d → d ≠ code '*' := by
      intro d hd
      cases digits with
      | nil =>
        cases hd
        exact fun h => hc.2 (by rw [h]; decide)
      | cons e digits =>
        cases hd
        exact digit_not_star e
    simp only [targetWchar, Destination.text, List.nil_append, Option.bind_eq_bind]
    cases hhead : (digitsText digits ++ c :: p).head? with
    | none => simp at hhead
    | some d =>
      simp only [Option.bind_some, hstar d hhead, ite_false, hparse, Bool.false_eq_true]
      rfl

theorem scansetLoop_text {rest : List ℤ} (tail : List ℤ)
    (h : ∀ c ∈ rest, c ≠ 0 ∧ c ≠ code ']') :
    scansetLoopWchar (rest ++ code ']' :: tail) = some (code ']' :: tail) := by
  induction rest with
  | nil => rfl
  | cons c rest ih =>
    rw [List.cons_append, scansetLoopWchar, if_pos (h c (List.mem_cons_self ..))]
    exact ih fun d hd => h d (List.mem_cons_of_mem _ hd)

theorem scanset_text {negated : Bool} {first : ℤ} {rest : List ℤ} (tail : List ℤ)
    (hv : (Spec.scanset negated first rest).Valid) :
    aoSkipScansetWchar ((Spec.scanset negated first rest).tail ++ tail) = some tail := by
  obtain ⟨hfirst, hcaret, hrest⟩ := hv
  have hnot : skipIfWchar (code '^') ((Spec.scanset negated first rest).tail ++ tail) =
      some (first :: (rest ++ code ']' :: tail)) := by
    cases negated with
    | true => simp [skipIfWchar, Spec.tail]
    | false => simp [skipIfWchar, Spec.tail, hcaret rfl]
  have hlast : skipIfWchar (code ']') (code ']' :: tail) = some tail := rfl
  simp only [aoSkipScansetWchar, hnot, Option.bind_eq_bind, Option.bind_some]
  -- a bracket in front belongs to the set
  by_cases hb : first = code ']'
  · have hskip : skipIfWchar (code ']') (first :: (rest ++ code ']' :: tail)) =
        some (rest ++ code ']' :: tail) := by
      rw [hb]
      rfl
    rw [hskip, Option.bind_some, scansetLoop_text tail hrest, Option.bind_some, hlast]
  · have hskip : skipIfWchar (code ']') (first :: (rest ++ code ']' :: tail)) =
        some (first :: rest ++ code ']' :: tail) := by
      simp [skipIfWchar, hb]
    have hall : ∀ c ∈ first :: rest, c ≠ 0 ∧ c ≠ code ']' := by
      intro c hc
      rcases List.mem_cons.mp hc with rfl | hc
      · exact ⟨hfirst, hb⟩
      · exact hrest c hc
    rw [hskip, Option.bind_some, scansetLoop_text tail hall, Option.bind_some, hlast]

/-! ### The specifier -/

/-- The specifier after `C` and `S` were folded. -/
def Spec.folded : Spec → ℤ
  | .letter .C => code 'c'
  | .letter .S => code 's'
  | .letter l => code l.char
  | .scanset _ _ _ => code '['

theorem foldSpec_head (sp : Spec) (size : AoSize) : foldSpec sp.head size =
    (sp.folded, if sp = .letter .C ∨ sp = .letter .S then .sizeL else size) := by
  cases sp with
  | letter l => cases l <;> rfl
  | scanset negated first rest => rfl

theorem isStringSpec_folded (sp : Spec) : isStringSpec sp.folded = sp.isString := by
  cases sp with
  | letter l => cases l <;> decide
  | scanset negated first rest => rfl

theorem folded_char (sp : Spec) : sp.folded = code 'c' ↔ sp.isChar = true := by
  cases sp with
  | letter l => cases l <;> decide
  | scanset negated first rest =>
    exact iff_of_false (by decide : code '[' ≠ code 'c') (fun h => by cases h)

theorem folded_n (sp : Spec) : sp.folded = code 'n' ↔ sp = .letter .n := by
  cases sp with
  | letter l => cases l <;> decide
  | scanset negated first rest =>
    exact iff_of_false (by decide : code '[' ≠ code 'n') (fun h => by cases h)

theorem letter_not_scanset (l : Letter) : (Spec.letter l).folded ≠ code '[' := by
  cases l <;> decide

theorem effectiveWidth_text (k : Conversion) :
    effectiveWidth k.spec.folded (saturate (digitsValue k.width)) = k.recordWidth := by
  unfold effectiveWidth Conversion.recordWidth
  simp only [folded_char]

theorem recordMConversion_text (charMode : AoRehomeMode) (grow : ℕ → Bool) (plan : AoScanfPlan)
    (dest ordinal : ℕ) (k : Conversion) :
    recordMConversion charMode grow plan dest ordinal
      (if k.spec = .letter .C ∨ k.spec = .letter .S then .sizeL
        else if k.length = .l then .sizeL else .sizeDef) k.spec.folded k.recordWidth =
      if dest = 0 then (true, plan)
      else aoScanfPlanPush grow plan ⟨dest, ordinal, k.mode charMode, k.recordWidth⟩ := by
  have hwide : (if k.spec = .letter .C ∨ k.spec = .letter .S then AoSize.sizeL
      else if k.length = .l then .sizeL else .sizeDef) = .sizeL ↔ k.isWide = true := by
    unfold Conversion.isWide
    rw [decide_eq_true_eq]
    by_cases hs : k.spec = .letter .C ∨ k.spec = .letter .S <;> by_cases hl : k.length = .l <;>
      simp [hs, hl]
  unfold recordMConversion Conversion.mode
  simp only [hwide, folded_char]

/-- The push that a conversion makes in state `s`. -/
def Conversion.push (charMode : AoRehomeMode) (env : Env) (s : Scan) (k : Conversion) :
    Bool × AoScanfPlan :=
  let dest := (k.destination.target env.args s.ap).dest
  if k.alloc = true ∧ k.spec.isString = true ∧ k.destination ≠ .suppressed ∧ dest ≠ 0 then
    aoScanfPlanPush env.grow s.plan
      ⟨dest, (s.ordinal + 1) % 2 ^ 32, k.mode charMode, k.recordWidth⟩
  else (true, s.plan)

/-- The variables after a conversion whose push left `plan`. -/
def Conversion.after (env : Env) (s : Scan) (k : Conversion) (plan : AoScanfPlan) : Scan :=
  { ap := (k.destination.target env.args s.ap).ap
    taken := s.taken ++ (k.destination.target env.args s.ap).taken
    plan := plan
    ordinal := if (Directive.conversion k).counted then (s.ordinal + 1) % 2 ^ 32 else s.ordinal }

theorem target_suppressed (args : ℕ → ℕ) (ap : ℕ) (dst : Destination) :
    (dst.target args ap).suppressed = decide (dst = .suppressed) := by
  cases dst <;> rfl

theorem spec_skip {β : Type} {sp : Spec} (hv : sp.Valid) (tail : List ℤ)
    (g : List ℤ → Option β) :
    (if sp.folded = code '[' then (aoSkipScansetWchar (sp.tail ++ tail)).bind g
      else (some (sp.tail ++ tail)).bind g) = g tail := by
  cases sp with
  | letter l => exact if_neg (letter_not_scanset l)
  | scanset negated first rest =>
    have hb : (Spec.scanset negated first rest).folded = code '[' := rfl
    rw [if_pos hb, scanset_text tail hv, Option.bind_some]

theorem spec_stage_text (charMode : AoRehomeMode) (env : Env) (s : Scan) (k : Conversion)
    (hv : k.Valid) (tail : List ℤ) :
    specWchar charMode env
      { s with ap := (k.destination.target env.args s.ap).ap,
               taken := s.taken ++ (k.destination.target env.args s.ap).taken }
      (k.destination.target env.args s.ap) (saturate (digitsValue k.width)) k.alloc
      (if k.spec = .letter .C ∨ k.spec = .letter .S then .sizeL
        else if k.length = .l then .sizeL else .sizeDef)
      k.spec.folded (k.spec.tail ++ tail) =
    if (k.push charMode env s).1 = false then
      some (.fail { s with ap := (k.destination.target env.args s.ap).ap,
                           taken := s.taken ++ (k.destination.target env.args s.ap).taken,
                           plan := (k.push charMode env s).2 })
    else some (.more (k.after env s (k.push charMode env s).2) tail) := by
  have hcond : (k.alloc && !(k.destination.target env.args s.ap).suppressed &&
      isStringSpec k.spec.folded) = true ↔
      k.alloc = true ∧ k.spec.isString = true ∧ k.destination ≠ .suppressed := by
    rw [isStringSpec_folded, target_suppressed]
    simp only [Bool.and_eq_true, Bool.not_eq_true', decide_eq_false_iff_not, ne_eq]
    tauto
  have hcount : ((k.destination.target env.args s.ap).suppressed = false ∧
      k.spec.folded ≠ code 'n') ↔ (Directive.conversion k).counted = true := by
    rw [target_suppressed, ne_eq, folded_n]
    simp only [Directive.counted, decide_eq_false_iff_not, decide_eq_true_eq, ne_eq]
  have hpush : (if (k.alloc && !(k.destination.target env.args s.ap).suppressed &&
        isStringSpec k.spec.folded) = true then
      recordMConversion charMode env.grow s.plan (k.destination.target env.args s.ap).dest
        ((s.ordinal + 1) % 2 ^ 32)
        (if k.spec = .letter .C ∨ k.spec = .letter .S then .sizeL
          else if k.length = .l then .sizeL else .sizeDef) k.spec.folded
        (effectiveWidth k.spec.folded (saturate (digitsValue k.width)))
      else (true, s.plan)) = k.push charMode env s := by
    unfold Conversion.push
    rw [effectiveWidth_text, recordMConversion_text]
    simp only [hcond]
    by_cases hd : (k.destination.target env.args s.ap).dest = 0
    · simp only [hd, ite_true, ite_self, ne_eq, not_true, and_false, ite_false]
    · simp only [hd, ite_false, ne_eq, not_false_eq_true, and_true]
  unfold specWchar
  dsimp only
  simp only [hpush, Option.bind_eq_bind, spec_skip hv.spec, Conversion.after, hcount]

theorem conversion_text (charMode : AoRehomeMode) (env : Env) (s : Scan) (k : Conversion)
    (hv : k.Valid) (hfits : k.destination.Fits) (tail : List ℤ) :
    conversionWchar charMode env s (k.text ++ tail) =
    if (k.push charMode env s).1 = false then
      some (.fail { s with ap := (k.destination.target env.args s.ap).ap,
                           taken := s.taken ++ (k.destination.target env.args s.ap).taken,
                           plan := (k.push charMode env s).2 })
    else some (.more (k.after env s (k.push charMode env s).2) tail) := by
  have hhead := specHead_head k.spec
  obtain ⟨d, q, hd, hquiet, hm⟩ := quiet_length k.length (k.spec.tail ++ tail) hhead
  obtain ⟨c, p, hc, hcq⟩ := quiet_alloc k.alloc q hquiet
  have htext : k.text ++ tail = k.destination.text ++ (digitsText k.width ++ c :: p) := by
    rw [Conversion.text, spec_text, ← hc, ← hd]
    simp only [List.append_assoc, List.cons_append]
  have h1 := target_text env.args s.ap k.destination k.width p hv.destination hfits hcq
  have h2 := width_text k.width p hcq.1
  have h3 := alloc_text k.alloc q hm
  have h4 := size_text k.length (k.spec.tail ++ tail) hhead
  have hz : k.spec.head ≠ 0 := fun h => hhead.1.2 (by rw [h]; decide)
  rw [hc] at h3
  rw [hd] at h4
  rw [htext]
  simp only [conversionWchar, Option.bind_eq_bind, h1, h2, h3, h4, Option.bind_some,
    List.head?_cons, hz, ite_false, foldSpec_head, List.tail_cons]
  exact spec_stage_text charMode env s k hv tail

/-! ### Formats -/

/-- The variables agree with the directives read so far. -/
structure Follows (before : List Directive) (s : Scan) : Prop where
  ap : s.ap = before.countP Directive.isNext
  ordinal : s.ordinal = before.countP Directive.counted % 2 ^ 32
  plan : s.plan.Doubled

theorem countP_snoc (f : Directive → Bool) (before : List Directive) (d : Directive) :
    (before ++ [d]).countP f = before.countP f + if f d then 1 else 0 := by
  rw [List.countP_append, List.countP_singleton]

theorem dest_argument (args : ℕ → ℕ) {before : List Directive} {k : Conversion} {ap : ℕ}
    (hu : Uniform (before ++ [.conversion k])) (hap : ap = before.countP Directive.isNext) :
    (k.destination.target args ap).dest = k.argument args before := by
  have hlast : Directive.conversion k ∈ before ++ [.conversion k] := by simp
  cases hdst : k.destination with
  | suppressed => simp only [Destination.target, Target.suppress, Conversion.argument, hdst]
  | numbered digits =>
    have hzero : before.countP Directive.isNext = 0 := by
      rw [List.countP_eq_zero]
      intro d hd
      rcases hu with hu | hu
      · simp [hu d (List.mem_append_left _ hd)]
      · -- this very conversion is numbered
        have hnum := hu _ hlast
        simp [Directive.isNumbered, Directive.unsuppressed, Directive.isNext, hdst] at hnum
    simp only [Destination.target, Target.nth, aoArgN, Conversion.argument, hdst, hap, hzero,
      Nat.zero_add]
  | next =>
    have hsame : before.countP Directive.isNext = before.countP Directive.unsuppressed := by
      refine List.countP_congr fun d hd => ?_
      rcases hu with hu | hu
      · have hnext := hu _ hlast
        simp [Directive.isNext, hdst] at hnext
      · have hnum := hu d (List.mem_append_left _ hd)
        cases d with
        | literal c => rfl
        | percent => rfl
        | conversion j =>
          cases hj : j.destination <;>
            simp_all [Directive.isNumbered, Directive.isNext, Directive.unsuppressed]
    simp only [Destination.target, Target.next, Conversion.argument, hdst, hap, hsame]

theorem follows_after {env : Env} {before : List Directive} {s : Scan} (k : Conversion)
    {plan : AoScanfPlan} (h : Follows before s) (hplan : plan.Doubled) :
    Follows (before ++ [.conversion k]) (k.after env s plan) := by
  refine ⟨?_, ?_, hplan⟩
  · rw [countP_snoc, ← h.ap, Conversion.after]
    cases hdst : k.destination <;>
      simp [Destination.target, Target.suppress, Target.nth, Target.next, Directive.isNext, hdst]
  · rw [countP_snoc, Conversion.after]
    have ho := h.ordinal
    dsimp only
    split
    · omega
    · exact ho

theorem push_records (charMode : AoRehomeMode) (env : Env) {before : List Directive} {s : Scan}
    {k : Conversion} (h : Follows before s) (hu : Uniform (before ++ [.conversion k])) :
    ((k.push charMode env s).1 = false ∧ PlanRefused env.grow (s.plan.records.length +
      (expectedRecord charMode env.args before (.conversion k)).toList.length)) ∨
    ((k.push charMode env s).1 = true ∧ (k.push charMode env s).2.Doubled ∧
      (k.push charMode env s).2.records = s.plan.records ++
        ((expectedRecord charMode env.args before (.conversion k)).map AoScanfRecord.wrap).toList) := by
  have hdest := dest_argument env.args hu h.ap
  have hord : (s.ordinal + 1) % 2 ^ 32 = (1 + before.countP Directive.counted) % 2 ^ 32 := by
    have ho := h.ordinal
    omega
  have hexp : expectedRecord charMode env.args before (.conversion k) =
      if k.alloc = true ∧ k.spec.isString = true ∧ k.destination ≠ .suppressed ∧
          k.argument env.args before ≠ 0 then
        some ⟨k.argument env.args before, 1 + before.countP Directive.counted, k.mode charMode,
          k.recordWidth⟩
      else none := rfl
  have hpush : k.push charMode env s =
      if k.alloc = true ∧ k.spec.isString = true ∧ k.destination ≠ .suppressed ∧
          k.argument env.args before ≠ 0 then
        aoScanfPlanPush env.grow s.plan ⟨k.argument env.args before,
          (1 + before.countP Directive.counted) % 2 ^ 32, k.mode charMode, k.recordWidth⟩
      else (true, s.plan) := by
    unfold Conversion.push
    rw [hdest, hord]
  rw [hexp, hpush]
  by_cases hc : k.alloc = true ∧ k.spec.isString = true ∧ k.destination ≠ .suppressed ∧
      k.argument env.args before ≠ 0
  · rw [if_pos hc, if_pos hc]
    rcases doubled_push env.grow h.plan ⟨k.argument env.args before,
      (1 + before.countP Directive.counted) % 2 ^ 32, k.mode charMode, k.recordWidth⟩ with
      ⟨heq, hgrow⟩ | hok
    · rw [heq]
      exact Or.inl ⟨rfl, hgrow⟩
    · exact Or.inr hok
  · rw [if_neg hc, if_neg hc]
    exact Or.inr ⟨rfl, h.plan, (List.append_nil _).symm⟩

theorem digit_not_percent (d : Fin 10) : code '0' + (d.val : ℤ) ≠ code '%' := by
  have h0 : code '0' = 48 := by decide
  have hp : code '%' = 37 := by decide
  omega

theorem digits_head (digits : List (Fin 10)) {c : ℤ} (p : List ℤ) (hc : c ≠ code '%') :
    ∃ d q, digitsText digits ++ c :: p = d :: q ∧ d ≠ code '%' := by
  cases digits with
  | nil => exact ⟨c, p, rfl, hc⟩
  | cons d digits => exact ⟨_, _, rfl, digit_not_percent d⟩

theorem conversion_head (k : Conversion) (tail : List ℤ) :
    ∃ d q, k.text ++ tail = d :: q ∧ d ≠ code '%' := by
  have hhead := specHead_head k.spec
  obtain ⟨d, q, hd, hquiet, _⟩ := quiet_length k.length (k.spec.tail ++ tail) hhead
  obtain ⟨c, p, hc, hcq⟩ := quiet_alloc k.alloc q hquiet
  have htext : k.text ++ tail = k.destination.text ++ (digitsText k.width ++ c :: p) := by
    rw [Conversion.text, spec_text, ← hc, ← hd]
    simp only [List.append_assoc, List.cons_append]
  have hc' : c ≠ code '%' := fun h => hcq.2 (by rw [h]; decide)
  rw [htext]
  cases hdst : k.destination with
  | suppressed => exact ⟨_, _, rfl, by decide⟩
  | numbered digits =>
    simp only [Destination.text, List.append_assoc]
    exact digits_head digits _ (by decide)
  | next => exact digits_head k.width p hc'

/-- What an iteration on the text of one directive does. -/
theorem directive_text (charMode : AoRehomeMode) (env : Env) {before : List Directive} {s : Scan}
    {d : Directive} (h : Follows before s) (hv : d.Valid) (hfits : d.Fits)
    (hu : Uniform (before ++ [d])) (tail : List ℤ) : ∃ c p, d.text ++ tail = c :: p ∧ c ≠ 0 ∧
    ((∃ s', iterationWchar charMode env s c p = some (.fail s') ∧
      PlanRefused env.grow (s.plan.records.length +
        (expectedRecord charMode env.args before d).toList.length)) ∨
    ∃ s', iterationWchar charMode env s c p = some (.more s' tail) ∧ Follows (before ++ [d]) s' ∧
      s'.plan.records = s.plan.records ++
        ((expectedRecord charMode env.args before d).map AoScanfRecord.wrap).toList) := by
  cases d with
  | literal c =>
    refine ⟨c, tail, rfl, hv.1, Or.inr ⟨s, ?_, ?_, (List.append_nil _).symm⟩⟩
    · rw [iterationWchar, if_pos hv.2]
    · refine ⟨?_, ?_, h.plan⟩
      · rw [countP_snoc]
        exact h.ap
      · rw [countP_snoc]
        exact h.ordinal
  | percent =>
    refine ⟨code '%', code '%' :: tail, rfl, by decide, Or.inr ⟨s, rfl, ?_,
      (List.append_nil _).symm⟩⟩
    refine ⟨?_, ?_, h.plan⟩
    · rw [countP_snoc]
      exact h.ap
    · rw [countP_snoc]
      exact h.ordinal
  | conversion k =>
    refine ⟨code '%', k.text ++ tail, rfl, by decide, ?_⟩
    have hconv := conversion_text charMode env s k hv hfits tail
    have hiter : iterationWchar charMode env s (code '%') (k.text ++ tail) =
        conversionWchar charMode env s (k.text ++ tail) := by
      obtain ⟨d, q, hd, hne⟩ := conversion_head k tail
      rw [iterationWchar, if_neg (not_not.mpr rfl), hd]
      simp only [List.head?_cons, Option.bind_eq_bind, Option.bind_some, hne, ite_false]
    rw [hiter, hconv]
    rcases push_records charMode env h hu with ⟨hfail, hgrow⟩ | ⟨hok, hplan, hrec⟩
    · rw [if_pos hfail]
      exact Or.inl ⟨_, rfl, hgrow⟩
    · rw [if_neg (by rw [hok]; decide)]
      exact Or.inr ⟨_, rfl, follows_after k h hplan, hrec⟩

theorem scanLoop_text (charMode : AoRehomeMode) (env : Env) {before ds : List Directive}
    {s : Scan} {fuel : ℕ} (h : Follows before s) (hv : ∀ d ∈ ds, d.Valid ∧ d.Fits)
    (hu : Uniform (before ++ ds)) (hfuel : (formatText ds).length ≤ fuel) :
    ((∃ s', scanLoop charMode env fuel s (formatText ds) = some (-1, s')) ∧
      PlanRefused env.grow (s.plan.records.length +
        (expectedRecords charMode env.args before ds).length)) ∨
    ∃ s', scanLoop charMode env fuel s (formatText ds) = some (0, s') ∧
      s'.plan.records = s.plan.records ++
        (expectedRecords charMode env.args before ds).map AoScanfRecord.wrap := by
  induction ds generalizing before s fuel with
  | nil =>
    obtain ⟨fuel, rfl⟩ : ∃ n, fuel = n + 1 := Nat.exists_eq_succ_of_ne_zero (by
      simp [formatText] at hfuel
      omega)
    exact Or.inr ⟨s, rfl, (List.append_nil _).symm⟩
  | cons d ds ih =>
    have hsplit : formatText (d :: ds) = d.text ++ formatText ds := by
      simp only [formatText, List.flatMap_cons, List.append_assoc]
    obtain ⟨hvd, hfits⟩ := hv d (List.mem_cons_self ..)
    have hu' : Uniform (before ++ [d] ++ ds) := by
      rw [List.append_assoc]
      exact hu
    have hud : Uniform (before ++ [d]) := by
      have hsub : ∀ e ∈ before ++ [d], e ∈ before ++ [d] ++ ds := fun e he =>
        List.mem_append_left _ he
      exact hu'.imp (fun hn e he => hn e (hsub e he)) (fun hn e he => hn e (hsub e he))
    obtain ⟨c, p, hcp, hc, hstep⟩ := directive_text charMode env h hvd hfits hud (formatText ds)
    rw [hsplit, hcp] at hfuel
    rw [hsplit, hcp]
    obtain ⟨fuel, rfl⟩ : ∃ n, fuel = n + 1 := Nat.exists_eq_succ_of_ne_zero (by
      rw [List.length_cons] at hfuel
      omega)
    rw [scanLoop, if_neg hc]
    rw [expectedRecords]
    rcases hstep with ⟨s', hs', hgrow⟩ | ⟨s', hs', hfol, hrec⟩
    · rw [hs']
      exact Or.inl ⟨⟨s', rfl⟩, hgrow.mono (by rw [List.length_append]; omega)⟩
    · rw [hs']
      have hlen : (formatText ds).length ≤ fuel := by
        have htext : 0 < d.text.length := by
          cases d <;> simp [Directive.text]
        have htotal := congrArg List.length hcp
        rw [List.length_append, List.length_cons] at htotal
        rw [List.length_cons] at hfuel
        omega
      rcases ih hfol (fun e he => hv e (List.mem_cons_of_mem _ he)) hu' hlen with
        ⟨hfail, hgrow⟩ | ⟨s'', hs'', hrec'⟩
      · refine Or.inl ⟨hfail, ?_⟩
        rw [hrec, List.length_append, Option.toList_map, List.length_map] at hgrow
        rwa [List.length_append, ← Nat.add_assoc]
      · refine Or.inr ⟨s'', hs'', ?_⟩
        rw [hrec', hrec, List.map_append, List.append_assoc]
        cases expectedRecord charMode env.args before d <;> rfl

/-- On a well-formed format with positions that fit, the scanner returns: with
the records of the grammar, or with -1 when the room for them was refused. -/
theorem scanFormat_text (charMode : AoRehomeMode) (env : Env) {ds : List Directive}
    (hwf : WellFormed ds) (hfits : ∀ d ∈ ds, d.Fits) :
    ((∃ s, scanFormat charMode env (formatText ds) = some (-1, s)) ∧
      PlanRefused env.grow (expectedRecords charMode env.args [] ds).length) ∨
    ∃ s, scanFormat charMode env (formatText ds) = some (0, s) ∧
      s.plan.records = (expectedRecords charMode env.args [] ds).map AoScanfRecord.wrap := by
  have hstart : Follows [] startScan := ⟨rfl, rfl, Or.inl rfl⟩
  have hloop := scanLoop_text charMode env hstart (fun d hd => ⟨hwf.valid d hd, hfits d hd⟩)
    hwf.uniform le_rfl
  have hempty : startScan.plan.records.length = 0 := rfl
  rwa [hempty, Nat.zero_add] at hloop

/-! ### The result -/

/-- The narrow parser on the text of a well-formed format whose positions are
below `2 ^ 32`, when the pushes that it makes succeed. -/
theorem parseScanfFormat_records (env : Env) (ds : List Directive) (format : List Int8)
    (htext : uchars format = formatText ds) (hwf : WellFormed ds) (hfits : ∀ d ∈ ds, d.Fits)
    (hgrow : ∀ size, PlanAsks (expectedRecords .charCount env.args [] ds).length size →
      env.grow size = true) :
    ∃ s, aoParseScanfFormat env format = some (0, s) ∧
      s.plan.records = (expectedRecords .charCount env.args [] ds).map AoScanfRecord.wrap := by
  rw [parseScanfFormat_eq, htext]
  rcases scanFormat_text .charCount env hwf hfits with ⟨_, size, hasks, hsize⟩ | hok
  · rw [hgrow size hasks] at hsize
    cases hsize
  · exact hok

/-! `%*d%2m[^]x]%n%ms`: the records carry ordinals 1 and 2 and the first and
third argument. -/

def sampleFormat : List Directive :=
  [.conversion ⟨.suppressed, [], false, .none, .letter .d⟩,
    .conversion ⟨.next, [2], true, .none, .scanset true (code ']') [code 'x']⟩,
    .conversion ⟨.next, [], false, .none, .letter .n⟩,
    .conversion ⟨.next, [], true, .none, .letter .s⟩]

def sampleText : List Int8 :=
  [37, 42, 100, 37, 50, 109, 91, 94, 93, 120, 93, 37, 110, 37, 109, 115, 0]

def sampleEnv : Env := ⟨fun i => i + 1, fun _ => true⟩

theorem sampleFormat_wellFormed : WellFormed sampleFormat := by
  refine ⟨?_, Or.inr (by decide)⟩
  intro d hd
  simp only [sampleFormat, List.mem_cons, List.not_mem_nil, or_false] at hd
  rcases hd with rfl | rfl | rfl | rfl
  · exact ⟨trivial, fun _ => Or.inl rfl, trivial⟩
  · refine ⟨trivial, fun _ => Or.inl rfl, ⟨by decide, by decide, ?_⟩⟩
    intro c hc
    rw [List.mem_singleton.mp hc]
    decide
  · exact ⟨trivial, fun _ => Or.inl rfl, trivial⟩
  · exact ⟨trivial, fun _ => Or.inl rfl, trivial⟩

/-- Room for eight records is enough. -/
theorem parseScanfFormat_records_sample : ∃ s,
    aoParseScanfFormat ⟨fun i => i + 1, fun size => decide (size = 192)⟩ sampleText = some (0, s) ∧
    s.plan.records = [⟨1, 1, .charString, 2⟩, ⟨3, 2, .charString, 0⟩] := by
  obtain ⟨s, hs, hrec⟩ := parseScanfFormat_records ⟨fun i => i + 1, fun size => decide (size = 192)⟩
    sampleFormat sampleText (by decide) sampleFormat_wellFormed
    (by
      intro d hd
      simp only [sampleFormat, List.mem_cons, List.not_mem_nil, or_false] at hd
      rcases hd with rfl | rfl | rfl | rfl <;> trivial)
    (by
      rintro size (⟨-, rfl⟩ | ⟨i, hi, -⟩)
      · decide
      · have htwo : (expectedRecords .charCount (fun i => i + 1) [] sampleFormat).length = 2 := by
          decide
        have hpos := Nat.two_pow_pos i
        rw [htwo] at hi
        omega)
  exact ⟨s, hs, hrec.trans (by decide)⟩

/-- `%4294967297$ms` -/
def farFormat : List Directive :=
  [.conversion ⟨.numbered [4, 2, 9, 4, 9, 6, 7, 2, 9, 7], [], true, .none, .letter .s⟩]

def farText : List Int8 := [37, 52, 50, 57, 52, 57, 54, 55, 50, 57, 55, 36, 109, 115, 0]

/-- The position wraps to the first argument. -/
theorem position_wraps : ¬ ∀ (env : Env) (ds : List Directive) (format : List Int8),
    uchars format = formatText ds → WellFormed ds → (∀ size, env.grow size = true) →
    ∃ s, aoParseScanfFormat env format = some (0, s) ∧
      s.plan.records = expectedRecords .charCount env.args [] ds := by
  intro h
  obtain ⟨s, hs, hrec⟩ := h sampleEnv farFormat farText (by decide)
    ⟨by
      intro d hd
      rw [List.mem_singleton.mp hd]
      exact ⟨⟨by decide, by decide⟩, fun _ => Or.inl rfl, trivial⟩, Or.inl (by decide)⟩
    (fun _ => rfl)
  have hrun : aoParseScanfFormat sampleEnv farText =
      some (0, ⟨0, [0], ⟨[⟨1, 1, .charString, 0⟩], 8⟩, 1⟩) := by decide
  rw [hrun] at hs
  cases hs
  exact absurd hrec (by decide)

end LibcOverride.Scanf

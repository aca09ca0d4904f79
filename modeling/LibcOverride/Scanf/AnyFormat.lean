import LibcOverride.Scanf.EndToEnd

/-!
# Plans of any format
(src/scanf_overrides.c:301-529, 622-632)

Whatever the text is, the plan numbers its records upwards and names only arguments
that the parser took. So the loop that stops at the first record beyond the result
leaves out no record below it.
-/

namespace LibcOverride.Scanf

/-- A record that counts elements counts at least one. -/
def AoScanfRecord.Sized (r : AoScanfRecord) : Prop :=
  r.mode ≠ .charString → r.mode ≠ .wideString → r.width ≠ 0

/-- The variables of the parser after `used` characters. -/
structure Planned (env : Env) (used : ℕ) (s : Scan) : Prop where
  sorted : s.plan.records.Pairwise fun r r' => r.ordinal < r'.ordinal
  numbered : ∀ r ∈ s.plan.records, 1 ≤ r.ordinal ∧ r.ordinal ≤ s.ordinal
  slots : ∀ r ∈ s.plan.records, r.slot ≠ 0 ∧ ∃ k ∈ s.taken, r.slot = env.args k
  sized : ∀ r ∈ s.plan.records, r.Sized
  few : 3 * s.plan.records.length ≤ used
  conversions : 2 * s.ordinal ≤ used
  arguments : 2 * s.taken.length ≤ used

/-- What a conversion changes; `recorded` says whether it added to the plan. -/
structure Change (env : Env) (s : Scan) (recorded : Bool) (s' : Scan) : Prop where
  taken : ∃ new, s'.taken = s.taken ++ new ∧ new.length ≤ 1
  ordinal : s'.ordinal = s.ordinal ∨ s'.ordinal = (s.ordinal + 1) % 2 ^ 32
  records : recorded = false ∧ s'.plan.records = s.plan.records ∨
    recorded = true ∧ s'.ordinal = (s.ordinal + 1) % 2 ^ 32 ∧ ∃ r : AoScanfRecord,
      s'.plan.records = s.plan.records ++ [r] ∧ r.ordinal = s'.ordinal ∧ r.slot ≠ 0 ∧
      (∃ k ∈ s'.taken, r.slot = env.args k) ∧ r.Sized

variable {env : Env} {charMode : AoRehomeMode} {s s' : Scan} {used used' : ℕ} {recorded : Bool}
  {p q : List ℤ}

theorem planned_start (env : Env) : Planned env 0 startScan :=
  ⟨.nil, fun _ h => (nomatch h), fun _ h => (nomatch h), fun _ h => (nomatch h), le_rfl, le_rfl,
    le_rfl⟩

theorem Planned.mono (h : Planned env used s) (hle : used ≤ used') : Planned env used' s :=
  ⟨h.sorted, h.numbered, h.slots, h.sized, h.few.trans hle, h.conversions.trans hle,
    h.arguments.trans hle⟩

theorem Planned.change (h : Planned env used s) (hc : Change env s recorded s')
    (hle : used + (if recorded then 3 else 2) ≤ used') (hsmall : used' < 2 ^ 32) :
    Planned env used' s' := by
  obtain ⟨new, htaken, hnew⟩ := hc.taken
  have hfew := h.few
  have hconversions := h.conversions
  have harguments := h.arguments
  have htwo : used + 2 ≤ used' := by
    split at hle <;> omega
  have hnext : (s.ordinal + 1) % 2 ^ 32 = s.ordinal + 1 := Nat.mod_eq_of_lt (by omega)
  have hordinal := hc.ordinal
  rw [hnext] at hordinal
  have hlonger : 2 * s'.taken.length ≤ used' := by
    rw [htaken, List.length_append]
    omega
  have hold {r : AoScanfRecord} (hr : r ∈ s.plan.records) :
      (1 ≤ r.ordinal ∧ r.ordinal ≤ s'.ordinal) ∧ r.slot ≠ 0 ∧ ∃ k ∈ s'.taken, r.slot = env.args k := by
    obtain ⟨hlow, hhigh⟩ := h.numbered r hr
    obtain ⟨hne, k, hk, hslot⟩ := h.slots r hr
    refine ⟨⟨hlow, by omega⟩, hne, k, ?_, hslot⟩
    rw [htaken]
    exact List.mem_append_left _ hk
  rcases hc.records with ⟨rfl, hrecords⟩ | ⟨rfl, hup, r, hrecords, hr, hne, hslot, hsized⟩
  · refine ⟨?_, ?_, ?_, ?_, ?_, by omega, hlonger⟩ <;> rw [hrecords]
    · exact h.sorted
    · exact fun r hr => (hold hr).1
    · exact fun r hr => (hold hr).2
    · exact h.sized
    · omega
  · rw [hnext] at hup
    have hall {C : AoScanfRecord → Prop} (hC : ∀ a ∈ s.plan.records, C a) (hCr : C r) :
        ∀ a ∈ s.plan.records ++ [r], C a := by
      intro a ha
      rcases List.mem_append.mp ha with ha | ha
      · exact hC a ha
      · rwa [List.mem_singleton.mp ha]
    refine ⟨?_, ?_, ?_, ?_, ?_, by omega, hlonger⟩ <;> rw [hrecords]
    · refine List.pairwise_append.mpr ⟨h.sorted, List.pairwise_singleton .., fun a ha b hb => ?_⟩
      obtain ⟨-, hhigh⟩ := h.numbered a ha
      rw [List.mem_singleton.mp hb]
      omega
    · exact hall (fun r hr => (hold hr).1) (by omega)
    · exact hall (fun r hr => (hold hr).2) ⟨hne, hslot⟩
    · exact hall h.sized hsized
    · rw [List.length_append, List.length_singleton]
      simp only [ite_true] at hle
      omega

/-! ### One conversion -/

/-- A record names the argument that the conversion took. -/
theorem recordMConversion_change {grow : ℕ → Bool} {plan plan' : AoScanfPlan}
    {dest ordinal width : ℕ} {size : AoSize} {spec : ℤ}
    (h : recordMConversion charMode grow plan dest ordinal size spec (effectiveWidth spec width) =
      (true, plan')) :
    plan'.records = plan.records ∨ ∃ r : AoScanfRecord, plan'.records = plan.records ++ [r] ∧
      r.ordinal = ordinal ∧ r.slot = dest ∧ dest ≠ 0 ∧ r.Sized := by
  unfold recordMConversion at h
  split at h
  · cases h
    exact Or.inl rfl
  · rename_i hdest
    dsimp only at h
    generalize hrecord : AoScanfRecord.mk dest ordinal _ _ = r at h
    have hsized : r.Sized := by
      rw [← hrecord]
      intro hchar hwide
      dsimp only [effectiveWidth] at hchar hwide ⊢
      by_cases hc : spec = code 'c'
      · by_cases hz : width = 0
        · rw [if_pos ⟨hc, hz⟩]
          exact Nat.one_ne_zero
        · rwa [if_neg fun hcz => hz hcz.2]
      · rw [if_neg hc] at hchar hwide
        split at hwide
        · exact (hwide rfl).elim
        · rename_i hsize
          rw [if_neg hsize] at hchar
          exact (hchar rfl).elim
    refine Or.inr ⟨r, ?_, by rw [← hrecord], by rw [← hrecord], hdest, hsized⟩
    rcases plan_push_cases grow plan r with ⟨hfail, -⟩ | ⟨-, hpush⟩
    · rw [h] at hfail
      cases hfail
    · rw [h] at hpush
      exact hpush

/-- The specifier `c` is not `n`. -/
theorem string_not_n {spec : ℤ} (h : isStringSpec spec = true) : spec ≠ code 'n' := by
  rintro rfl
  revert h
  decide

theorem spec_result {t : Target} {width : ℕ} {alloc : Bool} {size : AoSize} {spec : ℤ}
    (h : specWchar charMode env s t width alloc size spec p = some (.more s' q)) :
    ∃ plan, (if alloc && !t.suppressed && isStringSpec spec then
        recordMConversion charMode env.grow s.plan t.dest ((s.ordinal + 1) % 2 ^ 32) size spec
          (effectiveWidth spec width)
      else (true, s.plan)) = (true, plan) ∧
      s' = { s with
        plan
        ordinal := if t.suppressed = false ∧ spec ≠ code 'n' then (s.ordinal + 1) % 2 ^ 32
          else s.ordinal } := by
  unfold specWchar at h
  dsimp only at h
  generalize (if (alloc && !t.suppressed && isStringSpec spec) = true then _ else _) = res at h ⊢
  obtain ⟨ok, plan⟩ := res
  cases ok with
  | false => cases h
  | true =>
    refine ⟨plan, rfl, ?_⟩
    rw [if_neg (by simp)] at h
    split at h
    · obtain ⟨q', -, heq⟩ := Option.bind_eq_some_iff.mp h
      exact (Next.more.inj (Option.some.inj heq)).1.symm
    · exact (Next.more.inj (Option.some.inj h)).1.symm

theorem spec_change {t : Target} {width ap : ℕ} {alloc : Bool} {size : AoSize} {spec : ℤ}
    (hlength : t.taken.length ≤ 1)
    (ht : t.suppressed = false → ∃ k ∈ t.taken, t.dest = env.args k)
    (h : specWchar charMode env { s with ap, taken := s.taken ++ t.taken } t width alloc size spec p =
      some (.more s' q)) :
    ∃ recorded, (recorded = true → alloc = true) ∧ Change env s recorded s' := by
  obtain ⟨plan, hplan, rfl⟩ := spec_result h
  have htaken : ∃ new, s.taken ++ t.taken = s.taken ++ new ∧ new.length ≤ 1 := ⟨_, rfl, hlength⟩
  by_cases hm : (alloc && !t.suppressed && isStringSpec spec) = true
  · rw [if_pos hm] at hplan
    simp only [Bool.and_eq_true, Bool.not_eq_true'] at hm
    obtain ⟨⟨halloc, htarget⟩, hstring⟩ := hm
    obtain ⟨k, hk, hdest⟩ := ht htarget
    rw [if_pos ⟨htarget, string_not_n hstring⟩]
    rcases recordMConversion_change hplan with hsame | ⟨r, hpush, hr, hslot, hne, hsized⟩
    · exact ⟨false, fun hf => (nomatch hf), htaken, Or.inr rfl, Or.inl ⟨rfl, hsame⟩⟩
    · refine ⟨true, fun _ => halloc, htaken, Or.inr rfl, Or.inr ⟨rfl, rfl, r, hpush, hr, ?_, ?_,
        hsized⟩⟩
      · rwa [hslot]
      · exact ⟨k, List.mem_append_right _ hk, by rw [hslot, hdest]⟩
  · rw [if_neg hm] at hplan
    cases hplan
    refine ⟨false, fun hf => (nomatch hf), htaken, ?_, Or.inl ⟨rfl, rfl⟩⟩
    dsimp only
    split
    · exact Or.inr rfl
    · exact Or.inl rfl

theorem spec_no_stop {t : Target} {width : ℕ} {alloc : Bool} {size : AoSize} {spec : ℤ} :
    specWchar charMode env s t width alloc size spec p ≠ some (.stop s') := by
  intro h
  unfold specWchar at h
  dsimp only at h
  generalize (if (alloc && !t.suppressed && isStringSpec spec) = true then _ else _) = res at h
  split at h
  · cases h
  · split at h
    · obtain ⟨q', -, heq⟩ := Option.bind_eq_some_iff.mp h
      cases heq
    · cases h

theorem spec_fails {t : Target} {width : ℕ} {alloc : Bool} {size : AoSize} {spec : ℤ}
    (h : specWchar charMode env s t width alloc size spec p = some (.fail s')) : s' = s := by
  unfold specWchar at h
  dsimp only at h
  generalize hres : (if (alloc && !t.suppressed && isStringSpec spec) = true then _ else _) = res at h
  obtain ⟨ok, plan⟩ := res
  have hplan (hok : ok = false) : plan = s.plan := by
    rw [hok] at hres
    split at hres
    · unfold recordMConversion at hres
      split at hres
      · cases hres
      · dsimp only at hres
        generalize AoScanfRecord.mk t.dest _ _ _ = r at hres
        rcases plan_push_cases env.grow s.plan r with ⟨hfail, -⟩ | ⟨hpush, -⟩
        · rw [hres] at hfail
          exact congrArg Prod.snd hfail
        · rw [hres] at hpush
          cases hpush
    · cases hres
  cases ok with
  | false =>
    cases h
    rw [hplan rfl]
  | true =>
    rw [if_neg (by simp)] at h
    split at h
    · obtain ⟨q', -, heq⟩ := Option.bind_eq_some_iff.mp h
      cases heq
    · cases h

/-- What the part before the width decides. -/
theorem target_dest {t : Target} (h : targetWchar env.args s.ap p = some (t, q)) :
    t.taken.length ≤ 1 ∧ (t.suppressed = false → ∃ k ∈ t.taken, t.dest = env.args k) := by
  obtain ⟨c, -, h⟩ := Option.bind_eq_some_iff.mp h
  split at h
  · cases h
    exact ⟨Nat.zero_le 1, fun hf => (nomatch hf)⟩
  · obtain ⟨⟨found, position, q'⟩, -, heq⟩ := Option.bind_eq_some_iff.mp h
    cases heq
    cases found
    · exact ⟨le_rfl, fun _ => ⟨s.ap, List.mem_singleton_self _, rfl⟩⟩
    · exact ⟨le_rfl, fun _ => ⟨_, List.mem_singleton_self _, rfl⟩⟩

/-- An iteration on a text of `n` characters behind the first one. -/
def Changes (env : Env) (s : Scan) (n : ℕ) : Next (List ℤ) → Prop
  | .more s' q => Terminated q ∧ ∃ recorded, Change env s recorded s' ∧
      q.length + (if recorded then 2 else 1) ≤ n
  | .stop s' => Change env s false s'
  | .fail s' => Change env s false s'

theorem alloc_shorter (h : allocWchar p = some (true, q)) : q.length + 1 ≤ p.length := by
  cases p with
  | nil => cases h
  | cons c p =>
    unfold allocWchar at h
    simp only [List.head?_cons, Option.bind_eq_bind, Option.bind_some, List.tail_cons] at h
    split at h <;> cases h
    rfl

theorem conversion_changes (hp : Terminated p) :
    ∃ next, conversionWchar charMode env s p = some next ∧ Changes env s p.length next := by
  obtain ⟨t, p1, h1, ht1, hle1⟩ := target_returns env.args s.ap hp
  obtain ⟨width, p2, h2, ht2, hle2⟩ := width_returns ht1
  obtain ⟨alloc, p3, h3, ht3, hle3⟩ := alloc_returns ht2
  obtain ⟨size, p4, h4, ht4, hle4⟩ := size_returns ht3
  obtain ⟨htaken, hdest⟩ := target_dest h1
  have hadv := conversion_advances charMode env s hp
  simp only [conversionWchar, h1, h2, h3, h4, Option.bind_eq_bind, Option.bind_some] at hadv ⊢
  have hstep : Change env s false { s with ap := t.ap, taken := s.taken ++ t.taken } :=
    ⟨⟨t.taken, rfl, htaken⟩, Or.inl rfl, Or.inl ⟨rfl, rfl⟩⟩
  cases p4 with
  | nil => exact (terminated_ne_nil ht4).elim
  | cons c p4 =>
    simp only [List.head?_cons, Option.bind_some, List.tail_cons] at hadv ⊢
    split
    · exact ⟨_, rfl, hstep⟩
    · rename_i hc
      rw [if_neg hc] at hadv
      have hshort := spec_advances charMode env { s with ap := t.ap, taken := s.taken ++ t.taken } t
        width alloc (foldSpec c size).2 (foldSpec c size).1 (terminated_tail ht4 hc)
      generalize hspec : specWchar _ _ _ _ _ _ _ _ _ = res at hadv hshort ⊢
      rcases res with _ | s' | s' | s'
      · exact hadv.elim
      · rename_i q
        obtain ⟨recorded, halloc, hchange⟩ := spec_change htaken hdest hspec
        refine ⟨_, rfl, hadv.1, recorded, hchange, ?_⟩
        have hrest := hshort.2
        rw [List.length_cons] at hle4
        cases recorded with
        | false =>
          simp only [Bool.false_eq_true, ite_false]
          omega
        | true =>
          rw [halloc rfl] at h3
          have hshorter := alloc_shorter h3
          simp only [ite_true]
          omega
      · exact (spec_no_stop hspec).elim
      · obtain rfl := spec_fails hspec
        exact ⟨_, rfl, hstep⟩

/-! ### The whole text -/

/-- At the end of the text or with a push that fails. -/
theorem scanLoop_planned {fuel : ℕ} (hp : Terminated p) (hs : Planned env used s)
    (hfuel : p.length ≤ fuel) (hsmall : used + p.length < 2 ^ 32) :
    ∃ code s', scanLoop charMode env fuel s p = some (code, s') ∧
      Planned env (used + p.length) s' := by
  induction fuel generalizing s p used with
  | zero =>
    have hnil : p = [] := List.eq_nil_of_length_eq_zero (Nat.le_zero.mp hfuel)
    subst hnil
    exact (terminated_ne_nil hp).elim
  | succ fuel ih =>
    cases p with
    | nil => exact (terminated_ne_nil hp).elim
    | cons c p =>
      rw [List.length_cons] at hfuel hsmall ⊢
      rw [scanLoop]
      split
      · exact ⟨_, _, rfl, hs.mono (Nat.le_add_right _ _)⟩
      · rename_i hc
        have ht := terminated_tail hp hc
        have hpos : 1 ≤ p.length := by
          cases p with
          | nil => exact (terminated_ne_nil ht).elim
          | cons d p => exact Nat.succ_le_succ (Nat.zero_le _)
        have hrest {s' : Scan} {q : List ℤ} {used' : ℕ} (hq : Terminated q)
            (hs' : Planned env used' s') (hle : used' + q.length ≤ used + (p.length + 1))
            (hlt : q.length ≤ p.length) : ∃ code s'', scanLoop charMode env fuel s' q = some (code, s'') ∧
              Planned env (used + (p.length + 1)) s'' := by
          obtain ⟨code, s'', hrun, hplanned⟩ := ih hq hs' (by omega) (by omega)
          exact ⟨code, s'', hrun, hplanned.mono hle⟩
        unfold iterationWchar
        by_cases hk : c ≠ code '%'
        · rw [if_pos hk]
          exact hrest ht hs (by omega) le_rfl
        · rw [if_neg hk]
          cases p with
          | nil => exact (terminated_ne_nil ht).elim
          | cons d p =>
            simp only [List.head?_cons, Option.bind_eq_bind, Option.bind_some, List.tail_cons]
            by_cases hd : d = code '%'
            · rw [if_pos hd]
              have hd0 : d ≠ 0 := by
                rw [hd]
                decide
              rw [List.length_cons] at hrest
              exact hrest (terminated_tail ht hd0) hs (by omega) (Nat.le_succ _)
            · rw [if_neg hd]
              obtain ⟨next, hnext, hchanges⟩ := @conversion_changes env charMode s _ ht
              rw [hnext]
              cases next with
              | more s' q =>
                obtain ⟨hq, recorded, hchange, hlength⟩ := hchanges
                have hq' : q.length ≤ (d :: p).length := by
                  split at hlength <;> omega
                have hs' : Planned env (used + ((d :: p).length + 1 - q.length)) s' := by
                  refine hs.change hchange ?_ (by omega)
                  cases recorded with
                  | false =>
                    simp only [Bool.false_eq_true, ite_false] at hlength ⊢
                    omega
                  | true =>
                    simp only [ite_true] at hlength ⊢
                    omega
                exact hrest hq hs' (by omega) hq'
              | stop s' => exact ⟨_, _, rfl, hs.change hchanges (by simp) (by omega)⟩
              | fail s' => exact ⟨_, _, rfl, hs.change hchanges (by simp) (by omega)⟩

/-! ### The records below a result -/

theorem takeWhile_sorted {rs : List AoScanfRecord} {matched : ℤ}
    (h : rs.Pairwise fun r r' => r.ordinal < r'.ordinal)
    (hint : ∀ r ∈ rs, toInt r.ordinal = r.ordinal) :
    rs.takeWhile (fun r => decide (toInt r.ordinal ≤ matched)) =
      rs.filter fun r => decide ((r.ordinal : ℤ) ≤ matched) := by
  induction rs with
  | nil => rfl
  | cons r rs ih =>
    obtain ⟨hlt, htail⟩ := List.pairwise_cons.mp h
    have hr := hint r (List.mem_cons_self ..)
    by_cases hle : (r.ordinal : ℤ) ≤ matched
    · rw [List.takeWhile_cons_of_pos (by simpa [hr] using hle),
        List.filter_cons_of_pos (by simpa using hle),
        ih htail fun a ha => hint a (List.mem_cons_of_mem _ ha)]
    · rw [List.takeWhile_cons_of_neg (by simpa [hr] using hle),
        List.filter_cons_of_neg (by simpa using hle), List.filter_eq_nil_iff.mpr]
      intro a ha
      have hgt := hlt a ha
      simp only [decide_eq_true_eq]
      omega

/-- The parser of the format's kind. -/
def Format.plan (env : Env) : Format → Option (ℤ × Scan)
  | .narrow text => aoParseScanfFormat env text
  | .wide text => aoParseWscanfFormat env text

theorem plan_scan (env : Env) (format : Format) :
    format.plan env = scanFormat format.charMode env format.text := by
  cases format with
  | narrow text => exact parseScanfFormat_eq env text
  | wide text => rfl

/-- Well formed or not, and whether or not the plan could be kept: the parser returns,
and the records that are rehomed are all those with a number up to the result. -/
theorem any_format_planned (env : Env) (format : Format) (hp : Terminated format.text)
    (hshort : format.text.length < 2 ^ 32) :
    ∃ code s, format.plan env = some (code, s) ∧ Planned env format.text.length s ∧
      ∀ P w matched, aoRehomeScanfPlan P w s.plan.records matched =
        (s.plan.records.filter fun r => decide ((r.ordinal : ℤ) ≤ matched)).foldlM
          (aoRehomeScanfRecord P) w := by
  obtain ⟨code, s, hrun, hplanned⟩ := @scanLoop_planned env format.charMode startScan 0 _ _ hp
    (planned_start env) le_rfl (by omega)
  rw [Nat.zero_add] at hplanned
  refine ⟨code, s, (plan_scan env format).trans hrun, hplanned, fun P w matched => ?_⟩
  rw [rehomePlan_takeWhile, takeWhile_sorted hplanned.sorted]
  intro r hr
  have hnumber := (hplanned.numbered r hr).2
  have hconversions := hplanned.conversions
  exact toInt_eq (by omega)

/-- A conversion that is suppressed, one with `m`, and one that the text cuts short. -/
theorem any_format_planned_cut :
    Terminated (Format.wide [37, 42, 100, 37, 109, 115, 37, 53, 0]).text ∧
    ∃ s, Format.plan ⟨fun k => k + 1, fun _ => true⟩ (.wide [37, 42, 100, 37, 109, 115, 37, 53, 0]) =
      some (0, s) ∧ s.plan.records = [⟨1, 1, .charString, 0⟩] ∧
      Planned ⟨fun k => k + 1, fun _ => true⟩ 9 s := by
  have hp : Terminated (Format.wide [37, 42, 100, 37, 109, 115, 37, 53, 0]).text :=
    @terminated_append [37, 42, 100, 37, 109, 115, 37, 53] (by decide)
  obtain ⟨code, s, hrun, hplanned, -⟩ := any_format_planned ⟨fun k => k + 1, fun _ => true⟩ _ hp
    (by decide)
  have heval : Format.plan ⟨fun k => k + 1, fun _ => true⟩
      (.wide [37, 42, 100, 37, 109, 115, 37, 53, 0]) =
      some (0, ⟨2, [0, 1], ⟨[⟨1, 1, .charString, 0⟩], 8⟩, 1⟩) := rfl
  rw [heval] at hrun
  cases hrun
  exact ⟨hp, _, heval, rfl, hplanned⟩

end LibcOverride.Scanf

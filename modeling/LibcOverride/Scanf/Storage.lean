import LibcOverride.Lib.Geometric
import LibcOverride.MockAllocator.Clients
import LibcOverride.Scanf.AnyFormat

/-!
# The array of a plan
(src/scanf_overrides.c:56-60, 127-152, 301-529)

The records of a plan lie in one block of the preloaded allocator, which doubles when
it is full and is given back when the wrapper returns. `none` is an access outside it.
-/

namespace LibcOverride.Scanf
open Word
open Clients (Op Uses)
open MockAllocator (State Ledger Loader BlockMap Placement Provided Served)

/-! ### The functions -/

/-- `ao_scanf_plan` with the heap behind `records`, and what it asked the allocator for. -/
structure Storage where
  heap : Heap (List AoScanfRecord)
  records : Option ℕ
  count : ℕ
  capacity : ℕ
  asked : List (Op ℕ)

/-- `ao_scanf_plan plan = {0}` -/
def Storage.start : Storage := ⟨⟨[]⟩, none, 0, 0, []⟩

def Storage.newCapacity (st : Storage) : ℕ := if st.capacity = 0 then 8 else mul st.capacity 2

/-- `plan->records[plan->count++] = record` -/
def Storage.put (st : Storage) (record : AoScanfRecord) : Option Storage :=
  st.records.bind fun p => (st.heap.copyIn p st.count [record]).map fun heap =>
    { st with heap, count := add st.count 1 }

/-- `ao_scanf_plan_push` with its array; `answer` is by size, as `grow` is. -/
def Storage.push (answer : ℕ → Heap.Answer AoScanfRecord) (st : Storage) (record : AoScanfRecord) :
    Option (Bool × Storage) :=
  if st.count = st.capacity then do
    let newCapacity := st.newCapacity
    let size := mul newCapacity sizeofRecord
    let (records, heap) ← st.heap.resize st.records size newCapacity (answer size)
    let request := .realloc st.records st.heap.next size records.isSome
    let st := { st with heap, asked := st.asked ++ [request] }
    match records with
    | none => some (false, st)
    | some p => ({ st with records := some p, capacity := newCapacity }.put record).map (true, ·)
  else (st.put record).map (true, ·)

/-- `ao_scanf_plan_reset` -/
def Storage.reset (st : Storage) : Option Storage := do
  let heap ← match st.records with
    | none => some st.heap
    | some p => st.heap.free p
  some { st with heap, records := none, count := 0, capacity := 0 }

/-- Pushes one after the other, up to the first that fails. -/
def pushAll (grow : ℕ → Bool) (plan : AoScanfPlan) : List AoScanfRecord → Bool × AoScanfPlan
  | [] => (true, plan)
  | r :: rs =>
    let pushed := aoScanfPlanPush grow plan r
    if pushed.1 = false then pushed else pushAll grow pushed.2 rs

def Storage.pushAll (answer : ℕ → Heap.Answer AoScanfRecord) (st : Storage) :
    List AoScanfRecord → Option (Bool × Storage)
  | [] => some (true, st)
  | r :: rs => do
    let (ok, st) ← st.push answer r
    if ok = false then some (false, st) else st.pushAll answer rs

variable {answer : ℕ → Heap.Answer AoScanfRecord} {grow : ℕ → Bool} {st st' st₁ : Storage}
  {plan plan' : AoScanfPlan} {r : AoScanfRecord} {rs rs' : List AoScanfRecord}
  {ops ops' : List (Op ℕ)}

/-! ### The plan in its array -/

/-- The array begins with the records of the plan, and is all that was allocated. -/
structure Storage.Keeps (st : Storage) (plan : AoScanfPlan) : Prop where
  count : st.count = plan.records.length
  capacity : st.capacity = plan.capacity
  room : st.count ≤ st.capacity
  tight : st.capacity ≤ 2 * st.count + 6
  least : st.capacity = 0 ∨ 8 ≤ st.capacity
  array : ∃ b, st.heap.Holds st.records b ∧ b.length = st.capacity ∧ b.take st.count = plan.records
  made : Heap.Since ⟨[]⟩ st.heap st.records.toList

/-- The size that the first array doubles. -/
def Storage.weight (st : Storage) : ℕ := max 4 st.capacity * sizeofRecord

/-- What was done to the allocator between the two. -/
structure Charged (st : Storage) (ops : List (Op ℕ)) (st' : Storage) : Prop where
  uses : Uses (Clients.sizes sizeofRecord st.heap) ops (Clients.sizes sizeofRecord st'.heap)
  asked : st'.asked = st.asked ++ ops
  grows : Geometric.Grows 1 1 st.weight (ops.filterMap Op.gives) st'.weight

theorem keeps_start : Storage.start.Keeps emptyPlan :=
  ⟨rfl, rfl, le_rfl, Nat.zero_le _, Or.inl rfl, ⟨[], .null rfl, rfl, rfl⟩, .refl _⟩

theorem charged_nothing (hheap : Clients.sizes sizeofRecord st'.heap = Clients.sizes sizeofRecord st.heap)
    (hasked : st'.asked = st.asked) (hcapacity : st'.capacity = st.capacity) : Charged st [] st' := by
  refine ⟨?_, ?_, ?_⟩
  · rw [hheap]
    exact .nil
  · rw [hasked, List.append_nil]
  · unfold Storage.weight
    rw [hcapacity]
    exact .stay

theorem Charged.trans (h : Charged st ops st₁) (h' : Charged st₁ ops' st') :
    Charged st (ops ++ ops') st' := by
  refine ⟨h.uses.append h'.uses, ?_, ?_⟩
  · rw [h'.asked, h.asked, List.append_assoc]
  · rw [List.filterMap_append]
    exact h.grows.append h'.grows

theorem put_keeps {p : ℕ} {b : List AoScanfRecord} (hp : st.records = some p)
    (hb : st.heap.read p = some b) (hlength : b.length = st.capacity) (hroom : st.count < st.capacity)
    (hsmall : st.count < 2 ^ 32) (htight : st.capacity ≤ 2 * (st.count + 1) + 6)
    (hleast : 8 ≤ st.capacity) (hcount : st.count = plan.records.length)
    (hfront : b.take st.count = plan.records)
    (hcapacity : st.capacity = plan'.capacity) (hrecords : plan'.records = plan.records ++ [r])
    (hmade : Heap.Since ⟨[]⟩ st.heap [p]) :
    ∃ st', st.put r = some st' ∧ st'.Keeps plan' ∧ Charged st [] st' := by
  have hfit : st.count + [r].length ≤ b.length := by
    rw [List.length_singleton, hlength]
    exact hroom
  have hcopy := Heap.copyIn_eq hb hfit
  have hnext : add st.count 1 = st.count + 1 := Nat.mod_eq_of_lt (by omega)
  refine ⟨{ st with heap := st.heap.store p (Buffer.overwritten b st.count [r]), count := st.count + 1 },
    ?_, ⟨?_, hcapacity, hroom, htight, Or.inr hleast, ?_, ?_⟩, ?_⟩
  · rw [Storage.put, hp, Option.bind_some, hcopy, Option.map_some, hnext]
  · rw [hrecords, List.length_append, List.length_singleton, hcount]
  · refine ⟨Buffer.overwritten b st.count [r], .block p _ hp ?_, ?_, ?_⟩
    · dsimp only
      rw [Heap.read_store, if_pos rfl, hb, Option.map_some]
    · rw [Buffer.length_overwritten hfit, hlength]
    · have hlen : (b.take st.count).length = st.count := List.length_take_of_le (by omega)
      dsimp only [Buffer.overwritten]
      rw [hrecords, ← hfront, ← List.append_assoc, List.take_append_of_le_length (by simp [hlen]),
        List.take_of_length_le (by simp)]
  · dsimp only
    rw [hp]
    exact hmade.store (List.mem_singleton_self p) _
  · exact charged_nothing (Clients.sizes_copyIn hcopy) rfl rfl

/-- A full array of `capacity` records gets room for as many more, or for eight. -/
theorem Storage.Keeps.doubles (h : st.Keeps plan) (hsmall : plan.records.length < 2 ^ 32)
    (hfull : st.count = st.capacity) :
    st.newCapacity = plan.newCapacity ∧ st.capacity < plan.newCapacity ∧ 8 ≤ plan.newCapacity ∧
      plan.newCapacity ≤ 2 * (st.count + 1) + 6 ∧ 2 * max 4 st.capacity ≤ plan.newCapacity ∧
      mul plan.newCapacity sizeofRecord = plan.newCapacity * sizeofRecord := by
  have hcount := h.count
  have hleast := h.least
  unfold Storage.newCapacity AoScanfPlan.newCapacity mul
  rw [← h.capacity]
  split
  · rename_i hz
    rw [hz]
    exact ⟨rfl, by decide, le_rfl, by omega, by decide, rfl⟩
  · have hdouble : st.capacity * 2 % 2 ^ 64 = st.capacity * 2 := Nat.mod_eq_of_lt (by omega)
    have hbytes : st.capacity * 2 * 24 < 2 ^ 64 := by omega
    exact ⟨hdouble, by omega, by omega, by omega, by omega, Nat.mod_eq_of_lt hbytes⟩

/-- A push that finds no room and gets none changes nothing, any other adds its record. -/
theorem push_keeps (h : st.Keeps plan) (hsmall : plan.records.length < 2 ^ 32)
    (hgrow : ∀ size, (answer size).grants size = grow size) (r : AoScanfRecord) :
    ∃ st' ops, st.push answer r = some ((aoScanfPlanPush grow plan r).1, st') ∧
      st'.Keeps (aoScanfPlanPush grow plan r).2 ∧ Charged st ops st' := by
  have hdoubles := h.doubles hsmall
  obtain ⟨hcount, hcapacity, hroom, htight, hleast, ⟨b, hholds, hlength, hfront⟩, hmade⟩ := h
  unfold Storage.push aoScanfPlanPush
  by_cases hfull : st.count = st.capacity
  · obtain ⟨hnew, hmore, height, hless, htwice, hsize⟩ := hdoubles hfull
    rw [if_pos hfull, if_pos (by omega)]
    obtain ⟨heap, hresize, hsince, hread⟩ := hmade.resize hholds (plan.newCapacity * sizeofRecord)
      plan.newCapacity (answer (plan.newCapacity * sizeofRecord))
    have hne : plan.newCapacity * sizeofRecord ≠ 0 := Nat.mul_ne_zero (by omega) (by decide)
    rw [hgrow] at hresize
    cases hgranted : grow (plan.newCapacity * sizeofRecord) with
    | false =>
      rw [hgranted, if_neg Bool.false_ne_true] at hresize
      have hstep := Clients.resize_step rfl hne hresize
      simp only [hnew, hsize, hresize, Option.bind_eq_bind, Option.bind_some]
      exact ⟨_, [_], rfl, ⟨hcount, hcapacity, hroom, htight, hleast, ⟨b, hholds, hlength, hfront⟩,
        hmade⟩, .one hstep, rfl, .stay⟩
    | true =>
      rw [hgranted, if_pos rfl] at hresize
      have hstep := Clients.resize_step rfl hne hresize
      simp only [hnew, hsize, hresize, Option.bind_eq_bind, Option.bind_some, Bool.true_eq_false,
        ite_false, Option.isSome_some]
      have hmore' : st.count < plan.newCapacity := by omega
      have hcount' : st.count < 2 ^ 32 := by omega
      have hfront' := Heap.take_resized (answer (plan.newCapacity * sizeofRecord)).junk
        (show st.count ≤ b.length by omega) hmore'.le
      generalize hop : Op.realloc st.records st.heap.next (plan.newCapacity * sizeofRecord) true = op
      rw [Option.isSome_some, hop] at hstep
      have hgrown : Charged st [op]
          ⟨heap, some st.heap.next, st.count, plan.newCapacity, st.asked ++ [op]⟩ := by
        refine ⟨.one hstep, rfl, ?_⟩
        have hweight : max 4 plan.newCapacity * sizeofRecord = plan.newCapacity * sizeofRecord := by
          rw [max_eq_right (by omega)]
        have hbytes : 2 * (max 4 st.capacity * 24) ≤ plan.newCapacity * 24 := by omega
        unfold Storage.weight
        rw [hweight, ← hop]
        exact .one (by simpa using hbytes)
      obtain ⟨st', hput, hkeeps', hcharged⟩ := @put_keeps
        ⟨heap, some st.heap.next, st.count, plan.newCapacity, st.asked ++ [op]⟩ plan
        ⟨plan.records ++ [r], plan.newCapacity⟩ r _ _ rfl hread (Heap.length_resized _ _ _) hmore'
        hcount' hless height hcount (hfront'.trans hfront) rfl rfl hsince
      exact ⟨st', _, by rw [hput, Option.map_some], hkeeps', hgrown.trans hcharged⟩
  · rw [if_neg hfull, if_neg (by omega)]
    cases hholds with
    | null hp => exact (hfull (by rw [List.length_nil] at hlength; omega)).elim
    | block p b hp hread =>
      rw [hp] at hmade
      obtain ⟨st', hput, hkeeps', hcharged⟩ := @put_keeps st plan
        { plan with records := plan.records ++ [r] } r p b hp hread hlength
        (by omega) (by omega) (by omega) (by omega) hcount hfront hcapacity rfl hmade
      exact ⟨st', [], by rw [hput, Option.map_some], hkeeps', hcharged⟩

theorem push_length (grow : ℕ → Bool) (plan : AoScanfPlan) (r : AoScanfRecord) :
    (aoScanfPlanPush grow plan r).2.records.length ≤ plan.records.length + 1 := by
  rcases plan_push_cases grow plan r with ⟨heq, -⟩ | ⟨-, hrecords⟩
  · rw [heq]
    exact Nat.le_succ _
  · rw [hrecords, List.length_append, List.length_singleton]

/-- However many records come, and whichever request is refused. -/
theorem pushAll_keeps (h : st.Keeps plan) (hsmall : plan.records.length + rs.length ≤ 2 ^ 32)
    (hgrow : ∀ size, (answer size).grants size = grow size) :
    ∃ st' ops, st.pushAll answer rs = some ((pushAll grow plan rs).1, st') ∧
      st'.Keeps (pushAll grow plan rs).2 ∧ Charged st ops st' := by
  induction rs generalizing st plan with
  | nil => exact ⟨st, [], rfl, h, charged_nothing rfl rfl rfl⟩
  | cons r rs ih =>
    rw [List.length_cons] at hsmall
    obtain ⟨st₁, ops, hpush, hkeeps, hcharged⟩ := push_keeps h (by omega) hgrow r
    have hlength := push_length grow plan r
    unfold Storage.pushAll pushAll
    simp only [hpush, Option.bind_eq_bind, Option.bind_some]
    split
    · rename_i hfail
      exact ⟨st₁, ops, by rw [hfail], hkeeps, hcharged⟩
    · obtain ⟨st', ops', hrest, hkeeps', hcharged'⟩ := ih hkeeps (by omega)
      exact ⟨st', ops ++ ops', hrest, hkeeps', hcharged.trans hcharged'⟩

/-- What the reset asks for. -/
def Storage.release (st : Storage) : List (Op ℕ) := st.records.toList.map .free

/-- The array goes back, and the plan may be used again. -/
theorem reset_nothing (h : st.Keeps plan) :
    ∃ st', st.reset = some st' ∧ st'.Keeps emptyPlan ∧
      Uses (Clients.sizes sizeofRecord st.heap) st.release fun _ => none := by
  obtain ⟨-, -, -, -, -, ⟨b, hholds, -, -⟩, hmade⟩ := h
  have hgone {heap : Heap (List AoScanfRecord)} (hs : Heap.Since ⟨[]⟩ heap []) :
      Clients.sizes sizeofRecord heap = fun _ => none := by
    funext p
    exact (Clients.since_sizes sizeofRecord hs p).2 List.not_mem_nil
  have hempty {heap : Heap (List AoScanfRecord)} (hs : Heap.Since ⟨[]⟩ heap []) (asked : List (Op ℕ)) :
      Storage.Keeps ⟨heap, none, 0, 0, asked⟩ emptyPlan :=
    ⟨rfl, rfl, le_rfl, Nat.zero_le _, Or.inl rfl, ⟨[], .null rfl, rfl, rfl⟩, hs⟩
  unfold Storage.reset Storage.release
  cases hholds with
  | null hp =>
    rw [hp] at hmade ⊢
    refine ⟨_, rfl, hempty hmade _, ?_⟩
    rw [hgone hmade]
    exact .nil
  | block p b hp hread =>
    rw [hp] at hmade ⊢
    have hfree := Heap.free_eq hread
    have hreleased : Heap.Since ⟨[]⟩ (st.heap.release p) [] := hmade.release List.not_mem_nil
    refine ⟨⟨st.heap.release p, none, 0, 0, st.asked⟩, ?_, hempty hreleased _, .one ?_⟩
    · simp only [hfree, Option.bind_eq_bind, Option.bind_some]
    · rw [← hgone hreleased]
      exact Clients.free_step hfree

/-! ### The pushes of the parser -/

theorem pushAll_cons (hpush : aoScanfPlanPush grow plan r = (true, plan')) (rs : List AoScanfRecord) :
    pushAll grow plan (r :: rs) = pushAll grow plan' rs := by
  rw [pushAll, hpush]
  rfl

theorem pushAll_first (h : pushAll grow plan (r :: rs) = (true, plan')) :
    ∃ plan₁, aoScanfPlanPush grow plan r = (true, plan₁) ∧ plan₁.records = plan.records ++ [r] ∧
      pushAll grow plan₁ rs = (true, plan') := by
  rcases plan_push_cases grow plan r with ⟨heq, -⟩ | ⟨hok, hrecords⟩
  · rw [pushAll, heq] at h
    cases h
  · have hpush : aoScanfPlanPush grow plan r = (true, (aoScanfPlanPush grow plan r).2) :=
      Prod.ext hok rfl
    rw [pushAll_cons hpush] at h
    exact ⟨_, hpush, hrecords, h⟩

theorem pushAll_append (h : pushAll grow plan rs = (true, plan')) (rs' : List AoScanfRecord) :
    pushAll grow plan (rs ++ rs') = pushAll grow plan' rs' := by
  induction rs generalizing plan with
  | nil =>
    cases h
    rfl
  | cons r rs ih =>
    obtain ⟨plan₁, hpush, -, hrest⟩ := pushAll_first h
    rw [List.cons_append, pushAll_cons hpush, ih hrest]

theorem pushAll_records (h : pushAll grow plan rs = (true, plan')) :
    plan'.records = plan.records ++ rs := by
  induction rs generalizing plan with
  | nil =>
    cases h
    exact (List.append_nil _).symm
  | cons r rs ih =>
    obtain ⟨plan₁, -, hrecords, hrest⟩ := pushAll_first h
    rw [ih hrest, hrecords, List.append_assoc, List.singleton_append]

/-- An iteration pushes records and goes on, or ends with a push that fails. -/
def Pushing (grow : ℕ → Bool) (plan : AoScanfPlan) : Next (List ℤ) → Prop
  | .more s _ => ∃ rs, pushAll grow plan rs = (true, s.plan)
  | .stop s => s.plan = plan
  | .fail s => s.plan = plan ∧ ∃ r, aoScanfPlanPush grow plan r = (false, plan)

variable {env : Env} {charMode : AoRehomeMode} {s s' : Scan} {p q : List ℤ}

theorem recordMConversion_pushes (charMode : AoRehomeMode) (grow : ℕ → Bool) (plan : AoScanfPlan)
    (dest ordinal width : ℕ) (size : AoSize) (spec : ℤ) :
    (∃ plan' rs, recordMConversion charMode grow plan dest ordinal size spec width = (true, plan') ∧
      pushAll grow plan rs = (true, plan')) ∨
    recordMConversion charMode grow plan dest ordinal size spec width = (false, plan) ∧
      ∃ r, aoScanfPlanPush grow plan r = (false, plan) := by
  unfold recordMConversion
  split
  · exact Or.inl ⟨plan, [], rfl, rfl⟩
  · dsimp only
    generalize AoScanfRecord.mk dest ordinal _ width = r
    cases hok : (aoScanfPlanPush grow plan r).1 with
    | true =>
      have hpush : aoScanfPlanPush grow plan r = (true, (aoScanfPlanPush grow plan r).2) :=
        Prod.ext hok rfl
      exact Or.inl ⟨_, [r], hpush, pushAll_cons hpush []⟩
    | false =>
      right
      rcases plan_push_cases grow plan r with ⟨heq, -⟩ | ⟨htrue, -⟩
      · exact ⟨heq, r, heq⟩
      · rw [hok] at htrue
        cases htrue

theorem spec_pushes {t : Target} {width : ℕ} {alloc : Bool} {size : AoSize} {spec : ℤ}
    {next : Next (List ℤ)} (h : specWchar charMode env s t width alloc size spec p = some next) :
    Pushing env.grow s.plan next := by
  have hrecord := recordMConversion_pushes charMode env.grow s.plan t.dest
    ((s.ordinal + 1) % 2 ^ 32) (effectiveWidth spec width) size spec
  unfold specWchar at h
  dsimp only at h
  generalize hres : (if (alloc && !t.suppressed && isStringSpec spec) = true then _ else _) = res at h
  obtain ⟨ok, plan⟩ := res
  cases ok with
  | false =>
    cases h
    split at hres
    · rcases hrecord with ⟨plan', rs, heq, -⟩ | ⟨heq, hfails⟩
      · rw [hres] at heq
        cases heq
      · rw [hres] at heq
        cases heq
        exact ⟨rfl, hfails⟩
    · cases hres
  | true =>
    have hpushed : ∃ rs, pushAll env.grow s.plan rs = (true, plan) := by
      split at hres
      · rcases hrecord with ⟨plan', rs, heq, hpush⟩ | ⟨heq, -⟩
        · rw [hres] at heq
          cases heq
          exact ⟨rs, hpush⟩
        · rw [hres] at heq
          cases heq
      · cases hres
        exact ⟨[], rfl⟩
    rw [if_neg (by simp)] at h
    split at h
    · obtain ⟨q', -, heq⟩ := Option.bind_eq_some_iff.mp h
      cases heq
      exact hpushed
    · cases h
      exact hpushed

theorem conversion_pushes {next : Next (List ℤ)} (h : conversionWchar charMode env s p = some next) :
    Pushing env.grow s.plan next := by
  obtain ⟨⟨t, p₁⟩, -, h⟩ := Option.bind_eq_some_iff.mp h
  obtain ⟨⟨width, p₂⟩, -, h⟩ := Option.bind_eq_some_iff.mp h
  obtain ⟨⟨alloc, p₃⟩, -, h⟩ := Option.bind_eq_some_iff.mp h
  obtain ⟨⟨size, p₄⟩, -, h⟩ := Option.bind_eq_some_iff.mp h
  obtain ⟨c, -, h⟩ := Option.bind_eq_some_iff.mp h
  dsimp only at h
  split at h
  · cases h
    rfl
  · have hpushing := spec_pushes h
    exact hpushing

theorem iteration_pushes {c : ℤ} {next : Next (List ℤ)}
    (h : iterationWchar charMode env s c p = some next) : Pushing env.grow s.plan next := by
  unfold iterationWchar at h
  split at h
  · cases h
    exact ⟨[], rfl⟩
  · obtain ⟨d, -, h⟩ := Option.bind_eq_some_iff.mp h
    split at h
    · cases h
      exact ⟨[], rfl⟩
    · exact conversion_pushes h

/-- What the parser pushes: records that all go in, and behind them the one that does
not, if it returns -1. -/
inductive Pushes (grow : ℕ → Bool) (plan plan' : AoScanfPlan) : ℤ → List AoScanfRecord → Prop
  | all {rs : List AoScanfRecord} (h : pushAll grow plan rs = (true, plan')) : Pushes grow plan plan' 0 rs
  | refused {rs : List AoScanfRecord} {r : AoScanfRecord} (h : pushAll grow plan rs = (true, plan'))
      (hr : aoScanfPlanPush grow plan' r = (false, plan')) : Pushes grow plan plan' (-1) (rs ++ [r])

theorem Pushes.after {code : ℤ} {plan₁ : AoScanfPlan} (h : pushAll grow plan rs = (true, plan₁))
    (h' : Pushes grow plan₁ plan' code rs') : Pushes grow plan plan' code (rs ++ rs') := by
  cases h' with
  | all h' => exact .all ((pushAll_append h rs').trans h')
  | refused h' hr =>
    rw [← List.append_assoc]
    exact .refused ((pushAll_append h _).trans h') hr

theorem scanLoop_pushes {fuel : ℕ} {code : ℤ}
    (h : scanLoop charMode env fuel s p = some (code, s')) :
    ∃ rs, Pushes env.grow s.plan s'.plan code rs := by
  induction fuel generalizing s p with
  | zero => cases h
  | succ fuel ih =>
    cases p with
    | nil => cases h
    | cons c p =>
      rw [scanLoop] at h
      split at h
      · cases h
        exact ⟨[], .all rfl⟩
      · cases hnext : iterationWchar charMode env s c p with
        | none =>
          rw [hnext] at h
          cases h
        | some next =>
          rw [hnext] at h
          have hpushing := iteration_pushes hnext
          cases next with
          | more s₁ q =>
            obtain ⟨rs, hpush⟩ := hpushing
            obtain ⟨rs', hrest⟩ := ih h
            exact ⟨rs ++ rs', .after hpush hrest⟩
          | stop s₁ =>
            cases h
            have hplan : s'.plan = s.plan := hpushing
            rw [hplan]
            exact ⟨[], .all rfl⟩
          | fail s₁ =>
            cases h
            obtain ⟨hplan, r, hr⟩ := hpushing
            rw [hplan]
            have hnone : pushAll env.grow s.plan [] = (true, s.plan) := rfl
            exact ⟨[r], .refused hnone hr⟩

theorem Pushes.run {code : ℤ} (h : Pushes grow plan plan' code rs) :
    pushAll grow plan rs = (decide (code = 0), plan') := by
  cases h with
  | all h => exact h
  | refused h hr =>
    rw [pushAll_append h, pushAll, hr]
    rfl

theorem Pushes.records {code : ℤ} (h : Pushes grow plan plan' code rs) :
    ∃ last, plan.records ++ rs = plan'.records ++ last ∧ last.length ≤ 1 := by
  cases h with
  | all h => exact ⟨[], by rw [pushAll_records h, List.append_nil], Nat.zero_le _⟩
  | @refused rs r h hr => exact ⟨[r], by rw [pushAll_records h, List.append_assoc], le_rfl⟩

/-! ### The plan of a format -/

/-- The pushes of a parse stay in the array, with these requests. -/
theorem parse_stored {env : Env} {format : Format} (ht : Terminated format.text)
    (hshort : format.text.length < 2 ^ 32)
    (hanswer : ∀ size, (answer size).grants size = env.grow size) {code : ℤ} {sc : Scan}
    (hplan : format.plan env = some (code, sc)) (hpushes : Pushes env.grow emptyPlan sc.plan code rs) :
    ∃ st, Storage.start.pushAll answer rs = some (decide (code = 0), st) ∧ st.Keeps sc.plan ∧
      Charged .start st.asked st := by
  obtain ⟨code', sc', hplan', hplanned, -⟩ := any_format_planned env format ht hshort
  rw [hplan] at hplan'
  cases hplan'
  obtain ⟨last, hrecords, hlast⟩ := hpushes.records
  have hfew := hplanned.few
  have hlength := congrArg List.length hrecords
  simp only [emptyPlan, List.nil_append, List.length_append] at hlength
  obtain ⟨st, ops, hstore, hkeeps, hcharged⟩ := pushAll_keeps keeps_start
    (show 0 + rs.length ≤ 2 ^ 32 by omega) hanswer
  rw [hpushes.run] at hstore hkeeps
  have hasked : st.asked = ops := hcharged.asked
  rw [← hasked] at hcharged
  exact ⟨st, hstore, hkeeps, hcharged⟩

theorem parse_pushes {env : Env} {format : Format} {code : ℤ} {sc : Scan}
    (hplan : format.plan env = some (code, sc)) :
    ∃ rs, Pushes env.grow emptyPlan sc.plan code rs := by
  rw [plan_scan] at hplan
  exact scanLoop_pushes hplan

/-- All arrays that were granted, together. -/
theorem Charged.granted_le (h : Charged .start ops st) (hk : st.Keeps plan) :
    (ops.filterMap Op.gives).sum ≤ 4 * (plan.records.length + 1) * sizeofRecord := by
  have hsum := h.grows.sum
  have htight := hk.tight
  have hcount := hk.count
  simp only [Storage.weight, Storage.start, sizeofRecord] at hsum ⊢
  omega

/-- Whatever the format and whichever request is refused: the pushes stay in the array,
which begins with the records of the plan and is never more than some of them need; the
allocator serves all of its sizes and takes the last one back. -/
theorem plan_stored {ld : Loader} (P : Placement) {others : BlockMap} {place : ℕ → ℕ} {s : State}
    {L : Ledger} (hp : Provided others (fun _ => none) place s L) (env : Env) {format : Format}
    (ht : Terminated format.text) (hshort : format.text.length < 2 ^ 32)
    (hanswer : ∀ size, (answer size).grants size = env.grow size) :
    ∃ code sc rs st st' out, format.plan env = some (code, sc) ∧
      Pushes env.grow emptyPlan sc.plan code rs ∧
      Storage.start.pushAll answer rs = some (decide (code = 0), st) ∧ st.Keeps sc.plan ∧
      st.reset = some st' ∧ st'.Keeps emptyPlan ∧
      (st.asked.filterMap Op.gives).sum ≤ 4 * (sc.plan.records.length + 1) * sizeofRecord ∧
      Served ld P place s L (st.asked ++ st.release) out ∧
      ∀ place' s' L', out = some (place', s', L') → L'.map = others := by
  obtain ⟨code, sc, hplan, -⟩ := any_format_planned env format ht hshort
  obtain ⟨rs, hpushes⟩ := parse_pushes hplan
  obtain ⟨st, hstore, hkeeps, hcharged⟩ := parse_stored ht hshort hanswer hplan hpushes
  obtain ⟨st', hreset, hempty, hrelease⟩ := reset_nothing hkeeps
  obtain ⟨out, hserved, hout⟩ := MockAllocator.uses_served ld P hp (hcharged.uses.append hrelease)
  refine ⟨code, sc, rs, st, st', out, hplan, hpushes, hstore, hkeeps, hreset, hempty,
    hcharged.granted_le hkeeps, hserved, fun place' s' L' heq => ?_⟩
  have hp' := hout place' s' L' heq
  exact funext fun q => hp'.laid.rest q fun k hk => (hk rfl).elim

/-- Nine times `%ms`. -/
def nineText : List ℤ := (List.replicate 9 [37, 109, 115]).flatten ++ [0]

/-- Room for eight records is granted, and for sixteen refused. -/
def eightAnswer (size : ℕ) : Heap.Answer AoScanfRecord :=
  ⟨decide (size = 192), fun _ => ⟨0, 0, .charString, 0⟩⟩

theorem plan_stored_nine : ∃ sc st out,
    Format.plan ⟨fun k => k + 1, fun size => (eightAnswer size).grants size⟩ (.wide nineText) =
      some (-1, sc) ∧ sc.plan.records.length = 8 ∧ Storage.Keeps st sc.plan ∧
    Served MockAllocator.sampleLoader MockAllocator.Placement.behind (fun _ => 0)
      (MockAllocator.initState MockAllocator.sampleBootstrap ∅) Ledger.empty (st.asked ++ st.release)
      out ∧
    ∀ place' s' L', out = some (place', s', L') → L'.map = Ledger.empty.map := by
  have ht : Terminated (Format.wide nineText).text :=
    @terminated_append (List.replicate 9 [37, 109, 115]).flatten (by decide)
  have hp := MockAllocator.provided_nothing
    (MockAllocator.tracks_start MockAllocator.sampleBootstrap ∅ (by simp)) (fun _ : ℕ => 0)
  obtain ⟨code, sc, rs, st, st', out, hplan, -, -, hkeeps, -, -, -, hserved, hback⟩ :=
    @plan_stored eightAnswer MockAllocator.sampleLoader
      MockAllocator.Placement.behind _ _ _ _ hp
      ⟨fun k => k + 1, fun size => (eightAnswer size).grants size⟩ _ ht (by decide) (fun _ => rfl)
  obtain ⟨sc', heval, hlength⟩ : ∃ sc', Format.plan ⟨fun k => k + 1,
      fun size => (eightAnswer size).grants size⟩ (.wide nineText) = some (-1, sc') ∧
      sc'.plan.records.length = 8 := ⟨_, rfl, rfl⟩
  rw [heval] at hplan
  cases hplan
  exact ⟨_, st, out, heval, hlength, hkeeps, hserved, hback⟩

end LibcOverride.Scanf

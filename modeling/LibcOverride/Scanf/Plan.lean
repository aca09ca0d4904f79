import LibcOverride.Lib.Word
import Mathlib.Data.Int.Bitwise

/-!
# Rehome records and the plan that collects them
(src/scanf_overrides.c:37-61, 127-152, 221-234, 301-353)

Pointers are naturals and NULL is 0. A variable argument list is the function
of its positions; `ap` is the position that `va_arg` reads next.
-/

namespace LibcOverride.Scanf
open Word

/-- A character constant of the source, as the integer it is promoted to. -/
abbrev code (c : Char) : ℤ := c.toNat

inductive AoSize where
  | sizeDef
  | sizeL
  deriving Repr, DecidableEq

inductive AoRehomeMode where
  | charString
  | wideString
  | charCount
  | wideCount
  | unsupportedWideCharCount
  deriving Repr, DecidableEq

structure AoScanfRecord where
  slot : ℕ
  ordinal : ℕ
  mode : AoRehomeMode
  width : ℕ
  deriving Repr, DecidableEq

/-- `count` is the length of `records`. -/
structure AoScanfPlan where
  records : List AoScanfRecord
  capacity : ℕ
  deriving Repr, DecidableEq

def emptyPlan : AoScanfPlan := ⟨[], 0⟩

/-- `sizeof(ao_scanf_record)`: a pointer, two 32-bit fields and a `size_t`. -/
abbrev sizeofRecord : ℕ := 24

def AoScanfPlan.newCapacity (plan : AoScanfPlan) : ℕ :=
  if plan.capacity = 0 then 8 else plan.capacity * 2

/-- `grow` says for each size whether `realloc` to it succeeds; the sizes that
one plan asks for all differ. -/
def aoScanfPlanPush (grow : ℕ → Bool) (plan : AoScanfPlan) (record : AoScanfRecord) :
    Bool × AoScanfPlan :=
  if plan.records.length = plan.capacity then
    if grow (plan.newCapacity * sizeofRecord) = false then (false, plan)
    else (true, ⟨plan.records ++ [record], plan.newCapacity⟩)
  else (true, { plan with records := plan.records ++ [record] })

/-- A push fails only with its `realloc`, and then changes nothing. -/
theorem plan_push_cases (grow : ℕ → Bool) (plan : AoScanfPlan) (record : AoScanfRecord) :
    (aoScanfPlanPush grow plan record = (false, plan) ∧ plan.records.length = plan.capacity ∧
      grow (plan.newCapacity * sizeofRecord) = false) ∨
    ((aoScanfPlanPush grow plan record).1 = true ∧
      (aoScanfPlanPush grow plan record).2.records = plan.records ++ [record]) := by
  unfold aoScanfPlanPush
  by_cases hfull : plan.records.length = plan.capacity
  · by_cases hgrow : grow (plan.newCapacity * sizeofRecord) = false
    · rw [if_pos hfull, if_pos hgrow]
      exact Or.inl ⟨rfl, hfull, hgrow⟩
    · rw [if_pos hfull, if_neg hgrow]
      exact Or.inr ⟨rfl, rfl⟩
  · rw [if_neg hfull]
    exact Or.inr ⟨rfl, rfl⟩

/-! ### The sizes that a plan asks for -/

/-- The sizes that are asked for until the plan has `n` records: room for eight, and twice
as much whenever it is full. -/
def PlanAsks (n size : ℕ) : Prop :=
  0 < n ∧ size = 8 * sizeofRecord ∨ ∃ i, 8 * 2 ^ i < n ∧ size = 8 * 2 ^ (i + 1) * sizeofRecord

/-- One of them is refused. -/
def PlanRefused (grow : ℕ → Bool) (n : ℕ) : Prop := ∃ size, PlanAsks n size ∧ grow size = false

theorem PlanRefused.mono {grow : ℕ → Bool} {n n' : ℕ} (h : PlanRefused grow n) (hle : n ≤ n') :
    PlanRefused grow n' := by
  obtain ⟨size, ⟨hpos, hsize⟩ | ⟨i, hi, hsize⟩, hgrow⟩ := h
  · exact ⟨size, Or.inl ⟨by omega, hsize⟩, hgrow⟩
  · exact ⟨size, Or.inr ⟨i, by omega, hsize⟩, hgrow⟩

/-- An array that was doubled from eight. -/
def AoScanfPlan.Doubled (plan : AoScanfPlan) : Prop :=
  plan = emptyPlan ∨ ∃ i, plan.capacity = 8 * 2 ^ i ∧ plan.records.length ≤ plan.capacity

theorem doubled_full {plan : AoScanfPlan} (h : plan.Doubled)
    (hfull : plan.records.length = plan.capacity) :
    PlanAsks (plan.records.length + 1) (plan.newCapacity * sizeofRecord) ∧
      ∃ i, plan.newCapacity = 8 * 2 ^ i ∧ plan.records.length + 1 ≤ plan.newCapacity := by
  rcases h with rfl | ⟨i, hcapacity, -⟩
  · exact ⟨Or.inl ⟨Nat.one_pos, rfl⟩, 0, rfl, by decide⟩
  · have hpos : 0 < 2 ^ i := Nat.two_pow_pos i
    have hnew : plan.newCapacity = 8 * 2 ^ (i + 1) := by
      rw [AoScanfPlan.newCapacity, if_neg (by omega), hcapacity, pow_succ, Nat.mul_assoc]
    refine ⟨Or.inr ⟨i, by omega, by rw [hnew]⟩, i + 1, hnew, ?_⟩
    rw [hnew, hfull, hcapacity, pow_succ]
    omega

/-- A push that fails was refused a size that the plan asks for. -/
theorem doubled_push {plan : AoScanfPlan} (grow : ℕ → Bool) (h : plan.Doubled)
    (record : AoScanfRecord) :
    (aoScanfPlanPush grow plan record = (false, plan) ∧
      PlanRefused grow (plan.records.length + 1)) ∨
    ((aoScanfPlanPush grow plan record).1 = true ∧ (aoScanfPlanPush grow plan record).2.Doubled ∧
      (aoScanfPlanPush grow plan record).2.records = plan.records ++ [record]) := by
  rcases plan_push_cases grow plan record with ⟨heq, hfull, hgrow⟩ | ⟨hok, hrecords⟩
  · exact Or.inl ⟨heq, _, (doubled_full h hfull).1, hgrow⟩
  · refine Or.inr ⟨hok, Or.inr ?_, hrecords⟩
    rw [hrecords, List.length_append, List.length_singleton]
    unfold aoScanfPlanPush at hok ⊢
    by_cases hfull : plan.records.length = plan.capacity
    · rw [if_pos hfull] at hok ⊢
      by_cases hgrow : grow (plan.newCapacity * sizeofRecord) = false
      · rw [if_pos hgrow] at hok
        cases hok
      · rw [if_neg hgrow]
        exact (doubled_full h hfull).2
    · rw [if_neg hfull]
      rcases h with rfl | ⟨i, hcapacity, hle⟩
      · exact (hfull rfl).elim
      · exact ⟨i, hcapacity, by dsimp only; omega⟩

/-- The two `ao_record_*_m_conversion` functions, which differ in the mode of a
`c` without `l`. -/
def recordMConversion (charMode : AoRehomeMode) (grow : ℕ → Bool) (plan : AoScanfPlan)
    (dest ordinal : ℕ) (size : AoSize) (spec : ℤ) (width : ℕ) : Bool × AoScanfPlan :=
  if dest = 0 then (true, plan)
  else
    let mode :=
      if spec = code 'c' then if size = .sizeL then AoRehomeMode.wideCount else charMode
      else if size = .sizeL then .wideString else .charString
    aoScanfPlanPush grow plan ⟨dest, ordinal, mode, width⟩

def aoRecordNarrowMConversion := recordMConversion .charCount

def aoRecordWideMConversion := recordMConversion .unsupportedWideCharCount

/-! ### Argument lists and what crosses iterations -/

/-- Arguments, and whether each `realloc` of the plan succeeds. -/
structure Env where
  args : ℕ → ℕ
  grow : ℕ → Bool

/-- `ao_arg_n` on a copy of the list: `n - 1` arguments are passed over. -/
def aoArgN (args : ℕ → ℕ) (ap n : ℕ) : ℕ := args (ap + (n - 1))

/-- What the part of a conversion before its width decides. -/
structure Target where
  suppressed : Bool
  dest : ℕ
  ap : ℕ
  taken : List ℕ
  deriving Repr, DecidableEq

def Target.suppress (ap : ℕ) : Target := ⟨true, 0, ap, []⟩

def Target.nth (args : ℕ → ℕ) (ap n : ℕ) : Target := ⟨false, aoArgN args ap n, ap, [ap + (n - 1)]⟩

def Target.next (args : ℕ → ℕ) (ap : ℕ) : Target := ⟨false, args ap, ap + 1, [ap]⟩

/-- The local variables that live across iterations; `taken` lists the
positions of the arguments read so far. -/
structure Scan where
  ap : ℕ
  taken : List ℕ
  plan : AoScanfPlan
  ordinal : ℕ
  deriving Repr, DecidableEq

def startScan : Scan := ⟨0, [], emptyPlan, 0⟩

/-- The end of an iteration: the next one at a new cursor, `break`, or
`return -1`. -/
inductive Next (α : Type) where
  | more (s : Scan) (p : α)
  | stop (s : Scan)
  | fail (s : Scan)
  deriving Repr, DecidableEq

def Next.map {α β : Type} (f : α → β) : Next α → Next β
  | .more s p => .more s (f p)
  | .stop s => .stop s
  | .fail s => .fail s

/-! ### Expressions on promoted characters -/

/-- The test for `C` and `S`, which stand for `lc` and `ls`. -/
def foldSpec (spec : ℤ) (size : AoSize) : ℤ × AoSize :=
  if Int.land spec 0x2f = 3 then (Int.lor spec 32, .sizeL) else (spec, size)

/-- The value of a width with one more digit; it stays at `SIZE_MAX` once it
could overflow. -/
def widthStep (width : ℕ) (digit : ℤ) : ℕ :=
  if width > (sizeMax - 9) / 10 then sizeMax else width * 10 + (digit - code '0').toNat

/-- A position is an `unsigned int`. -/
def positionStep (value : ℕ) (digit : ℤ) : ℕ := (value * 10 + (digit - code '0').toNat) % 2 ^ 32

/-- A specifier whose result `m` allocates. -/
def isStringSpec (spec : ℤ) : Bool :=
  decide (spec = code 's' ∨ spec = code 'c' ∨ spec = code '[')

def effectiveWidth (spec : ℤ) (width : ℕ) : ℕ := if spec = code 'c' ∧ width = 0 then 1 else width

/-- One step of a refinement proof: two computations go on from results that
differ by `f`. -/
theorem bind_refines {α β γ δ : Type} {x : Option α} {f : α → β} {g : β → Option γ}
    {h : α → Option δ} {k : δ → γ} (hgh : ∀ a, g (f a) = (h a).map k) :
    (x.map f).bind g = (x.bind h).map k := by
  cases x with
  | none => rfl
  | some a => exact hgh a

theorem bind_refines_same {α γ δ : Type} {x : Option α} {g : α → Option γ} {h : α → Option δ}
    {k : δ → γ} (hgh : ∀ a, g a = (h a).map k) : x.bind g = (x.bind h).map k := by
  cases x with
  | none => rfl
  | some a => exact hgh a

end LibcOverride.Scanf

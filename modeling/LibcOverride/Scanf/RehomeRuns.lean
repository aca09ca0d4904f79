import LibcOverride.Scanf.EndToEnd
import Mathlib.Data.List.Nodup

/-!
# Rehoming of any records
(src/scanf_overrides.c:531-752)

What the loop does where slots and records may coincide, as long as each slot that
the scanner assigned is NULL or holds a block that can be copied.
-/

namespace LibcOverride.Scanf
open Word

variable {P : Process} {m : Memory} {w w' : World} {r : AoScanfRecord} {rs : List AoScanfRecord}

/-! ### What a record leads to -/

/-- One record with its events. -/
inductive Rehoming (P : Process) (w : World) (r : AoScanfRecord) : List Event → World → Prop
  | skipped : Rehoming P w r [.readSlot r.slot] (w.log (.readSlot r.slot))
  | failed (len : ℕ) (content : List UInt8) (h : P.answer w.memory len = 0) :
      Rehoming P w r [.readSlot r.slot, .malloc len 0]
        (cloned P (w.log (.readSlot r.slot)) len content)
  | moved (len : ℕ) (content : List UInt8) (hlive : w.memory.blocks (w.memory.slots r.slot) ≠ none)
      (hown : w.memory.owned (w.memory.slots r.slot) = false) (h : P.answer w.memory len ≠ 0) :
      Rehoming P w r [.readSlot r.slot, .malloc len (P.answer w.memory len),
          .writeSlot r.slot (P.answer w.memory len), .libcFree (w.memory.slots r.slot)]
        (bridgeLibcFree (aoStorePointerSlot (cloned P (w.log (.readSlot r.slot)) len content) r.slot
          (P.answer w.memory len)) (w.memory.slots r.slot))

inductive RehomingAll (P : Process) : World → List AoScanfRecord → List Event → World → Prop
  | nil (w : World) : RehomingAll P w [] [] w
  | cons {w w₁ w₂ : World} {r : AoScanfRecord} {rs : List AoScanfRecord} {es es' : List Event}
      (h : Rehoming P w r es w₁) (h' : RehomingAll P w₁ rs es' w₂) :
      RehomingAll P w (r :: rs) (es ++ es') w₂

/-- The memory after a copy that could not be allocated, and after a move. -/
theorem failed_memory {len : ℕ} {content : List UInt8} (h : P.answer w.memory len = 0) :
    (cloned P (w.log (.readSlot r.slot)) len content).memory =
      { w.memory with errno := .enomem, calls := w.memory.calls + 1 } := by
  simp only [cloned, World.log, h, ite_true]

theorem moved_memory {len : ℕ} {content : List UInt8} (h : P.answer w.memory len ≠ 0) :
    (bridgeLibcFree (aoStorePointerSlot (cloned P (w.log (.readSlot r.slot)) len content) r.slot
        (P.answer w.memory len)) (w.memory.slots r.slot)).memory =
      { w.memory with
        slots := Function.update w.memory.slots r.slot (P.answer w.memory len)
        blocks := Function.update (Function.update w.memory.blocks (P.answer w.memory len)
          (some content)) (w.memory.slots r.slot) none
        owned := Function.update w.memory.owned (P.answer w.memory len) true
        calls := w.memory.calls + 1 } := by
  simp only [bridgeLibcFree, aoStorePointerSlot, cloned, World.log, h, ite_false]

theorem rehoming_trace {es : List Event} (h : Rehoming P w r es w') : w'.trace = w.trace ++ es := by
  cases h with
  | skipped => rfl
  | failed len content h => simp [cloned, World.log, h]
  | moved len content hlive hown h =>
    simp [bridgeLibcFree, aoStorePointerSlot, cloned, World.log]

theorem rehomingAll_trace {es : List Event} (h : RehomingAll P w rs es w') :
    w'.trace = w.trace ++ es := by
  induction h with
  | nil w => exact (List.append_nil _).symm
  | cons h _ ih => rw [ih, rehoming_trace h, List.append_assoc]

/-- The slot is NULL, or holds a block that can be copied unless it is owned. -/
def Holds (m : Memory) (r : AoScanfRecord) : Prop :=
  m.slots r.slot = 0 ∨ ∃ bytes, m.blocks (m.slots r.slot) = some bytes ∧
    (m.owned (m.slots r.slot) = false → Readable r.mode r.width bytes)

theorem rehomeRecord_cases (P : Process) (h : Holds w.memory r) :
    ∃ es w', aoRehomeScanfRecord P w r = some w' ∧ Rehoming P w r es w' := by
  have hskip (hs : w.memory.slots r.slot = 0 ∨ w.lib.bridgeReady = false ∨
      w.memory.owned (w.memory.slots r.slot) = true) :
      ∃ es w', aoRehomeScanfRecord P w r = some w' ∧ Rehoming P w r es w' :=
    ⟨_, _, if_pos hs, .skipped⟩
  rcases h with hnull | ⟨bytes, hb, hread⟩
  · exact hskip (Or.inl hnull)
  by_cases hnull : w.memory.slots r.slot = 0
  · exact hskip (Or.inl hnull)
  by_cases hready : w.lib.bridgeReady = false
  · exact hskip (Or.inr (Or.inl hready))
  cases hown : w.memory.owned (w.memory.slots r.slot) with
  | true => exact hskip (Or.inr (Or.inr hown))
  | false =>
    obtain ⟨w', hcall, hstep⟩ := rehomeRecord_step P (Bool.eq_true_of_not_eq_false hready) hnull hb
      (hread hown)
    cases hstep with
    | skipped hex => exact ⟨_, _, hcall, .skipped⟩
    | failed content hown hm hsame h => exact ⟨_, _, hcall, .failed content.length content h⟩
    | moved content hown hm hsame h =>
      exact ⟨_, _, hcall,
        .moved content.length content (by rw [hb]; exact Option.some_ne_none _) hown h⟩

/-! ### All records -/

/-- Distinct slots hold distinct pointers, but for NULL and what is owned. -/
def Apart (m : Memory) (rs : List AoScanfRecord) : Prop :=
  ∀ r ∈ rs, ∀ r' ∈ rs, r.slot ≠ r'.slot → m.slots r.slot = m.slots r'.slot →
    m.slots r.slot = 0 ∨ m.owned (m.slots r.slot) = true

/-- A record leaves the others ready, those with its own slot included. -/
theorem rehoming_keeps {es : List Event} (hr : Rehoming P w r es w') (hmem : r ∈ rs)
    (hholds : ∀ q ∈ rs, Holds w.memory q) (hapart : Apart w.memory rs) :
    (∀ q ∈ rs, Holds w'.memory q) ∧ Apart w'.memory rs := by
  cases hr with
  | skipped => exact ⟨hholds, hapart⟩
  | failed len content hnull =>
    rw [failed_memory hnull]
    exact ⟨hholds, hapart⟩
  | moved len content hlive hown hne =>
    rw [moved_memory hne]
    have hfresh := P.fresh w.memory len hne
    have hap : P.answer w.memory len ≠ w.memory.slots r.slot := by
      intro heq
      rw [heq] at hfresh
      exact hlive hfresh
    constructor
    · intro q hq
      by_cases hslot : q.slot = r.slot
      · right
        dsimp only
        rw [hslot, Function.update_self]
        exact ⟨content, by rw [Function.update_of_ne hap, Function.update_self],
          fun hown => by rw [Function.update_self] at hown; cases hown⟩
      · unfold Holds
        dsimp only
        rw [Function.update_of_ne hslot]
        rcases hholds q hq with hnull | ⟨bytes, hb, hread⟩
        · exact Or.inl hnull
        by_cases heq : w.memory.slots q.slot = w.memory.slots r.slot
        · -- only NULL or an owned block can be in both slots
          rcases hapart q hq r hmem hslot heq with hnull | howned
          · exact Or.inl hnull
          · rw [heq, hown] at howned
            cases howned
        · have hqa : w.memory.slots q.slot ≠ P.answer w.memory len := by
            intro hqa
            rw [hqa, hfresh] at hb
            cases hb
          right
          rw [Function.update_of_ne heq, Function.update_of_ne hqa, Function.update_of_ne hqa]
          exact ⟨bytes, hb, hread⟩
    · intro q hq q' hq' hslots heq
      dsimp only at heq ⊢
      by_cases hslot : q.slot = r.slot
      · right
        rw [hslot, Function.update_self, Function.update_self]
      · by_cases hslot' : q'.slot = r.slot
        · right
          rw [hslot', Function.update_self] at heq
          rw [heq, Function.update_self]
        · rw [Function.update_of_ne hslot, Function.update_of_ne hslot'] at heq
          rw [Function.update_of_ne hslot]
          refine (hapart q hq q' hq' hslots heq).imp_right fun howned => ?_
          by_cases hqa : w.memory.slots q.slot = P.answer w.memory len
          · rw [hqa, Function.update_self]
          · rw [Function.update_of_ne hqa]
            exact howned

theorem rehomeRecords_run (P : Process) (rs : List AoScanfRecord) (w : World)
    (hholds : ∀ q ∈ rs, Holds w.memory q) (hapart : Apart w.memory rs) :
    ∃ es w', rs.foldlM (aoRehomeScanfRecord P) w = some w' ∧ RehomingAll P w rs es w' := by
  induction rs generalizing w with
  | nil => exact ⟨[], w, rfl, .nil w⟩
  | cons r rs ih =>
    obtain ⟨es, w₁, hcall, hr⟩ := rehomeRecord_cases P (hholds r List.mem_cons_self)
    obtain ⟨hholds₁, hapart₁⟩ := rehoming_keeps hr List.mem_cons_self hholds hapart
    obtain ⟨es', w₂, hcalls, hrs⟩ := ih w₁ (fun q hq => hholds₁ q (List.mem_cons_of_mem r hq))
      fun q hq q' hq' => hapart₁ q (List.mem_cons_of_mem r hq) q' (List.mem_cons_of_mem r hq')
    refine ⟨es ++ es', w₂, ?_, .cons hr hrs⟩
    rw [List.foldlM_cons, hcall]
    exact hcalls

/-- The records of conversions that the scanner assigned, up to the first that it
did not. -/
def assignedRecords (records : List AoScanfRecord) (matched : ℤ) : List AoScanfRecord :=
  records.takeWhile fun r => decide (toInt r.ordinal ≤ matched)

/-- The wrapper rehomes what was assigned, or nothing. -/
theorem wrapper_rehomes (P : Process) (w : World) (fromString : Bool) (fn input : ℕ)
    (format : Format) (args : ℕ → ℕ) {code ret : ℤ} {sc : Scan} {m : Memory} (hfn : fn ≠ 0)
    (hparse : scanFormat format.charMode ⟨args, P.grow w.memory⟩ format.text = some (code, sc))
    (hreal : P.real ⟨fn, input, format, args⟩ w.memory = (ret, m))
    (hholds : ∀ r ∈ assignedRecords sc.plan.records ret, Holds m r)
    (hapart : Apart m (assignedRecords sc.plan.records ret)) :
    ∃ w₁ w' rs events, w₁.memory = m ∧ rs ⊆ assignedRecords sc.plan.records ret ∧
      RehomingAll P w₁ rs events w' ∧
      aoWrapCommon P w fromString fn input format args = some (ret, w') ∧
      w'.trace = w.trace ++ .invoke fn input format :: events := by
  have hmem : (aoEnsureScanfSymbols P w).memory = w.memory := by
    unfold aoEnsureScanfSymbols
    split <;> rfl
  rw [wrapCommon_scan]
  unfold wrapCommon
  simp only [hmem, if_neg hfn, hparse, hreal, Option.bind_eq_bind, Option.bind_some, ensure_trace]
  split
  · obtain ⟨es, w', hrun, hall⟩ := rehomeRecords_run P (assignedRecords sc.plan.records ret)
      ⟨(aoEnsureScanfSymbols P w).lib, m, w.trace ++ [.invoke fn input format]⟩ hholds hapart
    rw [rehomePlan_takeWhile]
    unfold assignedRecords at hrun
    rw [hrun]
    refine ⟨_, w', _, es, rfl, List.Subset.refl _, hall, rfl, ?_⟩
    rw [rehomingAll_trace hall, List.append_assoc]
    rfl
  · exact ⟨_, _, [], [], rfl, List.nil_subset _, .nil _, rfl, rfl⟩

/-- Distinct slots with blocks of their own are ready. -/
theorem prepared_ready (h : Prepared m rs) : (∀ r ∈ rs, Holds m r) ∧ Apart m rs := by
  refine ⟨fun r hr => ?_, fun r hr r' hr' hne heq => ?_⟩
  · obtain ⟨-, bytes, hb, hread⟩ := h.holds r hr
    exact Or.inr ⟨bytes, hb, fun _ => hread⟩
  · rw [List.inj_on_of_nodup_map h.blocks hr hr' heq] at hne
    exact (hne rfl).elim

/-- The records of `%ms%d%3mc%ms` after a result of 3. -/
theorem mixed_ready {m : Memory} {records : List AoScanfRecord}
    (hslots : m.slots 1024 = 4096 ∧ m.slots 1040 = 4112)
    (hblocks : m.blocks 4096 = some [104, 105, 0] ∧ m.blocks 4112 = some [97, 98, 99])
    (hrecords : records =
      [⟨1024, 1, .charString, 0⟩, ⟨1040, 3, .charCount, 3⟩, ⟨1048, 4, .charString, 0⟩]) :
    (∀ r ∈ assignedRecords records 3, Holds m r) ∧ Apart m (assignedRecords records 3) := by
  have hassigned : assignedRecords records 3 =
      [⟨1024, 1, .charString, 0⟩, ⟨1040, 3, .charCount, 3⟩] := by
    rw [hrecords]
    decide
  rw [hassigned]
  have hpair {Q : AoScanfRecord → Prop} (h : Q ⟨1024, 1, .charString, 0⟩)
      (h' : Q ⟨1040, 3, .charCount, 3⟩) :
      ∀ r ∈ [(⟨1024, 1, .charString, 0⟩ : AoScanfRecord), ⟨1040, 3, .charCount, 3⟩], Q r :=
    List.forall_mem_cons.mpr ⟨h, List.forall_mem_singleton.mpr h'⟩
  have hword : Readable .charString 0 [104, 105, 0] :=
    ⟨by decide, show strlen [104, 105, 0] ≠ none by decide⟩
  have hchars : Readable .charCount 3 [97, 98, 99] := ⟨by decide, rfl⟩
  refine ⟨hpair (Or.inr ⟨_, by rw [hslots.1, hblocks.1], fun _ => hword⟩)
    (Or.inr ⟨_, by rw [hslots.2, hblocks.2], fun _ => hchars⟩), ?_⟩
  refine hpair (hpair (fun hne _ => (hne rfl).elim) fun _ heq => ?_)
    (hpair (fun _ heq => ?_) fun hne _ => (hne rfl).elim)
  · rw [hslots.1, hslots.2] at heq
    cases heq
  · rw [hslots.1, hslots.2] at heq
    cases heq

end LibcOverride.Scanf

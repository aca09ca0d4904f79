import LibcOverride.MockAllocator.Sessions
import LibcOverride.Scanf.RehomeRuns

/-!
# Rehoming on the preloaded allocator
(src/scanf_overrides.c:531-752, src/mock_allocator.c:468-529)

The wrappers reach the allocator through `malloc` and the bridge. What they do to
it is a sequence of calls that the allocator allows, and the bridge's answers are
those of its registry, whatever slots and records share.
-/

namespace LibcOverride.Scanf
open Word
open MockAllocator (State Ledger Loader Tracks Plays RealAnswer core aoBootstrapHeapSize)

/-! ### Both sides of the bridge -/

/-- The allocator's side of an event, with the real allocator's answer. -/
def Event.call : Event → Option (MockAllocator.Call × ℕ)
  | .malloc size answer => some (.malloc size, answer)
  | .libcFree ptr => some (.libcFree ptr, 0)
  | _ => none

def calls (events : List Event) : List (MockAllocator.Call × ℕ) := events.filterMap Event.call

/-- The blocks are those of the real heap, and the bridge owns the tracked ones. -/
structure Couples (m : Memory) (s : State) (L : Ledger) : Prop where
  tracks : Tracks (core s) L
  live : ∀ p, m.blocks p ≠ none ↔ p ∈ s.heap
  owned : ∀ p ∈ s.heap, (m.owned p = true ↔ p ∈ L.blocks)

/-- New blocks are outside the bootstrap heap and no slot markers. -/
def Process.Placed (P : Process) (base : ℕ) : Prop :=
  ∀ m size, P.answer m size ≠ 0 → 2 ≤ P.answer m size ∧
    ¬(base ≤ P.answer m size ∧ P.answer m size < base + aoBootstrapHeapSize)

/-- The allocator goes along with these events up to the memory `m'`, or ends the
process at one of them. -/
def Backed (ld : Loader) (s : State) (L : Ledger) (events : List Event) (m' : Memory) : Prop :=
  Plays ld s L (calls events) none ∨ ∃ s' L', Plays ld s L (calls events) (some (s', L')) ∧
    Couples m' s' L' ∧ s'.bootstrap.base = s.bootstrap.base

variable {P : Process} {ld : Loader} {m : Memory} {s : State} {L : Ledger} {w w' : World}
  {r : AoScanfRecord} {rs : List AoScanfRecord}

/-- The bridge's answer is the registry's. -/
theorem Couples.answer (h : Couples m s L) {p : ℕ} (hp : m.blocks p ≠ none) :
    m.owned p = MockAllocator.aoAllocBridgeOwns s p := by
  have hheap := (h.live p).mp hp
  have hge := h.tracks.noMarker p hheap
  have hlookup : MockAllocator.aoRegistryLookupLocked s.registry p = L.blocks.lookup p :=
    MockAllocator.lookup_spec h.tracks.represents p hge
  have howns : MockAllocator.aoAllocBridgeOwns s p = (L.blocks.lookup p).isSome := by
    unfold MockAllocator.aoAllocBridgeOwns MockAllocator.aoMockIsTrackedAllocation
    rw [if_neg (by omega), MockAllocator.aoRegistryContains, hlookup]
  rw [howns, Bool.eq_iff_iff, h.owned p hheap, AList.lookup_isSome]

theorem Couples.realAnswer (h : Couples m s L) (hP : P.Placed s.bootstrap.base) (size : ℕ) :
    RealAnswer s (.malloc size) (P.answer m size) := by
  by_cases hz : P.answer m size = 0
  · exact Or.inl hz
  · obtain ⟨hge, hout⟩ := hP m size hz
    have hfree : P.answer m size ∉ s.heap := fun hmem =>
      (h.live _).mpr hmem (P.fresh m size hz)
    exact Or.inr ⟨hge, decide_eq_false hout, fun hmem => hfree (Finset.mem_of_mem_erase hmem)⟩

/-! ### The allocator's side of a record -/

theorem backed_nil (h : Couples m s L) : Backed ld s L [] m :=
  Or.inr ⟨s, L, .done s L, h, rfl⟩

theorem calls_append (es es' : List Event) : calls (es ++ es') = calls es ++ calls es' :=
  List.filterMap_append

theorem Backed.trans {es es' : List Event} {m₁ m₂ : Memory} (h : Backed ld s L es m₁)
    (h' : ∀ s₁ L₁, Couples m₁ s₁ L₁ → s₁.bootstrap.base = s.bootstrap.base →
      Backed ld s₁ L₁ es' m₂) : Backed ld s L (es ++ es') m₂ := by
  unfold Backed
  rw [calls_append]
  rcases h with hexit | ⟨s₁, L₁, hplays, hc, hbase⟩
  · exact Or.inl (MockAllocator.plays_exit hexit _)
  · rcases h' s₁ L₁ hc hbase with hexit | ⟨s₂, L₂, hplays', hc', hbase'⟩
    · exact Or.inl (MockAllocator.plays_append hplays hexit)
    · exact Or.inr ⟨s₂, L₂, MockAllocator.plays_append hplays hplays', hc', hbase'.trans hbase⟩

/-- A `malloc` that the real allocator granted, with any contents. -/
theorem couples_create (h : Couples m s L) {a : ℕ} {size : ℕ} (ha : a ≠ 0) {s₁ : State}
    (htracks : Tracks (core s₁) (L.create a size)) (hheap : s₁.heap = insert a s.heap)
    (content : List UInt8) (slots : ℕ → ℕ) (errno : Errno) (n : ℕ) :
    Couples ⟨slots, Function.update m.blocks a (some content), Function.update m.owned a true,
      errno, n⟩ s₁ (L.create a size) := by
  have hmem (q : ℕ) : q ∈ (L.create a size).blocks ↔ q = a ∨ q ∈ L.blocks := by
    rw [Ledger.create, if_neg ha]
    exact AList.mem_insert _
  refine ⟨htracks, fun q => ?_, fun q hq => ?_⟩
  · dsimp only
    rw [hheap, Finset.mem_insert]
    by_cases hqa : q = a
    · rw [hqa, Function.update_self]
      exact iff_of_true (Option.some_ne_none _) (Or.inl rfl)
    · rw [Function.update_of_ne hqa, h.live q]
      exact (or_iff_right hqa).symm
  · dsimp only
    rw [hheap, Finset.mem_insert] at hq
    rw [hmem]
    by_cases hqa : q = a
    · rw [hqa, Function.update_self]
      exact iff_of_true rfl (Or.inl rfl)
    · rw [Function.update_of_ne hqa, h.owned q (hq.resolve_left hqa)]
      exact (or_iff_right hqa).symm

/-- The bridge's `free`. -/
theorem couples_release (h : Couples m s L) {p : ℕ} {s₁ : State} (htracks : Tracks (core s₁) L)
    (hheap : s₁.heap = s.heap.erase p) :
    Couples { m with blocks := Function.update m.blocks p none } s₁ L := by
  refine ⟨htracks, fun q => ?_, fun q hq => ?_⟩
  · dsimp only
    rw [hheap, Finset.mem_erase]
    by_cases hqp : q = p
    · rw [hqp, Function.update_self]
      exact iff_of_false (fun hne => hne rfl) fun hmem => hmem.1 rfl
    · rw [Function.update_of_ne hqp, h.live q]
      exact (and_iff_right hqp).symm
  · rw [hheap] at hq
    exact h.owned q (Finset.mem_of_mem_erase hq)

theorem rehoming_backed {es : List Event} (h : Couples w.memory s L)
    (hP : P.Placed s.bootstrap.base) (hr : Rehoming P w r es w') :
    Backed ld s L es w'.memory := by
  cases hr with
  | skipped => exact backed_nil h
  | failed len content hnull =>
    rw [failed_memory hnull]
    have hans := h.realAnswer hP len
    rw [hnull] at hans
    rcases MockAllocator.malloc_plays ld h.tracks hans with hexit | ⟨s₁, hplays, hheap, hbase⟩
    · exact Or.inl hexit
    · rw [if_pos rfl] at hheap
      have htracks := MockAllocator.plays_tracks h.tracks hplays
      exact Or.inr ⟨s₁, L, hplays, ⟨htracks, fun q => by rw [hheap]; exact h.live q,
        fun q hq => h.owned q (by rw [← hheap]; exact hq)⟩, hbase⟩
  | moved len content hlive hown hne =>
    rw [moved_memory hne]
    have hp := (h.live _).mp hlive
    have hap : w.memory.slots r.slot ≠ P.answer w.memory len := by
      intro heq
      rw [heq] at hlive
      exact hlive (P.fresh w.memory len hne)
    rcases MockAllocator.malloc_plays ld h.tracks (h.realAnswer hP len) with
      hexit | ⟨s₁, hplays, hheap, hbase⟩
    · exact Or.inl (MockAllocator.plays_exit hexit [(.libcFree (w.memory.slots r.slot), 0)])
    · rw [if_neg hne] at hheap
      have htracks := MockAllocator.plays_tracks h.tracks hplays
      have hc := couples_create h hne htracks hheap content
        (Function.update w.memory.slots r.slot (P.answer w.memory len)) w.memory.errno
        (w.memory.calls + 1)
      have hp₁ : w.memory.slots r.slot ∈ s₁.heap := by
        rw [hheap]
        exact Finset.mem_insert_of_mem hp
      have hn₁ : w.memory.slots r.slot ∉ (L.create (P.answer w.memory len) len).blocks := by
        intro hmem
        have howned := (hc.owned _ hp₁).mpr hmem
        dsimp only at howned
        rw [Function.update_of_ne hap, hown] at howned
        cases howned
      rcases MockAllocator.libcFree_plays ld htracks hp₁ hn₁ with
        hexit | ⟨s₂, hplays₂, hheap₂, hbase₂⟩
      · exact Or.inl (MockAllocator.plays_append hplays hexit)
      · have htracks₂ := MockAllocator.plays_tracks htracks hplays₂
        exact Or.inr ⟨s₂, _, MockAllocator.plays_append hplays hplays₂,
          couples_release hc htracks₂ hheap₂, hbase₂.trans hbase⟩

theorem rehomingAll_backed {es : List Event} (h : Couples w.memory s L)
    (hP : P.Placed s.bootstrap.base) (hr : RehomingAll P w rs es w') :
    Backed ld s L es w'.memory := by
  induction hr generalizing s L with
  | nil w => exact backed_nil h
  | cons hr _ ih =>
    refine (rehoming_backed h hP hr).trans fun s₁ L₁ hc hbase => ih hc ?_
    rw [hbase]
    exact hP

/-! ### A call -/

/-- Any format, well formed or not, and destinations that may coincide: if each
slot that the scanner assigned is NULL or holds a block that its record can copy,
and no two slots share a block of libc's, then what the wrapper does to the
allocator after the scan is a run that the allocator allows. No block is given
back twice or while it is tracked, and what the bridge owns afterwards is what
the ledger has. -/
theorem wrapper_allowed (P : Process) (ld : Loader) (w : World) (fromString : Bool) (fn input : ℕ)
    (format : Format) (args : ℕ → ℕ) (code ret : ℤ) (sc : Scan) (m : Memory) (s : State)
    (L : Ledger) (hfn : fn ≠ 0)
    (hparse : scanFormat format.charMode ⟨args, P.grow w.memory⟩ format.text = some (code, sc))
    (hreal : P.real ⟨fn, input, format, args⟩ w.memory = (ret, m)) (hc : Couples m s L)
    (hP : P.Placed s.bootstrap.base)
    (hholds : ∀ r ∈ assignedRecords sc.plan.records ret, Holds m r)
    (hapart : Apart m (assignedRecords sc.plan.records ret)) :
    ∃ w' events, aoWrapCommon P w fromString fn input format args = some (ret, w') ∧
      w'.trace = w.trace ++ .invoke fn input format :: events ∧ Backed ld s L events w'.memory := by
  obtain ⟨w₁, w', rs, events, rfl, -, hall, hcall, htrace⟩ :=
    wrapper_rehomes P w fromString fn input format args hfn hparse hreal hholds hapart
  exact ⟨w', events, hcall, htrace, rehomingAll_backed hc hP hall⟩

/-! ### `sscanf(input, "%ms%d%3mc%ms", ...)` -/

/-- The heap that the scanner left. -/
def mixedState : State :=
  MockAllocator.initState ⟨2 ^ 20, Nat.two_pow_pos 20, fun _ => 0, 0⟩ {4096, 4112}

theorem mixed_live (p : ℕ) : mixedMemory.blocks p ≠ none ↔ p = 4096 ∨ p = 4112 := by
  by_cases hchars : p = 4112
  · rw [hchars]
    exact iff_of_true (by decide) (Or.inr rfl)
  · by_cases hword : p = 4096
    · rw [hword]
      exact iff_of_true (by decide) (Or.inl rfl)
    · refine iff_of_false (fun hne => hne ?_) (not_or.mpr ⟨hword, hchars⟩)
      exact (Function.update_of_ne hchars _ _).trans (Function.update_of_ne hword _ _)

theorem mixed_couples : Couples mixedMemory mixedState MockAllocator.Ledger.empty where
  tracks := MockAllocator.tracks_start _ _ (by decide)
  live p := by
    rw [mixed_live]
    exact (Finset.mem_insert.trans (or_congr_right Finset.mem_singleton)).symm
  owned p _ := iff_of_false Bool.false_ne_true (AList.notMem_empty p)

theorem mixed_placed : mixedScanner.Placed (2 ^ 20) := by
  intro m size hne
  have hcases : mixedScanner.answer m size = 8192 ∨ mixedScanner.answer m size = 0 := by
    dsimp only [mixedScanner]
    split
    · exact Or.inl rfl
    · exact Or.inr rfl
  rw [hcases.resolve_right hne]
  decide

/-- The word is moved and the copy of the characters refused. -/
theorem wrapper_allowed_mixed : ∃ w' events,
    aoWrapCommon mixedScanner ⟨startGlobals, sampleMemory, []⟩ true 128 512 (.narrow mixedText)
      mixedArgs = some (3, w') ∧
    calls events = [(.malloc 3, 8192), (.libcFree 4096, 0), (.malloc 3, 0)] ∧
    Backed MockAllocator.sampleLoader mixedState MockAllocator.Ledger.empty events w'.memory := by
  obtain ⟨sc, hparse, hrecords⟩ : ∃ sc,
      scanFormat .charCount ⟨mixedArgs, fun size => decide (size = 192)⟩ (uchars mixedText) =
        some (0, sc) ∧ sc.plan.records =
          [⟨1024, 1, .charString, 0⟩, ⟨1040, 3, .charCount, 3⟩, ⟨1048, 4, .charString, 0⟩] :=
    ⟨_, rfl, rfl⟩
  obtain ⟨hholds, hapart⟩ := @mixed_ready mixedMemory _ ⟨rfl, rfl⟩ ⟨rfl, rfl⟩ hrecords
  obtain ⟨w', events, hcall, htrace, hbacked⟩ := wrapper_allowed mixedScanner
    MockAllocator.sampleLoader ⟨startGlobals, sampleMemory, []⟩ true 128 512 (.narrow mixedText)
    mixedArgs 0 3 sc mixedMemory mixedState MockAllocator.Ledger.empty (by decide) hparse rfl
    mixed_couples mixed_placed hholds hapart
  refine ⟨w', events, hcall, ?_, hbacked⟩
  cases hcall
  rw [← (List.cons.inj htrace).2]
  rfl

end LibcOverride.Scanf

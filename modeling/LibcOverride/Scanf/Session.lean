import LibcOverride.Scanf.Allocator
import LibcOverride.Scanf.Storage

/-!
# A scanf call on the preloaded allocator
(src/scanf_overrides.c:127-152, 355-529, 584-752, src/mock_allocator.c:482-651)

The array of the plan is allocated before the real scanner runs and given back after
the strings have been rehomed. What the allocator has then, and had not before, are
strings in the caller's slots.
-/

namespace LibcOverride.Scanf
open Word
open MockAllocator (State Ledger Loader Tracks Plays BlockMap Placement Provided Served core)

/-! ### What rehoming leaves in the ledger -/

/-- Tracked blocks stay where they are, and new ones are in the slots of `rs`. -/
structure Delivered (rs : List AoScanfRecord) (m m' : Memory) (L L' : Ledger) : Prop where
  kept : ∀ q, L.map q ≠ none → L'.map q = L.map q
  given : ∀ q, L.map q = none → L'.map q ≠ none → ∃ r ∈ rs, m'.slots r.slot = q
  slots : ∀ x, L.map (m.slots x) ≠ none → m'.slots x = m.slots x

/-- The allocator goes along with these events, and then has what they delivered. -/
def Serves (ld : Loader) (s : State) (L : Ledger) (es : List Event) (rs : List AoScanfRecord)
    (m m' : Memory) : Prop :=
  Plays ld s L (calls es) none ∨ ∃ s' L', Plays ld s L (calls es) (some (s', L')) ∧
    Couples m' s' L' ∧ s'.bootstrap.base = s.bootstrap.base ∧ Delivered rs m m' L L'

variable {P : Process} {ld : Loader} {m m₁ m' : Memory} {s s' : State} {L L₁ L' : Ledger}
  {w w' : World} {r : AoScanfRecord} {rs : List AoScanfRecord} {es : List Event}

theorem delivered_same (rs : List AoScanfRecord) (hslots : m'.slots = m.slots)
    (hmap : L'.map = L.map) : Delivered rs m m' L L' := by
  refine ⟨fun q _ => congrFun hmap q, fun q hnone hsome => ?_, fun x _ => congrFun hslots x⟩
  rw [hmap] at hsome
  exact (hsome hnone).elim

theorem Delivered.cons (h : Delivered [r] m m₁ L L₁) (h' : Delivered rs m₁ m' L₁ L') :
    Delivered (r :: rs) m m' L L' := by
  refine ⟨fun q hq => ?_, fun q hnone hsome => ?_, fun x hx => ?_⟩
  · have hfirst := h.kept q hq
    rw [← hfirst] at hq ⊢
    exact h'.kept q hq
  · by_cases hq : L₁.map q = none
    · obtain ⟨r', hr', hslot⟩ := h'.given q hq hsome
      exact ⟨r', List.mem_cons_of_mem r hr', hslot⟩
    · -- the slot got it first, and is not written again
      obtain ⟨r', hr', hslot⟩ := h.given q hnone hq
      rw [List.mem_singleton.mp hr'] at hslot
      refine ⟨r, List.mem_cons_self .., ?_⟩
      rw [h'.slots r.slot (by rwa [hslot]), hslot]
  · have hfirst := h.slots x hx
    rw [← hfirst]
    refine h'.slots x ?_
    rw [hfirst, h.kept _ hx]
    exact hx

theorem plays_malloc {size ans : ℕ} (h : Tracks (core s) L)
    (hp : Plays ld s L [(.malloc size, ans)] (some (s', L'))) : L' = L.create ans size := by
  cases hp with
  | call ha hans hs hrest =>
    cases hrest
    rw [MockAllocator.malloc_value h.outside hs]
    rfl

theorem rehoming_delivers (h : Couples w.memory s L) (hP : P.Placed s.bootstrap.base)
    (hr : Rehoming P w r es w') : Serves ld s L es [r] w.memory w'.memory := by
  have hbacked : Backed ld s L es w'.memory := rehoming_backed h hP hr
  rcases hbacked with hexit | ⟨s', L', hplays, hc, hbase⟩
  · exact Or.inl hexit
  refine Or.inr ⟨s', L', hplays, hc, hbase, ?_⟩
  cases hr with
  | skipped =>
    cases hplays
    exact delivered_same _ rfl rfl
  | failed len content hnull =>
    rw [failed_memory hnull]
    obtain rfl := plays_malloc h.tracks hplays
    exact delivered_same _ rfl rfl
  | moved len content hlive hown hne =>
    rw [moved_memory hne]
    have hmap : L'.map = Function.update L.map (P.answer w.memory len)
        (some (len, (1 + L.created) % 2 ^ 64)) := by
      cases hplays with
      | call ha hans hs hrest =>
        rw [MockAllocator.malloc_value h.tracks.outside hs] at hrest
        cases hrest with
        | call ha' hans' hs' hdone =>
          cases hdone
          exact MockAllocator.create_map L hne len
    have hfresh : L.map (P.answer w.memory len) = none :=
      MockAllocator.fresh_map h.tracks fun hmem => (h.live _).mpr hmem (P.fresh w.memory len hne)
    refine ⟨fun q hq => ?_, fun q hnone hsome => ?_, fun x hx => ?_⟩
    · have hqa : q ≠ P.answer w.memory len := fun heq => hq (heq ▸ hfresh)
      rw [hmap, Function.update_of_ne hqa]
    · refine ⟨r, List.mem_singleton_self r, ?_⟩
      by_contra hqa
      dsimp only at hqa
      rw [Function.update_self] at hqa
      rw [hmap, Function.update_of_ne (Ne.symm hqa)] at hsome
      exact hsome hnone
    · have hslot : x ≠ r.slot := by
        rintro rfl
        have hmem := AssocTotal.lookup_ne_none.mp hx
        rw [(h.owned _ (h.tracks.allocated _ hmem)).mpr hmem] at hown
        cases hown
      exact Function.update_of_ne hslot _ _

theorem rehomingAll_delivers (h : Couples w.memory s L) (hP : P.Placed s.bootstrap.base)
    (hr : RehomingAll P w rs es w') : Serves ld s L es rs w.memory w'.memory := by
  induction hr generalizing s L with
  | nil w => exact Or.inr ⟨s, L, .done s L, h, rfl, delivered_same _ rfl rfl⟩
  | @cons w w₁ w₂ r rs es es' hr _ ih =>
    unfold Serves
    rw [calls_append]
    have hfirst : Serves ld s L es [r] w.memory w₁.memory := rehoming_delivers h hP hr
    rcases hfirst with hexit | ⟨s₁, L₁, hplays, hc, hbase, hdelivered⟩
    · exact Or.inl (MockAllocator.plays_exit hexit _)
    · rcases ih hc (by rwa [hbase]) with hexit | ⟨s', L', hplays', hc', hbase', hdelivered'⟩
      · exact Or.inl (MockAllocator.plays_append hplays hexit)
      · exact Or.inr ⟨s', L', MockAllocator.plays_append hplays hplays', hc', hbase'.trans hbase,
          hdelivered.cons hdelivered'⟩

/-! ### The whole call -/

theorem free_taken {p : ℕ} (h : Tracks (core s) L) (hp : p = 0 ∨ p ∈ L.blocks) :
    Plays ld s L [(.free p, 0)] none ∨
      ∃ s', Plays ld s L [(.free p, 0)] (some (s', L.drop p)) := by
  have ha : MockAllocator.Allowed s L (.free p) := hp.imp_right fun hmem => Or.inr (h.allocated p hmem)
  have hans : MockAllocator.RealAnswer s (.free p) 0 := Or.inl rfl
  cases hs : MockAllocator.step ld s (.free p) 0 with
  | exit why => exact Or.inl (.exit ha hans hs)
  | ret v s' => exact Or.inr ⟨s', .call ha hans hs (.done _ _)⟩

/-- Where the array is; without one the reset frees NULL. -/
def Storage.address (st : Storage) (place : ℕ → ℕ) : ℕ := st.records.elim 0 place

/-- The array is the only block that the plan has. -/
theorem Storage.Keeps.sizes {st : Storage} {plan : AoScanfPlan} (h : st.Keeps plan) (k : ℕ) :
    Clients.sizes sizeofRecord st.heap k ≠ none ↔ st.records = some k := by
  have hsince := Clients.since_sizes sizeofRecord h.made k
  have hlive : k ∈ st.records.toList ↔ st.records = some k := Option.mem_toList
  have hempty : Clients.sizes sizeofRecord (⟨[]⟩ : Heap (List AoScanfRecord)) k = none := rfl
  by_cases hk : st.records = some k
  · exact iff_of_true (hsince.1 (hlive.mpr hk)).2 hk
  · refine iff_of_false (fun hne => hne ?_) hk
    rw [hsince.2 fun hmem => hk (hlive.mp hmem), hempty]

/-- With the array the allocator has what it had before and one block. -/
theorem Storage.Keeps.beside {st : Storage} {plan : AoScanfPlan} {others : BlockMap}
    {place : ℕ → ℕ} (h : st.Keeps plan)
    (hp : Provided others (Clients.sizes sizeofRecord st.heap) place s L) (hnull : others 0 = none) :
    (st.address place = 0 ∨ st.address place ∈ L.blocks) ∧ others (st.address place) = none ∧
      ∀ q, q ≠ st.address place → L.map q = others q := by
  unfold Storage.address
  cases hr : st.records with
  | none =>
    refine ⟨Or.inl rfl, hnull, fun q _ => hp.laid.rest q fun k hk => ?_⟩
    rw [h.sizes k, hr] at hk
    cases hk
  | some k =>
    have hk := (h.sizes k).mpr hr
    obtain ⟨n, hn⟩ := Option.ne_none_iff_exists'.mp hk
    refine ⟨Or.inr (hp.mem hk), (hp.laid.mine k n hn).1, fun q hq => hp.laid.rest q fun j hj => ?_⟩
    rw [h.sizes j, hr] at hj
    cases hj
    exact Ne.symm hq

/-- What the reset leaves: the blocks from before the call, and what was delivered. -/
theorem Delivered.reset {m₂ : Memory} {L₀ : Ledger} {p : ℕ} (h : Delivered rs m₂ m' L₁ L')
    (hgone : L₀.map p = none) (hrest : ∀ q, q ≠ p → L₁.map q = L₀.map q) :
    (∀ q, L₀.map q ≠ none → (L'.drop p).map q = L₀.map q) ∧
      ∀ q, L₀.map q = none → (L'.drop p).map q ≠ none → ∃ r ∈ rs, m'.slots r.slot = q := by
  rw [MockAllocator.drop_map]
  refine ⟨fun q hq => ?_, fun q hnone hsome => ?_⟩
  · have hqp : q ≠ p := fun heq => hq (heq ▸ hgone)
    rw [Function.update_of_ne hqp, ← hrest q hqp]
    refine h.kept q ?_
    rwa [hrest q hqp]
  · have hqp : q ≠ p := by
      rintro rfl
      exact hsome (Function.update_self ..)
    rw [Function.update_of_ne hqp] at hsome
    exact h.given q ((hrest q hqp).trans hnone) hsome

/-- A call, from the first request for the plan to its reset; `s₁` is the allocator with
the array and `s₂` what it is once the scanner has run. Every call of it is one that the
allocator allows. It then has all the blocks that it had, and every other one is in a
slot that the scanner assigned: neither the array nor a copy is lost, whichever requests
are refused. -/
theorem call_leaks_nothing (P : Process) (ld : Loader) (Pl : Placement) (w : World)
    (fromString : Bool) (fn input : ℕ) (format : Format) (args : ℕ → ℕ) (code ret : ℤ) (sc : Scan)
    (st : Storage) (m : Memory) (place place₁ : ℕ → ℕ) (s s₁ s₂ : State) (L L₁ : Ledger)
    (answer : ℕ → Heap.Answer AoScanfRecord) (hfn : fn ≠ 0) (ht : Terminated format.text)
    (hshort : format.text.length < 2 ^ 32)
    (hanswer : ∀ size, (answer size).grants size = P.grow w.memory size)
    (hplan : format.plan ⟨args, P.grow w.memory⟩ = some (code, sc))
    (hpushes : Pushes (P.grow w.memory) emptyPlan sc.plan code rs)
    (hstore : Storage.start.pushAll answer rs = some (decide (code = 0), st))
    (htracks : Tracks (core s) L)
    (hserved : Served ld Pl place s L st.asked (some (place₁, s₁, L₁)))
    (hreal : P.real ⟨fn, input, format, args⟩ w.memory = (ret, m)) (hc : Couples m s₂ L₁)
    (hP : P.Placed s₂.bootstrap.base)
    (hholds : ∀ r ∈ assignedRecords sc.plan.records ret, Holds m r)
    (hapart : Apart m (assignedRecords sc.plan.records ret)) :
    ∃ w' events, aoWrapCommon P w fromString fn input format args = some (ret, w') ∧
      w'.trace = w.trace ++ .invoke fn input format :: events ∧
      (Plays ld s₂ L₁ (calls events ++ [(.free (st.address place₁), 0)]) none ∨
        ∃ s' L', Plays ld s₂ L₁ (calls events ++ [(.free (st.address place₁), 0)]) (some (s', L')) ∧
          (∀ q, L.map q ≠ none → L'.map q = L.map q) ∧
          ∀ q, L.map q = none → L'.map q ≠ none →
            ∃ r ∈ assignedRecords sc.plan.records ret, w'.memory.slots r.slot = q) := by
  -- the array beside the blocks from before
  obtain ⟨st', hstore', hkeeps, hcharged⟩ := parse_stored ht hshort hanswer hplan hpushes
  obtain rfl : st = st' := by
    rw [hstore] at hstore'
    exact (Prod.mk.inj (Option.some.inj hstore')).2
  have hprovided := MockAllocator.served_provided (MockAllocator.provided_nothing htracks place)
    hcharged.uses hserved
  have hnull : L.map 0 = none :=
    MockAllocator.fresh_map htracks (MockAllocator.mark_null htracks.noMarker)
  obtain ⟨haddress, hgone, hrest⟩ := hkeeps.beside hprovided hnull
  -- the scanner and the strings
  rw [plan_scan] at hplan
  obtain ⟨w₁, w', rs', events, rfl, hsub, hall, hcall, htrace⟩ :=
    wrapper_rehomes P w fromString fn input format args hfn hplan hreal hholds hapart
  refine ⟨w', events, hcall, htrace, ?_⟩
  have hserves : Serves ld s₂ L₁ events rs' w₁.memory w'.memory := rehomingAll_delivers hc hP hall
  rcases hserves with hexit | ⟨s₃, L₃, hplays, hc', -, hdelivered⟩
  · exact Or.inl (MockAllocator.plays_exit hexit _)
  -- the reset
  have htaken : st.address place₁ = 0 ∨ st.address place₁ ∈ L₃.blocks := by
    refine haddress.imp_right fun hmem => AssocTotal.lookup_ne_none.mp ?_
    have hkept := hdelivered.kept _ (AssocTotal.lookup_ne_none.mpr hmem)
    change L₃.map _ ≠ none
    rw [hkept]
    exact AssocTotal.lookup_ne_none.mpr hmem
  have hfree : _ ∨ ∃ s', Plays ld s₃ L₃ [(.free (st.address place₁), 0)]
      (some (s', L₃.drop (st.address place₁))) := free_taken hc'.tracks htaken
  rcases hfree with hexit | ⟨s', hfree⟩
  · exact Or.inl (MockAllocator.plays_append hplays hexit)
  · obtain ⟨hkept, hgiven⟩ := hdelivered.reset hgone hrest
    refine Or.inr ⟨s', _, MockAllocator.plays_append hplays hfree, hkept, fun q hnone hsome => ?_⟩
    obtain ⟨r, hr, hslot⟩ := hgiven q hnone hsome
    exact ⟨r, hsub hr, hslot⟩

/-! ### `sscanf(input, "%ms%d%3mc%ms", ...)` -/

/-- `mixedScanner` where the array of the plan is at 1114114. -/
def besideArray : Process :=
  { mixedScanner with
    real := fun call m =>
      (3, { m with
        slots := Function.update (Function.update m.slots (call.args 0) 4096) (call.args 2) 4112
        blocks := Function.update (Function.update (Function.update m.blocks 4096
          (some [104, 105, 0])) 4112 (some [97, 98, 99])) 1114114 (some [])
        owned := Function.update m.owned 1114114 true })
    grow := fun _ size => (eightAnswer size).grants size }

def besideMemory : Memory :=
  (besideArray.real ⟨128, 512, .narrow mixedText, mixedArgs⟩ sampleMemory).2

/-- `mixedState` before the scanner's blocks. -/
def emptyState : State := MockAllocator.initState mixedState.bootstrap ∅

/-- The scanner has allocated at `a`. -/
theorem tracks_scanned {s : State} {L : Ledger} (h : Tracks (core s) L) {a : ℕ} (ha : 2 ≤ a) :
    Tracks (core { s with heap := insert a s.heap }) L := by
  refine ⟨h.outside, h.represents, fun p hp => Finset.mem_insert_of_mem (h.allocated p hp), ?_,
    h.ordinary, h.blocks, h.bytes, h.nextId, h.idRange, h.idDistinct⟩
  intro p hp
  rcases Finset.mem_insert.mp hp with heq | hp
  · rwa [heq]
  · exact h.noMarker p hp

theorem beside_live (p : ℕ) :
    besideMemory.blocks p ≠ none ↔ p = 4096 ∨ p = 4112 ∨ p = 1114114 := by
  by_cases harray : p = 1114114
  · rw [harray]
    exact iff_of_true (by decide) (Or.inr (Or.inr rfl))
  · have hscanned : besideMemory.blocks p = mixedMemory.blocks p := Function.update_of_ne harray _ _
    rw [hscanned, mixed_live]
    exact or_congr_right (or_iff_left harray).symm

theorem beside_couples {s : State} (h : Tracks (core s) (Ledger.empty.create 1114114 192))
    (hheap : s.heap = {1114114}) :
    Couples besideMemory { s with heap := insert 4096 (insert 4112 s.heap) }
      (Ledger.empty.create 1114114 192) where
  tracks := tracks_scanned (tracks_scanned h (by decide : 2 ≤ 4112)) (by decide : 2 ≤ 4096)
  live p := by
    dsimp only
    rw [hheap, beside_live, Finset.mem_insert, Finset.mem_insert, Finset.mem_singleton]
  owned p hp := by
    dsimp only at hp
    rw [hheap, Finset.mem_insert, Finset.mem_insert, Finset.mem_singleton] at hp
    rcases hp with rfl | rfl | rfl
    · exact iff_of_false (by decide) (by decide)
    · exact iff_of_false (by decide) (by decide)
    · exact iff_of_true (by decide) (by decide)

theorem call_leaks_nothing_mixed : ∃ (st : Storage) (place₁ : ℕ → ℕ) (s₁ s₂ : State) (L₁ : Ledger)
    (w' : World) (events : List Event),
    Served MockAllocator.sampleLoader MockAllocator.Placement.behind (fun _ => 0) emptyState
      Ledger.empty st.asked (some (place₁, s₁, L₁)) ∧ Couples besideMemory s₂ L₁ ∧
    aoWrapCommon besideArray ⟨startGlobals, sampleMemory, []⟩ true 128 512
      (.narrow mixedText) mixedArgs = some (3, w') ∧
    (Plays MockAllocator.sampleLoader s₂ L₁ (calls events ++ [(.free (st.address place₁), 0)]) none ∨
      ∃ s' L', Plays MockAllocator.sampleLoader s₂ L₁
          (calls events ++ [(.free (st.address place₁), 0)]) (some (s', L')) ∧
        ∀ q, L'.map q ≠ none → q = 8192 ∨ q = 4112) := by
  have ht : Terminated (Format.narrow mixedText).text :=
    @terminated_append [37, 109, 115, 37, 100, 37, 51, 109, 99, 37, 109, 115] (by decide)
  obtain ⟨sc, rs, hplan, hrs, hrecords, hpush⟩ : ∃ sc rs, Format.plan ⟨mixedArgs,
        besideArray.grow sampleMemory⟩ (.narrow mixedText) = some (0, sc) ∧
      rs = [⟨1024, 1, .charString, 0⟩, ⟨1040, 3, .charCount, 3⟩, ⟨1048, 4, .charString, 0⟩] ∧
      sc.plan.records = rs ∧
      pushAll (besideArray.grow sampleMemory) emptyPlan rs = (true, sc.plan) :=
    ⟨_, _, rfl, rfl, rfl, rfl⟩
  rw [hrs] at hrecords hpush
  obtain ⟨st, hstore, hasked⟩ : ∃ st, Storage.start.pushAll eightAnswer
        [⟨1024, 1, .charString, 0⟩, ⟨1040, 3, .charCount, 3⟩, ⟨1048, 4, .charString, 0⟩] =
        some (true, st) ∧
      st.asked = [.realloc none 0 192 true] := ⟨_, rfl, rfl⟩
  obtain ⟨s₁, hstep, hheap, hbase⟩ : ∃ s₁, MockAllocator.step MockAllocator.sampleLoader emptyState
        (.realloc 0 192) 1114114 = .ret 1114114 s₁ ∧
      s₁.heap = {1114114} ∧ s₁.bootstrap.base = 2 ^ 20 := ⟨_, rfl, by decide, rfl⟩
  have hallowed : MockAllocator.Allowed emptyState Ledger.empty (.realloc 0 192) := Or.inl rfl
  have hgiven : MockAllocator.RealAnswer emptyState (.realloc 0 192) 1114114 :=
    Or.inr ⟨by decide, by decide, by decide⟩
  have hstart : Tracks (core emptyState) Ledger.empty := MockAllocator.tracks_start _ _ (by simp)
  have htracks : Tracks (core s₁) (Ledger.empty.create 1114114 192) :=
    MockAllocator.tracks_step hstart hallowed hgiven hstep
  have hc := beside_couples htracks hheap
  obtain ⟨place₁, hserved⟩ : ∃ place₁, Served MockAllocator.sampleLoader
      MockAllocator.Placement.behind (fun _ => 0) emptyState Ledger.empty st.asked
      (some (place₁, s₁, Ledger.empty.create 1114114 192)) := by
    rw [hasked]
    exact ⟨Function.update (fun _ => 0) 0 1114114, .call hallowed hstep .done⟩
  obtain ⟨hholds, hapart⟩ := @mixed_ready besideMemory _ ⟨rfl, rfl⟩ ⟨rfl, rfl⟩ hrecords
  have hP : besideArray.Placed s₁.bootstrap.base := by
    rw [hbase]
    exact mixed_placed
  obtain ⟨w', events, hcall, -, hplays⟩ := call_leaks_nothing besideArray MockAllocator.sampleLoader
    MockAllocator.Placement.behind ⟨startGlobals, sampleMemory, []⟩ true 128 512
    (.narrow mixedText) mixedArgs 0 3 sc st besideMemory (fun _ => 0) place₁ emptyState s₁ _
    Ledger.empty _ eightAnswer (by decide) ht (by decide) (fun _ => rfl) hplan (.all hpush) hstore
    hstart hserved rfl hc hP hholds hapart
  refine ⟨st, place₁, s₁, _, _, w', events, hserved, hc, hcall, hplays.imp_right ?_⟩
  rintro ⟨s', L', hplays, -, hgiven⟩
  refine ⟨s', L', hplays, fun q hq => ?_⟩
  obtain ⟨r, hr, hslot⟩ := hgiven q rfl hq
  have hassigned : r = ⟨1024, 1, .charString, 0⟩ ∨ r = ⟨1040, 3, .charCount, 3⟩ := by
    rw [hrecords] at hr
    exact (List.mem_cons.mp hr).imp_right List.mem_singleton.mp
  cases hplan
  cases hcall
  rcases hassigned with rfl | rfl
  · exact Or.inl hslot.symm
  · exact Or.inr hslot.symm

end LibcOverride.Scanf

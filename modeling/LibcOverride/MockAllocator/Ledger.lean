import LibcOverride.Lib.AssocTotal
import LibcOverride.MockAllocator.Effects

/-!
# Tracking over sequential runs

The ledger is what tracking is for: the blocks handed out by the exported
functions and not given back, with their last requested size and the number
of the call that created them. It is computed from the calls and their results
alone. The run lemma shows that registry, live counters and ids follow it.
-/

namespace LibcOverride.MockAllocator
open Word AssocTotal

/-- Size and creation number of every block handed out and not released. -/
structure Ledger where
  blocks : Assoc ℕ (ℕ × ℕ)
  created : ℕ

def Ledger.empty : Ledger := ⟨∅, 0⟩

def Ledger.map (L : Ledger) : BlockMap := fun p => L.blocks.lookup p

def Ledger.bytes (L : Ledger) : ℕ := total Prod.fst L.blocks

/-- A new block, unless the call returned NULL; the id counter starts at 1. -/
def Ledger.create (L : Ledger) (ret : ℕ) (size : ℕ) : Ledger :=
  if ret = 0 then L
  else ⟨L.blocks.insert ret (size, (1 + L.created) % 2 ^ 64), L.created + 1⟩

def Ledger.drop (L : Ledger) (ptr : ℕ) : Ledger := { L with blocks := L.blocks.erase ptr }

/-- A block of the ledger resized to `size`; a NULL result released it only
when the size was 0. -/
def Ledger.resize (L : Ledger) (ptr : ℕ) (old : ℕ × ℕ) (size : ℕ) (ret : ℕ) : Ledger :=
  if ret = 0 then if size = 0 then L.drop ptr else L
  else { L with blocks := (L.blocks.erase ptr).insert ret (size, old.2) }

def ledgerStep (L : Ledger) (c : Call) (ret : ℕ) : Ledger :=
  match c with
  | .malloc size => L.create ret size
  | .calloc nmemb size => L.create ret (nmemb * size)
  | .realloc ptr size =>
    if ptr = 0 then L.create ret size
    else match L.blocks.lookup ptr with
      | none => L
      | some old => L.resize ptr old size ret
  | .free ptr => L.drop ptr
  | _ => L

/-! ### Runs -/

/-- The block that the real allocator takes back in this call. -/
def Call.gives : Call → ℕ
  | .realloc ptr _ => ptr
  | .libcRealloc ptr _ => ptr
  | _ => 0

/-- The program releases only blocks that are allocated, so each one once, and
uses the bridge only on untracked ones. -/
def Allowed (s : State) (L : Ledger) : Call → Prop
  | .realloc ptr _ => ptr = 0 ∨ aoBootstrapContains s.bootstrap ptr ∨ ptr ∈ s.heap
  | .free ptr => ptr = 0 ∨ aoBootstrapContains s.bootstrap ptr ∨ ptr ∈ s.heap
  | .libcFree ptr => ptr = 0 ∨ ptr ∈ s.heap ∧ ptr ∉ L.blocks
  | .libcRealloc ptr _ => ptr = 0 ∨ ptr ∈ s.heap ∧ ptr ∉ L.blocks
  | _ => True

/-- The real allocator fails, or returns an address that is no slot marker,
lies outside the bootstrap heap and is not allocated. -/
def RealAnswer (s : State) (c : Call) (ans : ℕ) : Prop :=
  ans = 0 ∨ 2 ≤ ans ∧ aoBootstrapContains s.bootstrap ans = false ∧ ans ∉ s.heap.erase c.gives

inductive Reachable (ld : Loader) : State → Ledger → Prop where
  | start (b : Bootstrap) (heap : Finset ℕ) (h : ∀ a ∈ heap, 2 ≤ a) :
      Reachable ld (initState b heap) Ledger.empty
  | step (s s' : State) (L : Ledger) (c : Call) (ans ret : ℕ) (hr : Reachable ld s L)
      (ha : Allowed s L c) (hans : RealAnswer s c ans) (hs : step ld s c ans = .ret ret s') :
      Reachable ld s' (ledgerStep L c ret)

/-! ### The invariant -/

structure Tracks (c : Core) (L : Ledger) : Prop where
  outside : c.inResolver = false
  represents : Represents c.registry L.map
  allocated : ∀ p ∈ L.blocks, p ∈ c.heap
  noMarker : ∀ a ∈ c.heap, 2 ≤ a
  ordinary : ∀ p ∈ L.blocks, c.Ordinary p
  blocks : Counts c.liveBlocks L.blocks.entries.length
  bytes : Counts c.liveBytes L.bytes
  nextId : c.nextAllocationId = (1 + L.created) % 2 ^ 64
  idRange : L.created < 2 ^ 64 → ∀ p v, L.blocks.lookup p = some v → v.2 ≤ L.created
  idDistinct : L.created < 2 ^ 64 →
    ∀ p q v w, L.blocks.lookup p = some v → L.blocks.lookup q = some w → v.2 = w.2 → p = q

theorem tracks_start (b : Bootstrap) (heap : Finset ℕ) (h : ∀ a ∈ heap, 2 ≤ a) :
    Tracks (core (initState b heap)) Ledger.empty := by
  refine ⟨rfl, represents_empty, ?_, h, ?_, rfl, rfl, rfl, ?_, ?_⟩
  · intro p hp
    exact (AList.notMem_empty p hp).elim
  · intro p hp
    exact (AList.notMem_empty p hp).elim
  · intro _ p v hp
    simp [Ledger.empty] at hp
  · intro _ p q v w hp
    simp [Ledger.empty] at hp

theorem lookup_mem {L : Ledger} {p : ℕ} {v : ℕ × ℕ} (h : L.blocks.lookup p = some v) :
    p ∈ L.blocks := lookup_ne_none.mp (by rw [h]; simp)

theorem lookup_tracked {c : Core} {L : Ledger} (h : Tracks c L) {p : ℕ} {found : Option (ℕ × ℕ)}
    (hp : p ∈ c.heap) (hl : aoRegistryLookupLocked c.registry p = found) :
    L.blocks.lookup p = found := by
  rw [← hl, lookup_spec h.represents p (h.noMarker p hp)]
  rfl

theorem lookup_unordinary {c : Core} {L : Ledger} (h : Tracks c L) {p : ℕ} (hp : ¬c.Ordinary p) :
    L.blocks.lookup p = none := by
  by_contra hsome
  exact hp (h.ordinary p (lookup_ne_none.mp hsome))

theorem mark_insert {heap : Finset ℕ} {p : ℕ} (h : ∀ a ∈ heap, 2 ≤ a) (hp : 2 ≤ p) :
    ∀ a ∈ insert p heap, 2 ≤ a := by
  intro a ha
  rcases Finset.mem_insert.mp ha with rfl | hold
  · exact hp
  · exact h a hold

theorem mark_erase {heap : Finset ℕ} (h : ∀ a ∈ heap, 2 ≤ a) (p : ℕ) :
    ∀ a ∈ heap.erase p, 2 ≤ a := fun a ha => h a (Finset.mem_of_mem_erase ha)

theorem mark_null {heap : Finset ℕ} (h : ∀ a ∈ heap, 2 ≤ a) : 0 ∉ heap := by
  intro hm
  have hge := h 0 hm
  omega

theorem counts_liveUpdated {bytes n old new : ℕ} (h : Counts bytes (n + old)) :
    Counts (liveUpdated bytes old new) (n + new) := by
  unfold liveUpdated
  split
  · rename_i hgt
    have hsum : n + new = n + old + (new - old) := by omega
    rw [hsum]
    exact counts_add h (new - old)
  · split
    · rename_i hlt
      have hsum : n + old = n + new + (old - new) := by omega
      rw [hsum] at h
      exact counts_sub (old - new) h
    · have heq : old = new := by omega
      rwa [← heq]

/-- A successful creation: the ledger gains the block that the registry gained. -/
theorem tracks_create {c : Core} {L : Ledger} (h : Tracks c L) {ans : ℕ} {size : ℕ}
    (ha : 2 ≤ ans) (ho : c.Ordinary ans) (hfresh : ans ∉ c.heap)
    (hi : (aoRegistryInsertLocked c.registry ans size c.nextAllocationId).1 = true) :
    Tracks (c.track ans size) (L.create ans size) := by
  have hne : ans ≠ 0 := by omega
  have hnot : ans ∉ L.blocks := fun hm => hfresh (h.allocated ans hm)
  have hcreate : L.create ans size =
      ⟨L.blocks.insert ans (size, c.nextAllocationId), L.created + 1⟩ := by
    rw [Ledger.create, if_neg hne, h.nextId]
  rw [hcreate]
  refine ⟨h.outside, ?_, ?_, ?_, ?_, ?_, ?_, ?_, ?_, ?_⟩
  · rcases insert_spec h.represents ans size c.nextAllocationId ha with ⟨_, _, heq⟩ | ⟨_, _, hrep⟩
    · rw [heq] at hi
      cases hi
    · change Represents _ (fun q => (L.blocks.insert ans (size, c.nextAllocationId)).lookup q)
      rw [lookup_insert_update]
      exact hrep
  · intro p hp
    rcases (AList.mem_insert _).mp hp with rfl | hold
    · exact Finset.mem_insert_self _ _
    · exact Finset.mem_insert_of_mem (h.allocated p hold)
  · exact mark_insert h.noMarker ha
  · intro p hp
    rcases (AList.mem_insert _).mp hp with rfl | hold
    · exact ho
    · exact h.ordinary p hold
  · rw [length_insert _ hnot]
    exact counts_add h.blocks 1
  · rw [Ledger.bytes, total_insert _ _ hnot]
    exact counts_add h.bytes size
  · have hid := h.nextId
    simp only [Core.track, add]
    omega
  · intro hlt p v hp
    have hlt' : L.created + 1 < 2 ^ 64 := hlt
    by_cases hpa : p = ans
    · subst hpa
      rw [AList.lookup_insert] at hp
      cases hp
      have hid := h.nextId
      dsimp only
      omega
    · rw [AList.lookup_insert_ne hpa] at hp
      have hold := h.idRange (by omega) p v hp
      dsimp only
      omega
  · intro hlt p q v w hp hq hvw
    have hlt' : L.created + 1 < 2 ^ 64 := hlt
    -- the new id exceeds every id given before
    have hnew : ∀ r x, L.blocks.lookup r = some x → x.2 ≠ c.nextAllocationId := by
      intro r x hx heq
      have hold := h.idRange (by omega) r x hx
      have hid := h.nextId
      omega
    by_cases hpa : p = ans <;> by_cases hqa : q = ans
    · rw [hpa, hqa]
    · rw [hpa, AList.lookup_insert] at hp
      rw [AList.lookup_insert_ne hqa] at hq
      cases hp
      exact (hnew q w hq hvw.symm).elim
    · rw [hqa, AList.lookup_insert] at hq
      rw [AList.lookup_insert_ne hpa] at hp
      cases hq
      exact (hnew p v hp hvw).elim
    · rw [AList.lookup_insert_ne hpa] at hp
      rw [AList.lookup_insert_ne hqa] at hq
      exact h.idDistinct (by omega) p q v w hp hq hvw

/-- A tracked block leaves registry, ledger and heap together. -/
theorem tracks_untrack {c : Core} {L : Ledger} (h : Tracks c L) {ptr : ℕ} {v : ℕ × ℕ}
    (hp : 2 ≤ ptr) (hv : L.blocks.lookup ptr = some v) :
    Tracks (c.untrack ptr v.1) (L.drop ptr) := by
  have hrem := remove_spec h.represents ptr hp
  refine ⟨h.outside, ?_, ?_, ?_, ?_, ?_, ?_, h.nextId, ?_, ?_⟩
  · change Represents _ (fun q => (L.blocks.erase ptr).lookup q)
    rw [lookup_erase_update]
    exact hrem.2
  · intro p hpm
    obtain ⟨hne, hold⟩ := AList.mem_erase.mp hpm
    exact Finset.mem_erase.mpr ⟨hne, h.allocated p hold⟩
  · exact mark_erase h.noMarker ptr
  · intro p hpm
    exact h.ordinary p (AList.mem_erase.mp hpm).2
  · have hb := h.blocks
    rw [length_erase hv] at hb
    exact counts_sub 1 hb
  · have hb := h.bytes
    rw [Ledger.bytes, total_erase _ hv] at hb
    exact counts_sub v.1 hb
  · intro hlt p w hw
    by_cases hpp : p = ptr
    · subst hpp
      simp [Ledger.drop] at hw
    · simp only [Ledger.drop, AList.lookup_erase_ne hpp] at hw
      exact h.idRange hlt p w hw
  · intro hlt p q x y hx hy hxy
    by_cases hpp : p = ptr
    · subst hpp
      simp [Ledger.drop] at hx
    · by_cases hqp : q = ptr
      · subst hqp
        simp [Ledger.drop] at hy
      · simp only [Ledger.drop, AList.lookup_erase_ne hpp, AList.lookup_erase_ne hqp] at hx hy
        exact h.idDistinct hlt p q x y hx hy hxy

/-- Removing and reinserting under one lock always finds a free slot. -/
theorem reinsert_spec {t : Registry} {m : BlockMap} (h : Represents t m) {ptr ans : ℕ}
    {old : ℕ × ℕ} (size : ℕ) (hp : 2 ≤ ptr) (ha : 2 ≤ ans) (hv : m ptr = some old) :
    (aoRegistryInsertLocked (aoRegistryRemoveLocked t ptr).2 ans size old.2).1 = true ∧
      Represents (aoRegistryInsertLocked (aoRegistryRemoveLocked t ptr).2 ans size old.2).2
        (Function.update (Function.update m ptr none) ans (some (size, old.2))) := by
  have hrem := (remove_spec h ptr hp).2
  rcases insert_spec hrem ans size old.2 ha with ⟨_, hfull, _⟩ | ⟨_, hok, hrep⟩
  · exact (not_full_of_remove h (by rw [hv]; simp) hfull).elim
  · exact ⟨hok, hrep⟩

theorem tracks_retrack {c : Core} {L : Ledger} (h : Tracks c L) {ptr ans : ℕ} {old : ℕ × ℕ}
    {size : ℕ} (hp : 2 ≤ ptr) (ha : 2 ≤ ans) (ho : c.Ordinary ans)
    (hfresh : ans ∉ c.heap.erase ptr) (hv : L.blocks.lookup ptr = some old) :
    Tracks (c.retrack ptr ans old size) (L.resize ptr old size ans) := by
  have hne : ans ≠ 0 := by omega
  have hresize : L.resize ptr old size ans =
      { L with blocks := (L.blocks.erase ptr).insert ans (size, old.2) } := by
    rw [Ledger.resize, if_neg hne]
  have hnot : ans ∉ L.blocks.erase ptr := by
    intro hm
    obtain ⟨hneq, hold⟩ := AList.mem_erase.mp hm
    exact hfresh (Finset.mem_erase.mpr ⟨hneq, h.allocated ans hold⟩)
  have hlook : ∀ q, q ≠ ans → q ≠ ptr →
      ((L.blocks.erase ptr).insert ans (size, old.2)).lookup q = L.blocks.lookup q := by
    intro q hqa hqp
    rw [AList.lookup_insert_ne hqa, AList.lookup_erase_ne hqp]
  have hgone : ∀ q x, q ≠ ans →
      ((L.blocks.erase ptr).insert ans (size, old.2)).lookup q = some x →
        q ≠ ptr ∧ L.blocks.lookup q = some x := by
    intro q x hqa hx
    have hqp : q ≠ ptr := by
      rintro rfl
      rw [AList.lookup_insert_ne hqa, AList.lookup_erase] at hx
      cases hx
    exact ⟨hqp, by rw [← hlook q hqa hqp, hx]⟩
  rw [hresize]
  refine ⟨h.outside, ?_, ?_, ?_, ?_, ?_, ?_, h.nextId, ?_, ?_⟩
  · change Represents _ (fun q => ((L.blocks.erase ptr).insert ans (size, old.2)).lookup q)
    rw [lookup_insert_update, lookup_erase_update]
    exact (reinsert_spec h.represents size hp ha hv).2
  · intro p hpm
    rcases (AList.mem_insert _).mp hpm with rfl | hold
    · exact Finset.mem_insert_self _ _
    · obtain ⟨hneq, hin⟩ := AList.mem_erase.mp hold
      exact Finset.mem_insert_of_mem (Finset.mem_erase.mpr ⟨hneq, h.allocated p hin⟩)
  · exact mark_insert (mark_erase h.noMarker ptr) ha
  · intro p hpm
    rcases (AList.mem_insert _).mp hpm with rfl | hold
    · exact ho
    · exact h.ordinary p (AList.mem_erase.mp hold).2
  · have hb := h.blocks
    rw [length_erase hv] at hb
    rw [length_insert _ hnot]
    exact hb
  · have hb := h.bytes
    rw [Ledger.bytes, total_erase _ hv] at hb
    rw [Ledger.bytes, total_insert _ _ hnot]
    exact counts_liveUpdated hb
  · intro hlt p w hw
    by_cases hpa : p = ans
    · subst hpa
      rw [AList.lookup_insert] at hw
      cases hw
      exact h.idRange hlt ptr old hv
    · exact h.idRange hlt p w (hgone p w hpa hw).2
  · intro hlt p q x y hx hy hxy
    by_cases hpa : p = ans <;> by_cases hqa : q = ans
    · rw [hpa, hqa]
    · rw [hpa, AList.lookup_insert] at hx
      cases hx
      obtain ⟨hqp, hq⟩ := hgone q y hqa hy
      exact (hqp (h.idDistinct hlt ptr q old y hv hq hxy).symm).elim
    · rw [hqa, AList.lookup_insert] at hy
      cases hy
      obtain ⟨hpp, hp'⟩ := hgone p x hpa hx
      exact (hpp (h.idDistinct hlt p ptr x old hp' hv hxy)).elim
    · exact h.idDistinct hlt p q x y (hgone p x hpa hx).2 (hgone q y hqa hy).2 hxy

/-- Any change of the real heap that keeps the ledger's blocks allocated. -/
theorem tracks_heap {c : Core} {L : Ledger} (h : Tracks c L) (heap : Finset ℕ)
    (hkeep : ∀ p ∈ L.blocks, p ∈ heap) (hmark : ∀ a ∈ heap, 2 ≤ a) :
    Tracks { c with heap := heap } L :=
  ⟨h.outside, h.represents, hkeep, hmark, h.ordinary, h.blocks, h.bytes, h.nextId, h.idRange,
    h.idDistinct⟩

theorem tracks_erase {c : Core} {L : Ledger} (h : Tracks c L) {ptr : ℕ}
    (hn : ptr ∉ L.blocks) : Tracks { c with heap := c.heap.erase ptr } L := by
  refine tracks_heap h _ ?_ ?_
  · intro p hp
    exact Finset.mem_erase.mpr ⟨fun heq => hn (heq ▸ hp), h.allocated p hp⟩
  · exact mark_erase h.noMarker ptr

theorem tracks_foreign {c : Core} {L : Ledger} (h : Tracks c L) {ptr ans : ℕ} {size : ℕ}
    (hn : ptr ∉ L.blocks) (ha : ans = 0 ∨ 2 ≤ ans) : Tracks (c.foreign ptr size ans) L := by
  have hbase := tracks_erase h hn
  unfold Core.foreign
  split
  · split
    · exact hbase
    · exact h
  · rename_i hne
    refine tracks_heap h _ ?_ ?_
    · intro p hp
      exact Finset.mem_insert_of_mem (hbase.allocated p hp)
    · exact mark_insert hbase.noMarker (ha.resolve_left hne)

/-! ### Steps and runs -/

theorem create_of_creates {L : Ledger} {c : Call} {size : ℕ} (hc : c.creates = some size)
    (ret : ℕ) : ledgerStep L c ret = L.create ret size := by
  cases c with
  | malloc n =>
    cases hc
    rfl
  | calloc n m =>
    cases hc
    rfl
  | realloc ptr n =>
    simp only [Call.creates] at hc
    split at hc
    · rename_i hp
      cases hc
      simp only [ledgerStep, hp, ite_true]
    · cases hc
  | _ => cases hc

theorem gives_of_creates {c : Call} {size : ℕ} (hc : c.creates = some size) : c.gives = 0 := by
  cases c with
  | realloc ptr n =>
    simp only [Call.creates] at hc
    split at hc
    · rename_i hp
      exact hp
    · cases hc
  | libcRealloc ptr n => cases hc
  | _ => rfl

theorem contains_false {b : Bootstrap} {ptr : ℕ} (h : aoBootstrapContains b ptr = false) :
    ¬ (b.base ≤ ptr ∧ ptr < b.base + aoBootstrapHeapSize) := of_decide_eq_false h

/-- An ordinary pointer that the program may release is allocated. -/
theorem allowed_ordinary {s : State} {ptr : ℕ}
    (h : ptr = 0 ∨ aoBootstrapContains s.bootstrap ptr ∨ ptr ∈ s.heap)
    (ho : (core s).Ordinary ptr) : ptr ∈ s.heap := by
  rcases h with h0 | hb | hm
  · exact (ho.1 h0).elim
  · exact (ho.2 (of_decide_eq_true hb)).elim
  · exact hm

theorem tracks_step {ld : Loader} {s s' : State} {L : Ledger} {c : Call} {ans ret : ℕ}
    (h : Tracks (core s) L) (ha : Allowed s L c) (hans : RealAnswer s c ans)
    (hs : step ld s c ans = .ret ret s') : Tracks (core s') (ledgerStep L c ret) := by
  have h0 : 0 ∉ s.heap := mark_null h.noMarker
  have heff := step_effect h.outside h0 hs
  have hpos : ∀ {a}, RealAnswer s c a → a = 0 ∨ 2 ≤ a := fun hra => hra.imp id And.left
  have hfresh : ans ≠ 0 → 2 ≤ ans ∧ (core s).Ordinary ans ∧ ans ∉ s.heap.erase c.gives := by
    intro hne
    rcases hans with h0' | ⟨hge, hb, hnm⟩
    · exact (hne h0').elim
    · exact ⟨hge, ⟨hne, contains_false hb⟩, hnm⟩
  generalize hc' : core s' = c' at heff
  cases heff with
  | failed call _ size hc =>
    rw [create_of_creates hc, Ledger.create, if_pos rfl]
    exact h
  | created call _ size hc hne hi =>
    obtain ⟨hge, ho, hnm⟩ := hfresh hne
    rw [gives_of_creates hc, Finset.erase_eq_of_notMem h0] at hnm
    rw [create_of_creates hc]
    exact tracks_create h hge ho hnm hi
  | bootstrap ptr size _ _ hp hb =>
    have hnone := lookup_unordinary h fun ho => ho.2 hb
    simp only [ledgerStep, hp, ite_false, hnone]
    exact h
  | untracked ptr size _ hp hl =>
    have hl' := lookup_tracked h (allowed_ordinary ha hp) hl
    simp only [ledgerStep, hp.1, ite_false, hl']
    exact tracks_foreign h (AList.lookup_eq_none.mp hl') (hpos hans)
  | kept ptr size old hp hz hl =>
    have hl' := lookup_tracked h (allowed_ordinary ha hp) hl
    simp only [ledgerStep, hp.1, ite_false, hl', Ledger.resize, hz, ite_true]
    exact h
  | shrunkAway ptr old hp hl =>
    have hmem := allowed_ordinary ha hp
    have hl' := lookup_tracked h hmem hl
    simp only [ledgerStep, hp.1, ite_false, hl', Ledger.resize, ite_true]
    exact tracks_untrack h (h.noMarker ptr hmem) hl'
  | moved ptr size _ old hp hne hl hi =>
    have hmem := allowed_ordinary ha hp
    have hl' := lookup_tracked h hmem hl
    obtain ⟨hage, ho, hnm⟩ := hfresh hne
    simp only [ledgerStep, hp.1, ite_false, hl']
    exact tracks_retrack h (h.noMarker ptr hmem) hage ho hnm hl'
  | ignored ptr _ hp =>
    have hnone := lookup_unordinary h fun ho => hp.elim ho.1 ho.2
    simp only [ledgerStep, Ledger.drop, erase_absent hnone]
    exact h
  | bypassed ptr _ hp hr =>
    have hmem := allowed_ordinary ha hp
    have hrem := remove_spec h.represents ptr (h.noMarker ptr hmem)
    rw [hrem.1] at hr
    have hnone : L.blocks.lookup ptr = none := hr
    have hid : Function.update L.map ptr none = L.map := by
      rw [← hr, Function.update_eq_self]
    rw [hid] at hrem
    have hbase := tracks_erase h (AList.lookup_eq_none.mp hnone)
    simp only [ledgerStep, Ledger.drop, erase_absent hnone]
    exact ⟨hbase.outside, hrem.2, hbase.allocated, hbase.noMarker, hbase.ordinary, hbase.blocks,
      hbase.bytes, hbase.nextId, hbase.idRange, hbase.idDistinct⟩
  | released ptr _ v hp hr =>
    have hmem := allowed_ordinary ha hp
    have hge := h.noMarker ptr hmem
    rw [(remove_spec h.represents ptr hge).1] at hr
    exact tracks_untrack h hge hr
  | libcFree ptr _ _ hc =>
    rcases hc with ⟨heq, _⟩ | heq
    · rw [heq]
      exact h
    · rw [heq]
      rcases ha with h0' | ⟨_, hn⟩
      · subst h0'
        have hid : s.heap.erase 0 = s.heap := Finset.erase_eq_of_notMem h0
        simp only [core, hid]
        exact h
      · exact tracks_erase h hn
  | libcRealloc ptr size _ =>
    have hn : ptr ∉ L.blocks := by
      rcases ha with h0' | ⟨_, hn⟩
      · subst h0'
        exact fun hm => h0 (h.allocated 0 hm)
      · exact hn
    exact tracks_foreign h hn (hpos hans)
  | control call _ hc =>
    rcases hc with rfl | rfl | rfl <;> exact h

theorem tracks_run {ld : Loader} {s : State} {L : Ledger} (h : Reachable ld s L) :
    Tracks (core s) L := by
  induction h with
  | start b heap hh => exact tracks_start b heap hh
  | step s s' L c ans ret _ ha hans hs ih => exact tracks_step ih ha hans hs

/-! ### Failed calls and the fatal branch of realloc -/

/-- The calls that report a failed allocation. `realloc(p, 0)` returning NULL
is a release, not a failure. -/
def Failed (c : Call) (ret : ℕ) : Prop :=
  ret = 0 ∧ match c with
    | .malloc _ => True
    | .calloc _ _ => True
    | .realloc ptr size => ptr = 0 ∨ size ≠ 0
    | _ => False

theorem failed_unchanged {ld : Loader} {s s' : State} {L : Ledger} {c : Call} {ans ret : ℕ}
    (h : Tracks (core s) L) (hs : step ld s c ans = .ret ret s') (hf : Failed c ret) :
    s'.registry = s.registry ∧ s'.stats.liveBlocks = s.stats.liveBlocks ∧
      s'.stats.liveBytes = s.stats.liveBytes := by
  obtain ⟨hret, hc⟩ := hf
  have h0 : 0 ∉ s.heap := mark_null h.noMarker
  have heff := step_effect h.outside h0 hs
  have hsame : (core s').registry = (core s).registry ∧
      (core s').liveBlocks = (core s).liveBlocks ∧ (core s').liveBytes = (core s).liveBytes := by
    generalize core s' = c' at heff
    subst hret
    cases heff with
    | failed _ _ size _ => exact ⟨rfl, rfl, rfl⟩
    | created _ _ size _ hne _ => exact (hne rfl).elim
    | bootstrap ptr size _ _ _ _ => exact ⟨rfl, rfl, rfl⟩
    | untracked ptr size _ _ =>
      unfold Core.foreign
      split
      · split <;> exact ⟨rfl, rfl, rfl⟩
      · exact ⟨rfl, rfl, rfl⟩
    | kept ptr size old _ _ _ => exact ⟨rfl, rfl, rfl⟩
    | shrunkAway ptr old hp hl =>
      rcases hc with hp0 | hz
      · exact (hp.1 hp0).elim
      · exact (hz rfl).elim
    | moved ptr size _ old _ hne _ _ => exact (hne rfl).elim
    | ignored | bypassed | released | libcFree | libcRealloc => exact hc.elim
    | control => exact ⟨rfl, rfl, rfl⟩
  exact hsame

theorem realloc_not_exhausted {ld : Loader} {s : State} {L : Ledger} {ptr size ans : ℕ}
    (h : Tracks (core s) L) (ha : Allowed s L (.realloc ptr size))
    (hans : RealAnswer s (.realloc ptr size) ans) :
    realloc ld s ptr size ans ≠ .exit .exhaustedRealloc := by
  intro hex
  have hout : s.inResolver = false := h.outside
  rw [realloc, if_neg (by simp [hout])] at hex
  split at hex
  · cases hex
  · rename_i hb
    rcases Outcome.bind_eq_exit hex with hens | ⟨u, s1, he, hk⟩
    · have hw := ensure_exit hens
      cases hw
    · have hcore := ensure_core hout he
      by_cases hp : ptr = 0
      · rw [if_pos hp] at hk
        have hw := reallocNull_exit hk
        cases hw
      · rw [if_neg hp] at hk
        split at hk
        · cases hk
        · rename_i old hl
          obtain ⟨hne, hins⟩ := reallocTracked_exit hk
          have hrep : Represents s.registry L.map := h.represents
          have hmem := allowed_ordinary ha ⟨hp, mt decide_eq_true hb⟩
          have hage : 2 ≤ ans := hans.elim (fun h0 => (hne h0).elim) And.left
          rw [core_registry hcore] at hl hins
          have hl' := lookup_tracked h hmem hl
          -- the entry just removed left a slot for the insertion
          have hroom := (reinsert_spec hrep size (h.noMarker ptr hmem) hage hl').1
          rw [hins] at hroom
          cases hroom

/-! ### The result -/

/-- In every state a sequential run reaches: the live entries of the registry
are the blocks of the ledger, each with its last size and the id of its
creation; ids of live blocks differ while the id counter has not wrapped; both
live counters agree with the ledger; a failed call changes neither registry
nor live counters; and `realloc` never exhausts the registry. -/
theorem tracking_exact {ld : Loader} {s : State} {L : Ledger} (h : Reachable ld s L) :
    (∀ p v, (∃ j < aoRegistryCapacity, decode (s.registry j) = .live p v) ↔
      L.blocks.lookup p = some v) ∧
    (∀ p, 2 ≤ p → aoRegistryLookupLocked s.registry p = L.blocks.lookup p) ∧
    (L.created < 2 ^ 64 → ∀ p q v w, L.blocks.lookup p = some v → L.blocks.lookup q = some w →
      v.2 = w.2 → p = q) ∧
    s.stats.liveBlocks = L.blocks.keys.length ∧
    s.stats.liveBytes = (L.blocks.entries.map fun e => e.2.1).sum % 2 ^ 64 ∧
    (∀ c ans ret s', Allowed s L c → RealAnswer s c ans → step ld s c ans = .ret ret s' →
      Failed c ret → s'.registry = s.registry ∧ s'.stats.liveBlocks = s.stats.liveBlocks ∧
        s'.stats.liveBytes = s.stats.liveBytes) ∧
    (∀ ptr size ans, Allowed s L (.realloc ptr size) → RealAnswer s (.realloc ptr size) ans →
      realloc ld s ptr size ans ≠ .exit .exhaustedRealloc) := by
  have ht := tracks_run h
  refine ⟨?_, lookup_spec ht.represents, ht.idDistinct, ?_, ht.bytes, ?_, ?_⟩
  · intro p v
    have hb := ht.represents.binds p v
    refine Iff.trans ?_ hb.symm
    constructor
    · rintro ⟨j, hj, hd⟩
      exact ⟨⟨j, hj⟩, hd⟩
    · rintro ⟨j, hd⟩
      exact ⟨j.val, j.isLt, hd⟩
  · -- at most 65536 keys, so the modulus does nothing
    have hle := represents_ncard_le ht.represents
    rw [show {k | L.map k ≠ none} = {p | L.blocks.lookup p ≠ none} from rfl, ncard_keys] at hle
    have hblocks : s.stats.liveBlocks = L.blocks.entries.length % 2 ^ 64 := ht.blocks
    have hkeys : L.blocks.keys.length = L.blocks.entries.length := List.length_map _
    rw [hblocks, hkeys]
    exact Nat.mod_eq_of_lt (hle.trans_lt (by decide))
  · intro c ans ret s' _ _ hs hf
    exact failed_unchanged ht hs hf
  · intro ptr size ans ha hans
    exact realloc_not_exhausted ht ha hans

/-! A short run for the examples below: the loader allocates once while it
resolves symbols, one block is created and then moved. -/

def sampleBootstrap : Bootstrap := ⟨4096, Nat.succ_pos 4095, fun _ => 0, 0⟩

def sampleLoader : Loader := ⟨true, true, true, true, [.malloc 32]⟩

theorem tracking_exact_sample : ∃ s L, Reachable sampleLoader s L ∧
    L.blocks.lookup 2097152 = some (24, 1) ∧ s.stats.liveBlocks = L.blocks.keys.length := by
  have h0 : Reachable sampleLoader _ _ := .start sampleBootstrap ∅ (by simp)
  have h1 := Reachable.step _ _ _ (.malloc 8) 1048576 _ h0 trivial
    (Or.inr ⟨by decide, by decide, by decide⟩) rfl
  have h2 := Reachable.step _ _ _ (.realloc 1048576 24) 2097152 _ h1
    (Or.inr (Or.inr (by decide))) (Or.inr ⟨by decide, by decide, by decide⟩) rfl
  exact ⟨_, _, h2, rfl, (tracking_exact h2).2.2.2.1⟩

end LibcOverride.MockAllocator

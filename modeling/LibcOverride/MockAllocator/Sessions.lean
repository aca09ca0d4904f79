import LibcOverride.MockAllocator.Ledger

/-!
# Calls one after the other

What another part of the library does to the allocator, as the calls that it
makes and the answers of the real allocator to them.
-/

namespace LibcOverride.MockAllocator
open AssocTotal

/-- The program may make these calls and the real allocator may answer so. The
result is where that leads, or `none` where a call ends the process. -/
inductive Plays (ld : Loader) :
    State → Ledger → List (Call × ℕ) → Option (State × Ledger) → Prop
  | done (s : State) (L : Ledger) : Plays ld s L [] (some (s, L))
  | exit {s : State} {L : Ledger} {c : Call} {ans : ℕ} {cs : List (Call × ℕ)} {why : Fatal}
      (ha : Allowed s L c) (hans : RealAnswer s c ans) (hs : step ld s c ans = .exit why) :
      Plays ld s L ((c, ans) :: cs) none
  | call {s s' : State} {L : Ledger} {c : Call} {ans ret : ℕ} {cs : List (Call × ℕ)}
      {out : Option (State × Ledger)} (ha : Allowed s L c) (hans : RealAnswer s c ans)
      (hs : step ld s c ans = .ret ret s') (h : Plays ld s' (ledgerStep L c ret) cs out) :
      Plays ld s L ((c, ans) :: cs) out

variable {ld : Loader} {s s' : State} {L L' : Ledger} {cs ds : List (Call × ℕ)}
  {out : Option (State × Ledger)} {size ptr ans : ℕ}

theorem plays_append (h : Plays ld s L cs (some (s', L'))) (h' : Plays ld s' L' ds out) :
    Plays ld s L (cs ++ ds) out := by
  generalize hmid : some (s', L') = mid at h
  induction h with
  | done s L =>
    cases hmid
    exact h'
  | exit ha hans hs => cases hmid
  | call ha hans hs h ih => exact .call ha hans hs (ih hmid)

theorem plays_exit (h : Plays ld s L cs none) (ds : List (Call × ℕ)) :
    Plays ld s L (cs ++ ds) none := by
  generalize hout : none = out at h
  induction h with
  | done s L => cases hout
  | exit ha hans hs => exact .exit ha hans hs
  | call ha hans hs h ih => exact .call ha hans hs (ih hout)

theorem plays_tracks (h : Tracks (core s) L) (hp : Plays ld s L cs (some (s', L'))) :
    Tracks (core s') L' := by
  generalize hout : some (s', L') = out at hp
  induction hp with
  | done s L =>
    cases hout
    exact h
  | exit ha hans hs => cases hout
  | call ha hans hs hp ih => exact ih (tracks_step h ha hans hs) hout

/-! ### One call -/

theorem ensure_resolved {ld : Loader} {s : State} (h : s.resolved = true) :
    aoEnsureRealFunctions ld s = .ret () s := if_pos h

theorem resolverCalls_resolved (rs : List Request) (s : State) :
    (rs.foldl resolverCall s).resolved = s.resolved := by
  induction rs generalizing s with
  | nil => rfl
  | cons r rs ih =>
    rw [List.foldl_cons, ih]
    cases r with
    | calloc nmemb size =>
      simp only [resolverCall, resolverCalloc]
      split <;> rfl
    | _ => rfl

theorem ensure_resolves {ld : Loader} {s s' : State} {u : Unit}
    (h : aoEnsureRealFunctions ld s = .ret u s') : s'.resolved = true := by
  unfold aoEnsureRealFunctions at h
  split at h
  · rename_i hres
    cases h
    exact hres
  · unfold aoResolveRealFunctions at h
    dsimp only at h
    split at h
    · cases h
      exact resolverCalls_resolved ld.requests _
    · cases h

theorem core_heap (h : core s' = core s) : s'.heap = s.heap := congrArg Core.heap h

theorem core_base (h : core s' = core s) : s'.bootstrap.base = s.bootstrap.base :=
  congrArg Core.base h

/-- What a `malloc` returns is what the real one answered. -/
theorem malloc_plays (ld : Loader) (h : Tracks (core s) L) (hans : RealAnswer s (.malloc size) ans) :
    Plays ld s L [(.malloc size, ans)] none ∨
      ∃ s', Plays ld s L [(.malloc size, ans)] (some (s', L.create ans size)) ∧
        s'.heap = (if ans = 0 then s.heap else insert ans s.heap) ∧
        s'.bootstrap.base = s.bootstrap.base := by
  cases hs : step ld s (.malloc size) ans with
  | exit why => exact Or.inl (.exit trivial hans hs)
  | ret ret s' =>
    right
    have hr : s.inResolver = false := h.outside
    have hcall : malloc ld s size ans = .ret ret s' := hs
    simp only [malloc, hr, Bool.false_eq_true, ite_false] at hcall
    obtain ⟨u, s₁, hens, hk⟩ := Outcome.bind_eq_ret hcall
    have hcore := ensure_core hr hens
    by_cases hz : ans = 0
    · rw [if_pos hz] at hk
      cases hk
      have hcore' : core (aoRecordFailedAllocation (realAlloc s₁ ans)) = core s := by
        rw [core_recordFailed, core_realAlloc_null _ hz, hcore]
      have hallowed : Allowed s L (.malloc size) := trivial
      have hplays := Plays.call hallowed hans hs (Plays.done _ _)
      subst hz
      exact ⟨_, hplays, core_heap hcore', core_base hcore'⟩
    · rw [if_neg hz, realAlloc_some hz] at hk
      obtain ⟨v, s₂, htrack, hret⟩ := Outcome.bind_eq_ret hk
      obtain ⟨_, hcore₂⟩ := track_core htrack
      cases hret
      have hcore' : core (aoRecordSuccessfulAllocation s₂ 0 size) =
          { (core { s₁ with heap := insert ans s₁.heap }).track ans size with
            heap := insert ans s₁.heap } := by
        rw [core_recordSuccessful, hcore₂]
      have hallowed : Allowed s L (.malloc size) := trivial
      refine ⟨_, Plays.call hallowed hans hs (Plays.done _ _), ?_, ?_⟩
      · rw [if_neg hz, ← core_heap hcore]
        exact congrArg Core.heap hcore'
      · rw [← core_base hcore]
        exact congrArg Core.base hcore'

/-- The bridge's `free` of a block that is not tracked. -/
theorem libcFree_plays (ld : Loader) (h : Tracks (core s) L) (hp : ptr ∈ s.heap)
    (hn : ptr ∉ L.blocks) :
    Plays ld s L [(.libcFree ptr, 0)] none ∨
      ∃ s', Plays ld s L [(.libcFree ptr, 0)] (some (s', L)) ∧ s'.heap = s.heap.erase ptr ∧
        s'.bootstrap.base = s.bootstrap.base := by
  have hallowed : Allowed s L (.libcFree ptr) := Or.inr ⟨hp, hn⟩
  have hans : RealAnswer s (.libcFree ptr) 0 := Or.inl rfl
  have hptr : ptr ≠ 0 := by
    have hge := h.noMarker ptr hp
    omega
  cases hs : step ld s (.libcFree ptr) 0 with
  | exit why => exact Or.inl (.exit hallowed hans hs)
  | ret ret s' =>
    right
    obtain ⟨u, s₁, hfree, hk⟩ := Outcome.bind_eq_ret hs
    cases hk
    rw [aoAllocBridgeLibcFree, if_neg hptr] at hfree
    obtain ⟨v, s₂, hens, hret⟩ := Outcome.bind_eq_ret hfree
    have hcore := ensure_core h.outside hens
    cases hret
    refine ⟨_, Plays.call hallowed hans hs (Plays.done _ _), ?_, ?_⟩
    · rw [← core_heap hcore]
      rfl
    · rw [← core_base hcore]
      rfl

theorem realAlloc_resolved (s : State) (ans : ℕ) : (realAlloc s ans).resolved = s.resolved := by
  unfold realAlloc
  split <;> rfl

theorem track_resolved {u : Unit} (h : aoTrackAllocationOrDie s ptr size = .ret u s') :
    s'.resolved = s.resolved := by
  unfold aoTrackAllocationOrDie at h
  dsimp only [aoNextAllocationId] at h
  split at h
  · cases h
  · cases h
    rw [aoLiveAdd, mapStats]

theorem malloc_resolved {p : ℕ} (hr : s.inResolver = false)
    (hm : malloc ld s size ans = .ret p s') : s'.resolved = true := by
  simp only [malloc, hr, Bool.false_eq_true, ite_false] at hm
  obtain ⟨u, s₁, hens, hk⟩ := Outcome.bind_eq_ret hm
  have hres := ensure_resolves hens
  split at hk
  · cases hk
    rw [← realAlloc_resolved s₁ ans] at hres
    unfold aoRecordFailedAllocation
    split
    · rw [mapStats, hres]
    · exact hres
  · obtain ⟨v, s₂, htrack, hret⟩ := Outcome.bind_eq_ret hk
    have hres₂ := (track_resolved htrack).trans ((realAlloc_resolved s₁ ans).trans hres)
    cases hret
    unfold aoRecordSuccessfulAllocation
    split
    · exact hres₂
    · rw [mapStats, hres₂]

/-- What a `malloc` gives is new. -/
theorem malloc_ret {p : ℕ} (h : Tracks (core s) L) (hans : RealAnswer s (.malloc size) ans)
    (hm : malloc ld s size ans = .ret p s') :
    p = 0 ∧ s'.heap = s.heap ∨ 2 ≤ p ∧ p ∉ s.heap ∧ s'.heap = insert p s.heap := by
  have h0 : 0 ∉ s.heap := mark_null h.noMarker
  have heff := malloc_effect h.outside hm
  generalize hc' : core s' = c' at heff
  cases heff with
  | failed _ _ _ hc => exact Or.inl ⟨rfl, congrArg Core.heap hc'⟩
  | created _ _ n hc hne hi =>
    obtain ⟨hge, -, hnew⟩ := hans.resolve_left hne
    rw [gives_of_creates hc, Finset.erase_eq_of_notMem h0] at hnew
    exact Or.inr ⟨hge, hnew, congrArg Core.heap hc'⟩
  | control _ _ hc => rcases hc with hc | hc | hc <;> cases hc

/-- The last steps of `free`. -/
def freed (s : State) (ptr : ℕ) (entry : Option (ℕ × ℕ)) : State :=
  let s := aoRecordFree s entry.isNone
  realFree (match entry with
    | some v => aoLiveRemove s v.1
    | none => s) ptr

theorem freed_kept (s : State) (ptr : ℕ) (entry : Option (ℕ × ℕ)) :
    (freed s ptr entry).heap = s.heap.erase ptr ∧ (freed s ptr entry).resolved = s.resolved := by
  have hheap := core_heap (core_recordFree s entry.isNone)
  have hres : (aoRecordFree s entry.isNone).resolved = s.resolved := by
    unfold aoRecordFree
    split <;> rfl
  rw [← hheap, ← hres]
  cases entry with
  | none => exact ⟨rfl, rfl⟩
  | some v =>
    constructor
    · rw [freed, realFree, aoLiveRemove, mapStats]
    · rw [freed, realFree, aoLiveRemove, mapStats]

/-- A tracked block is given back. -/
theorem free_plays (ld : Loader) (h : Tracks (core s) L) (hres : s.resolved = true)
    (hp : ptr ∈ L.blocks) :
    ∃ s', Plays ld s L [(.free ptr, 0)] (some (s', L.drop ptr)) ∧ s'.heap = s.heap.erase ptr ∧
      s'.resolved = true := by
  have hr : s.inResolver = false := h.outside
  have hheap : ptr ∈ s.heap := h.allocated ptr hp
  have hptr : ptr ≠ 0 := (h.ordinary ptr hp).1
  have hoff : aoBootstrapContains s.bootstrap ptr = false :=
    decide_eq_false (h.ordinary ptr hp).2
  have hallowed : Allowed s L (.free ptr) := Or.inr (Or.inr hheap)
  have hans : RealAnswer s (.free ptr) 0 := Or.inl rfl
  have hfree : free ld s ptr =
      .ret () (freed { s with registry := (aoRegistryRemoveLocked s.registry ptr).2 } ptr
        (aoRegistryRemoveLocked s.registry ptr).1) := by
    unfold free
    rw [if_neg hptr, if_neg (by simp [hoff]), if_neg (by simp [hr]), ensure_resolved hres]
    rfl
  obtain ⟨s', hs, hheap', hres'⟩ : ∃ s', free ld s ptr = .ret () s' ∧
      s'.heap = s.heap.erase ptr ∧ s'.resolved = s.resolved := ⟨_, hfree, freed_kept _ _ _⟩
  have hstep : step ld s (.free ptr) 0 = .ret 0 s' := by rw [step, hs, Outcome.bind]
  exact ⟨s', .call hallowed hans hstep (.done _ _), hheap', hres'.trans hres⟩

/-- Tracked blocks are given back in any order. -/
theorem frees_play (ld : Loader) {order : List ℕ} (h : Tracks (core s) L)
    (hres : order ≠ [] → s.resolved = true) (hnodup : order.Nodup)
    (hin : ∀ p ∈ order, p ∈ L.blocks) :
    ∃ s', Plays ld s L (order.map fun p => (.free p, 0)) (some (s', order.foldl Ledger.drop L)) ∧
      s'.heap = s.heap \ order.toFinset := by
  induction order generalizing s L with
  | nil => exact ⟨s, .done s L, by simp⟩
  | cons p order ih =>
    obtain ⟨hp, hnodup⟩ := List.nodup_cons.mp hnodup
    obtain ⟨s₁, hplay, hheap, hres₁⟩ := free_plays ld h (hres (List.cons_ne_nil _ _))
      (hin p (List.mem_cons_self ..))
    obtain ⟨s', hplays, hheap'⟩ := ih (plays_tracks h hplay) (fun _ => hres₁) hnodup fun q hq =>
      AList.mem_erase.mpr ⟨fun heq => hp (heq ▸ hq), hin q (List.mem_cons_of_mem p hq)⟩
    refine ⟨s', plays_append hplay hplays, ?_⟩
    rw [hheap', hheap, List.toFinset_cons]
    ext q
    simp only [Finset.mem_sdiff, Finset.mem_erase, Finset.mem_insert]
    tauto

theorem lookup_drops (order : List ℕ) (L : Ledger) (q : ℕ) :
    (order.foldl Ledger.drop L).blocks.lookup q =
      if q ∈ order then none else L.blocks.lookup q := by
  induction order generalizing L with
  | nil => simp
  | cons p order ih =>
    rw [List.foldl_cons, ih]
    by_cases hq : q ∈ order
    · rw [if_pos hq, if_pos (List.mem_cons_of_mem p hq)]
    · rw [if_neg hq]
      by_cases hqp : q = p
      · rw [hqp, if_pos (List.mem_cons_self ..), Ledger.drop, AList.lookup_erase]
      · rw [if_neg (by simp [hqp, hq]), Ledger.drop, AList.lookup_erase_ne hqp]

/-- The live counters are what the ledger's lookups say. -/
theorem live_congr (h : Tracks (core s) L) (h' : Tracks (core s') L') (hmap : L.map = L'.map) :
    s.stats.liveBlocks = s'.stats.liveBlocks ∧ s.stats.liveBytes = s'.stats.liveBytes := by
  have hlookup (p : ℕ) : L.blocks.lookup p = L'.blocks.lookup p := congrFun hmap p
  have hblocks := h.blocks
  have hbytes := h.bytes
  rw [Ledger.bytes, total_congr Prod.fst hlookup] at hbytes
  rw [(entries_perm hlookup).length_eq] at hblocks
  exact ⟨hblocks.trans h'.blocks.symm, hbytes.trans h'.bytes.symm⟩

end LibcOverride.MockAllocator

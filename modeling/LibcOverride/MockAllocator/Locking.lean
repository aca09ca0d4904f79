import LibcOverride.Lib.LockedSections
import LibcOverride.MockAllocator.Interleaving

/-!
# The registry lock (src/mock_allocator.c:165-278, 408-420, 571-651)

The calls once more, with `g_registry_lock` as the flag it is. A thread spins
until it has the flag; inside, probing a slot and storing one field of an entry
are steps of their own, and threads outside run between them. A thread that
finds the registry full unlocks before it ends the process.
-/

namespace LibcOverride.MockAllocator
open Word AssocTotal LockedSections

/-! ### The sections, one access at a time -/

/-- One assignment to a field of a registry entry. -/
inductive FieldStore where
  | key (key : ℕ)
  | requestedSize (size : ℕ)
  | allocationId (id : ℕ)
  deriving Repr, DecidableEq

def FieldStore.apply (e : AoRegistryEntry) : FieldStore → AoRegistryEntry
  | .key k => { e with key := k }
  | .requestedSize size => { e with requestedSize := size }
  | .allocationId id => { e with allocationId := id }

def storeField (t : Registry) (slot : ℕ) (f : FieldStore) : Registry :=
  Function.update t slot (f.apply (t slot))

/-- What a removal is part of. -/
inductive Removal where
  | free
  | realloc (size : ℕ) (old : ℕ × ℕ) (newPtr : ℕ)
  deriving Repr, DecidableEq

/-- A place in a section: `n` rounds of the loop left, the `i`-th probe next. An
insertion leads to `next`, or to `full`. -/
inductive Place where
  | takeId (kind size block : ℕ)
  | insert (key size id n i firstTombstone : ℕ) (next full : Pc)
  | lookup (ptr size was n i : ℕ)
  | remove (key n i : ℕ) (task : Removal)
  | stores (slot : ℕ) (fields : List FieldStore) (next : Place)
  | unlock (next : Pc)
  deriving Repr, DecidableEq

def insertPlace (key size id : ℕ) (next full : Pc) : Place :=
  .insert key size id aoRegistryCapacity 0 aoRegistryCapacity next full

def entryStores (key size id : ℕ) : List FieldStore :=
  [.key key, .requestedSize size, .allocationId id]

/-! What a call does after its section, as in `advance`. -/

def afterInsert (kind size block : ℕ) : Pc :=
  updatesThen (liveAddUpdates size) (.record (.successful kind size) (.ret (some (block, size))))

def afterLookup (ptr size was : ℕ) : Option (ℕ × ℕ) → Pc
  | some old => .reallocReal ptr size was (some old)
  | none => .record (.realloc true) (.reallocReal ptr size was none)

def afterFree (ptr : ℕ) (found : Option (ℕ × ℕ)) : Pc :=
  .record (.free found.isNone) (match found with
    | some v => updatesThen (liveRemoveUpdates v.1) (.freeReal ptr)
    | none => .freeReal ptr)

def afterRelease (old : ℕ × ℕ) : Pc :=
  .record (.realloc false) (updatesThen (liveRemoveUpdates old.1) (.ret none))

def afterSwap (size : ℕ) (old : ℕ × ℕ) (newPtr : ℕ) : Pc :=
  .record (.realloc false)
    (updatesThen (liveUpdateUpdates old.1 size) (.ret (some (newPtr, size))))

def Removal.next (ptr : ℕ) (found : Option (ℕ × ℕ)) : Removal → Place
  | .free => .unlock (afterFree ptr found)
  | .realloc size old newPtr =>
    if newPtr = 0 then .unlock (afterRelease old)
    else insertPlace newPtr size old.2 (afterSwap size old newPtr) (.fatal (some old.1))

def Pc.enter : Pc → Option Place
  | .track kind size block => some (.takeId kind size block)
  | .freeRemove ptr _ => some (.remove ptr aoRegistryCapacity 0 .free)
  | .reallocLookup ptr size was => some (.lookup ptr size was aoRegistryCapacity 0)
  | .reallocSwap ptr size old newPtr =>
    some (.remove ptr aoRegistryCapacity 0 (.realloc size old newPtr))
  | _ => none

/-- One access to the registry, or to the counter of the allocation ids. -/
def Place.round : Place → Registry × ℕ → (Registry × ℕ) × (Place ⊕ Pc)
  | .takeId kind size block, (t, id) =>
    ((t, add id 1), .inl (insertPlace block size id (afterInsert kind size block) (.fatal none)))
  | .insert key size id 0 _ firstTombstone next full, r =>
    if firstTombstone ≠ aoRegistryCapacity then
      (r, .inl (.stores firstTombstone (entryStores key size id) (.unlock next)))
    else (r, .inl (.unlock full))
  | .insert key size id (n + 1) i firstTombstone next full, r =>
    let slot := probe (aoRegistryIndexFor key) i
    if (r.1 slot).key = key then
      (r, .inl (.stores slot [.requestedSize size, .allocationId id] (.unlock next)))
    else if (r.1 slot).key = aoRegistryTombstone ∧ firstTombstone = aoRegistryCapacity then
      (r, .inl (.insert key size id n (i + 1) slot next full))
    else if (r.1 slot).key = aoRegistryEmpty then
      (r, .inl (.stores (if firstTombstone = aoRegistryCapacity then slot else firstTombstone)
        (entryStores key size id) (.unlock next)))
    else (r, .inl (.insert key size id n (i + 1) firstTombstone next full))
  | .lookup ptr size was 0 _, r => (r, .inl (.unlock (afterLookup ptr size was none)))
  | .lookup ptr size was (n + 1) i, r =>
    let e := r.1 (probe (aoRegistryIndexFor ptr) i)
    if e.key = aoRegistryEmpty then (r, .inl (.unlock (afterLookup ptr size was none)))
    else if e.key = ptr then
      (r, .inl (.unlock (afterLookup ptr size was (some (e.requestedSize, e.allocationId)))))
    else (r, .inl (.lookup ptr size was n (i + 1)))
  | .remove key 0 _ task, r => (r, .inl (task.next key none))
  | .remove key (n + 1) i task, r =>
    let slot := probe (aoRegistryIndexFor key) i
    if (r.1 slot).key = aoRegistryEmpty then (r, .inl (task.next key none))
    else if (r.1 slot).key = key then
      (r, .inl (.stores slot (entryStores aoRegistryTombstone 0 0)
        (task.next key (some ((r.1 slot).requestedSize, (r.1 slot).allocationId)))))
    else (r, .inl (.remove key n (i + 1) task))
  | .stores _ [] next, r => (r, .inl next)
  | .stores slot (f :: fields) next, (t, id) =>
    ((storeField t slot f, id), .inl (.stores slot fields next))
  | .unlock next, r => (r, .inr next)

/-! ### What is left of a section, in one go -/

def finishInsert (r : Bool × Registry) (id : ℕ) (next full : Pc) : (Registry × ℕ) × Pc :=
  ((r.2, id), if r.1 = false then full else next)

def finishRemove (key : ℕ) (r : Option (ℕ × ℕ) × Registry) (id : ℕ) :
    Removal → (Registry × ℕ) × Pc
  | .free => ((r.2, id), afterFree key r.1)
  | .realloc size old newPtr =>
    if newPtr = 0 then ((r.2, id), afterRelease old)
    else finishInsert (aoRegistryInsertLocked r.2 newPtr size old.2) id (afterSwap size old newPtr)
      (.fatal (some old.1))

def Place.finish : Place → Registry × ℕ → (Registry × ℕ) × Pc
  | .takeId kind size block, r =>
    finishInsert (aoRegistryInsertLocked r.1 block size r.2) (add r.2 1)
      (afterInsert kind size block) (.fatal none)
  | .insert key size id n i firstTombstone next full, r =>
    finishInsert (insertLoop r.1 key size id (aoRegistryIndexFor key) n i firstTombstone) r.2
      next full
  | .lookup ptr size was n i, r =>
    (r, afterLookup ptr size was (lookupLoop r.1 ptr (aoRegistryIndexFor ptr) n i))
  | .remove key n i task, r =>
    finishRemove key (removeLoop r.1 key (aoRegistryIndexFor key) n i) r.2 task
  | .stores slot fields next, r =>
    next.finish (fields.foldl (fun t f => storeField t slot f) r.1, r.2)
  | .unlock next, r => (r, next)

theorem stores_entry (t : Registry) (slot key size id : ℕ) :
    (entryStores key size id).foldl (fun t f => storeField t slot f) t =
      Function.update t slot ⟨key, size, id⟩ := by
  simp only [entryStores, List.foldl_cons, List.foldl_nil, storeField, FieldStore.apply,
    Function.update_self, Function.update_idem]

theorem stores_value (t : Registry) (slot size id : ℕ) :
    [FieldStore.requestedSize size, .allocationId id].foldl (fun t f => storeField t slot f) t =
      Function.update t slot { t slot with requestedSize := size, allocationId := id } := by
  simp only [List.foldl_cons, List.foldl_nil, storeField, FieldStore.apply,
    Function.update_self, Function.update_idem]

theorem finish_next (key : ℕ) (found : Option (ℕ × ℕ)) (task : Removal) (r : Registry × ℕ) :
    (task.next key found).finish r = finishRemove key (found, r.1) r.2 task := by
  cases task with
  | free => rfl
  | realloc size old newPtr =>
    by_cases h : newPtr = 0
    · simp only [Removal.next, finishRemove, if_pos h]
      rfl
    · simp only [Removal.next, finishRemove, if_neg h]
      rfl

theorem finish_stores (t : Registry) (id slot : ℕ) (fields : List FieldStore) (next : Place) :
    (Place.stores slot fields next).finish (t, id) =
      next.finish (fields.foldl (fun t f => storeField t slot f) t, id) := rfl

theorem finish_unlock (r : Registry × ℕ) (next : Pc) :
    (Place.unlock next).finish r = (r, next) := rfl

theorem insert_round {key size id' n i first : ℕ} {next full : Pc} {p' : Place}
    {r r' : Registry × ℕ}
    (h : (Place.insert key size id' n i first next full).round r = (r', .inl p')) :
    p'.finish r' = (Place.insert key size id' n i first next full).finish r := by
  obtain ⟨t, id⟩ := r
  cases n with
  | zero =>
    simp only [Place.round] at h
    split at h
    · rename_i hf
      cases h
      rw [finish_stores, stores_entry, finish_unlock]
      simp only [Place.finish, insertLoop, if_pos hf, finishInsert]
      rfl
    · rename_i hf
      cases h
      rw [finish_unlock]
      simp only [Place.finish, insertLoop, if_neg hf, finishInsert]
      rfl
  | succ n =>
    simp only [Place.round] at h
    split at h
    · rename_i hkey
      cases h
      rw [finish_stores, stores_value, finish_unlock]
      simp only [Place.finish, insertLoop, if_pos hkey, finishInsert]
      rfl
    · rename_i hkey
      split at h
      · rename_i htomb
        cases h
        simp only [Place.finish, insertLoop, if_neg hkey, if_pos htomb]
      · rename_i htomb
        split at h
        · rename_i hempty
          cases h
          rw [finish_stores, stores_entry, finish_unlock]
          simp only [Place.finish, insertLoop, if_neg hkey, if_neg htomb, if_pos hempty,
            finishInsert]
          rfl
        · rename_i hempty
          cases h
          simp only [Place.finish, insertLoop, if_neg hkey, if_neg htomb, if_neg hempty]

theorem lookup_round {ptr size was n i : ℕ} {p' : Place} {r r' : Registry × ℕ}
    (h : (Place.lookup ptr size was n i).round r = (r', .inl p')) :
    p'.finish r' = (Place.lookup ptr size was n i).finish r := by
  cases n with
  | zero =>
    cases h
    rfl
  | succ n =>
    simp only [Place.round] at h
    split at h
    · rename_i hempty
      cases h
      simp only [Place.finish, lookupLoop, if_pos hempty]
    · rename_i hempty
      split at h
      · rename_i hkey
        cases h
        simp only [Place.finish, lookupLoop, if_neg hempty, if_pos hkey]
      · rename_i hkey
        cases h
        simp only [Place.finish, lookupLoop, if_neg hempty, if_neg hkey]

theorem remove_round {key n i : ℕ} {task : Removal} {p' : Place} {r r' : Registry × ℕ}
    (h : (Place.remove key n i task).round r = (r', .inl p')) :
    p'.finish r' = (Place.remove key n i task).finish r := by
  obtain ⟨t, id⟩ := r
  cases n with
  | zero =>
    cases h
    exact finish_next key none task (t, id)
  | succ n =>
    simp only [Place.round] at h
    split at h
    · rename_i hempty
      cases h
      rw [finish_next]
      simp only [Place.finish, removeLoop, if_pos hempty]
    · rename_i hempty
      split at h
      · rename_i hkey
        cases h
        rw [finish_stores, stores_entry, finish_next]
        simp only [Place.finish, removeLoop, if_neg hempty, if_pos hkey]
      · rename_i hkey
        cases h
        simp only [Place.finish, removeLoop, if_neg hempty, if_neg hkey]

/-- A round does what the loops of the sequential functions do next. -/
theorem finish_round (p p' : Place) (r r' : Registry × ℕ) (h : p.round r = (r', .inl p')) :
    p'.finish r' = p.finish r := by
  cases p with
  | takeId kind size block =>
    cases h
    rfl
  | insert key size id n i first next full => exact insert_round h
  | lookup ptr size was n i => exact lookup_round h
  | remove key n i task => exact remove_round h
  | stores slot fields next =>
    cases fields with
    | nil =>
      cases h
      rfl
    | cons f fields =>
      cases h
      rfl
  | unlock next => cases h

/-- Only the unlocking ends a section. -/
theorem round_last {p : Place} {r r' : Registry × ℕ} {next : Pc}
    (h : p.round r = (r', .inr next)) : p = .unlock next ∧ r' = r := by
  unfold Place.round at h
  split at h
  case h_10 =>
    cases h
    exact ⟨rfl, rfl⟩
  all_goals
    dsimp -failIfUnchanged only at h
    repeat' split at h
    all_goals cases h

/-! ### The calls as a system of the library -/

variable {T : Type} [DecidableEq T]

/-- What the threads share: the state, and who holds which block. -/
abbrev Common (T : Type) := State × Assoc ℕ (T × ℕ)

def act (w : World T) (t : T) : Request ⊕ ℕ → Option (World T)
  | .inl c => startCall w t c
  | .inr ans => advance w t ans

/-- A step reads no program counter but its own. -/
def callStep (t : T) (a : Request ⊕ ℕ) (s : Common T) (l : Pc) : Option (Common T × Pc) :=
  (act ⟨s.1, fun _ => l, s.2⟩ t a).map fun w => ((w.shared, w.held), w.pc t)

/-- What the lock protects, in another state. -/
def putTable (r : Registry × ℕ) (s : State) : State :=
  { s with registry := r.1, nextAllocationId := r.2 }

theorem put_realAlloc (r : Registry × ℕ) (s : State) (ans : ℕ) :
    realAlloc (putTable r s) ans = putTable r (realAlloc s ans) := by
  unfold realAlloc
  split <;> rfl

theorem put_realRealloc (r : Registry × ℕ) (s : State) (ptr size ans : ℕ) :
    realRealloc (putTable r s) ptr size ans = putTable r (realRealloc s ptr size ans) := by
  unfold realRealloc
  split
  · split <;> rfl
  · rfl

/-- `ok` restricts the runs, as in `Interleaved`. -/
def lockedSystem (ok : (T → Pc) → Assoc ℕ (T × ℕ) → T → Prop) :
    System T (Request ⊕ ℕ) (Common T) Pc (Registry × ℕ) Place where
  step := callStep
  guard pc s t a := match a with
    | .inl _ => pc t = .idle
    | .inr ans => RealGives ⟨s.1, pc, s.2⟩ t ans ∧ ok pc s.2 t
  get s := (s.1.registry, s.1.nextAllocationId)
  put r s := (putTable r s.1, s.2)
  enter := Pc.enter
  round := Place.round

theorem act_local (w : World T) (t : T) (a : Request ⊕ ℕ) :
    act w t a = (act ⟨w.shared, fun _ => w.pc t, w.held⟩ t a).map fun v =>
      ⟨v.shared, Function.update w.pc t (v.pc t), v.held⟩ := by
  cases a with
  | inl c =>
    unfold act startCall World.goto
    dsimp only
    repeat' split
    all_goals simp
  | inr ans =>
    unfold act advance World.goto
    dsimp only
    repeat' split
    all_goals simp

variable {ok : (T → Pc) → Assoc ℕ (T × ℕ) → T → Prop}

variable (ok) in
/-- A section computes what the step of `advance` does at once. -/
theorem callStep_section (t : T) (ans : ℕ) (s : Common T) (l : Pc) (p : Place)
    (he : l.enter = some p) : callStep t (.inr ans) s l =
      some ((lockedSystem ok).put (p.finish ((lockedSystem ok).get s)).1 s,
        (p.finish ((lockedSystem ok).get s)).2) := by
  cases l with
  | track kind size block =>
    cases he
    simp only [callStep, act, advance, Place.finish, finishInsert, lockedSystem, World.goto,
      Option.map_some, Function.update_self, aoNextAllocationId]
    rfl
  | freeRemove ptr was =>
    cases he
    simp only [callStep, act, advance, Place.finish, finishRemove, lockedSystem, World.goto,
      Option.map_some, Function.update_self, aoRegistryRemoveLocked, afterFree]
    cases (removeLoop s.1.registry ptr (aoRegistryIndexFor ptr) aoRegistryCapacity 0).1 <;> rfl
  | reallocLookup ptr size was =>
    cases he
    simp only [callStep, act, advance, Place.finish, lockedSystem, World.goto, Option.map_some,
      Function.update_self, aoRegistryLookupLocked]
    cases lookupLoop s.1.registry ptr (aoRegistryIndexFor ptr) aoRegistryCapacity 0 <;> rfl
  | reallocSwap ptr size old newPtr =>
    cases he
    simp only [callStep, act, advance, Place.finish, finishRemove, finishInsert, lockedSystem,
      World.goto, aoRegistryRemoveLocked]
    by_cases h0 : newPtr = 0
    · simp [h0, afterRelease, putTable]
    · simp only [if_neg h0, Option.map_some, Function.update_self]
      rfl
  | _ => cases he

variable (ok) in
/-- Outside the sections nothing reads or writes the registry. -/
theorem callStep_outer (t : T) (a : Request ⊕ ℕ) (s : Common T) (l : Pc) (he : l.enter = none)
    (r : Registry × ℕ) : callStep t a ((lockedSystem ok).put r s) l =
      (callStep t a s l).map fun v => ((lockedSystem ok).put r v.1, v.2) := by
  cases a with
  | inl c =>
    unfold callStep act startCall World.goto lockedSystem
    dsimp only
    repeat' split
    all_goals simp [putTable]
  | inr ans =>
    unfold callStep lockedSystem
    cases l with
    | idle => rfl
    | allocReal kind size =>
      simp only [act, advance, World.goto, Option.map_some, Function.update_self, put_realAlloc,
        put_realRealloc]
      split <;> rfl
    | update u next =>
      simp only [act, advance, World.goto, Option.map_some, Function.update_self]
      rfl
    | record rec next =>
      simp only [act, advance, World.goto, Option.map_some, Function.update_self]
      rfl
    | freeReal ptr =>
      simp only [act, advance, World.goto, Option.map_some, Function.update_self]
      rfl
    | reallocReal ptr size was old =>
      simp only [act, advance, World.goto, Option.map_some, Function.update_self, put_realRealloc]
    | ret block =>
      cases block with
      | none =>
        simp only [act, advance, World.goto, Option.map_some, Function.update_self]
      | some b =>
        simp only [act, advance, World.goto, Option.map_some, Function.update_self]
    | fatal counted => rfl
    | _ => cases he

theorem lockedSystem_lawful : (lockedSystem ok).Lawful where
  get_put r s := rfl
  put_get s := rfl
  put_put r r' s := rfl
  guard_put pc s t a r h := by
    cases a with
    | inl c => exact h
    | inr ans => exact h
  outer t a s s' l l' he hs := by
    have hput := callStep_outer ok t a s l he
    refine ⟨?_, ?_⟩
    · have hself := hput ((lockedSystem ok).get s)
      change callStep t a s l = _ at hself
      change callStep t a s l = _ at hs
      rw [hs] at hself
      have hs' : s' = (lockedSystem ok).put ((lockedSystem ok).get s) s' :=
        congrArg Prod.fst (Option.some.inj hself)
      rw [hs']
      rfl
    · intro r
      change callStep t a s l = _ at hs
      refine (hput r).trans ?_
      rw [hs]
      rfl
  section_step pc s t a l p₀ p r r' l' he hpc hg hr hs := by
    cases a with
    | inl c =>
      have hidle : l = .idle := hpc.symm.trans hg
      rw [hidle] at he
      cases he
    | inr ans =>
      obtain ⟨rfl, rfl⟩ := round_last hs
      have hvalue := hr.value (f := Place.finish) fun p r p' r' h => finish_round p p' r r' h
      refine (callStep_section ok t ans s l p₀ he).trans ?_
      rw [← hvalue]
      rfl

/-! ### Runs -/

/-- The system with every run in it. -/
abbrev anySystem (T : Type) [DecidableEq T] :
    System T (Request ⊕ ℕ) (Common T) Pc (Registry × ℕ) Place := lockedSystem fun _ _ _ => True

def lockedStart (b : Bootstrap) (heap : Finset ℕ) : Common T :=
  ({ initState b heap with resolved := true }, ∅)

theorem interleaved_of_reach (b : Bootstrap) {heap : Finset ℕ} (h : ∀ a ∈ heap, 2 ≤ a)
    {d : Coarse T (Common T) Pc}
    (hd : (lockedSystem ok).Reach (lockedStart b heap) (fun _ => .idle) d) :
    Interleaved (fun w t => ok w.pc w.held t) ⟨d.shared.1, d.pc, d.shared.2⟩ := by
  induction hd with
  | start => exact .start b heap h
  | step d t a s l hd hg hs ih =>
    have hlocal := act_local ⟨d.shared.1, d.pc, d.shared.2⟩ t a
    obtain ⟨v, hv, heq⟩ := Option.map_eq_some_iff.mp hs
    cases heq
    rw [hv] at hlocal
    cases a with
    | inl c => exact .call _ _ t c ih hlocal
    | inr ans => exact .advance _ _ t ans ih hg.1 hg.2 hlocal

/-- At most one thread is in a section, the flag is set exactly while one is, and
what the threads do is a run in which every section is one step. -/
theorem sections_atomic (b : Bootstrap) (heap : Finset ℕ) (h : ∀ a ∈ heap, 2 ≤ a)
    {c : Fine T (Common T) Pc Place}
    (hc : (lockedSystem ok).FineReach (lockedStart b heap) (fun _ => .idle) c) :
    (∀ t u, (c.pc t).holds → (c.pc u).holds → t = u) ∧
    (c.lock = true ↔ ∃ t, (c.pc t).holds) ∧
    ∃ w : World T, Interleaved (fun w t => ok w.pc w.held t) w ∧
      w.pc = c.bases ∧ w.held = c.shared.2 ∧
      (∃ r, w.shared = putTable r c.shared.1) ∧
      ((∀ t l p, c.pc t ≠ .inside l p) → w.shared = c.shared.1) := by
  obtain ⟨d, hd, hm⟩ := fine_coarse lockedSystem_lawful hc
  refine ⟨hm.exclusive, ⟨hm.taken, ?_⟩, ⟨d.shared.1, d.pc, d.shared.2⟩,
    interleaved_of_reach b h hd, hm.pcs, ?_, ?_, ?_⟩
  · intro hex
    obtain ⟨t, ht⟩ := hex
    exact hm.locked t ht
  · rw [hm.rest]
    rfl
  · refine ⟨(lockedSystem ok).get d.shared, ?_⟩
    exact (congrArg Prod.fst hm.rest :)
  · intro hout
    exact congrArg Prod.fst (hm.same lockedSystem_lawful hout)

/-- Two threads have a block each, one is in its section and the other spins. -/
theorem contended : ∃ c : Fine Bool (Common Bool) Pc Place,
    (anySystem Bool).FineReach (lockedStart sampleBootstrap ∅) (fun _ => .idle) c ∧
    c.lock = true ∧ c.pc false = .out (.track 0 16 2097152) ∧
    c.pc true = .inside (.track 0 8 1048576)
      (insertPlace 1048576 8 1 (afterInsert 0 8 1048576) (.fatal none)) := by
  have h0 : (anySystem Bool).FineReach (lockedStart sampleBootstrap ∅) (fun _ => .idle) _ := .start
  have h1 := h0.move _ _ true (.outer (Sum.inl (.malloc 8)) _ _ _ rfl rfl rfl rfl)
  have h2 := h1.move _ _ false (.outer (Sum.inl (.malloc 16)) _ _ _ rfl rfl rfl rfl)
  have h3 := h2.move _ _ true (.outer (Sum.inr 1048576) _ _ _ rfl rfl
    ⟨Or.inr ⟨by decide, by decide⟩, trivial⟩ rfl)
  have h4 := h3.move _ _ false (.outer (Sum.inr 2097152) _ _ _ rfl rfl
    ⟨Or.inr ⟨by decide, by decide⟩, trivial⟩ rfl)
  have h5 := h4.move _ _ true (.acquire _ _ rfl rfl rfl)
  have h6 := h5.spin _ false _ _ rfl rfl rfl
  exact ⟨_, h6.move _ _ true (.round _ _ _ _ rfl rfl), rfl, rfl, rfl⟩

theorem sections_atomic_contended : ∃ (c : Fine Bool (Common Bool) Pc Place) (w : World Bool),
    c.lock = true ∧ Interleaved (fun _ _ => True) w ∧ w.pc = c.bases ∧
      w.pc true = .track 0 8 1048576 ∧ w.pc false = .track 0 16 2097152 := by
  obtain ⟨c, hc, hl, hfalse, htrue⟩ := contended
  obtain ⟨_, _, w, hw, hpc, _⟩ := sections_atomic sampleBootstrap ∅ (by decide) hc
  refine ⟨c, w, hl, hw, hpc, ?_, ?_⟩
  · rw [hpc, Fine.bases, htrue]
    rfl
  · rw [hpc, Fine.bases, hfalse]
    rfl

/-! ### Progress -/

/-- Bounds the rounds that are left. -/
def Place.size : Place → ℕ
  | .takeId _ _ _ => aoRegistryCapacity + 6
  | .insert _ _ _ n _ _ _ _ => n + 5
  | .lookup _ _ _ n _ => n + 1
  | .remove _ n _ _ => aoRegistryCapacity + n + 10
  | .stores _ fields next => next.size + fields.length + 1
  | .unlock _ => 0

theorem size_next (task : Removal) (ptr : ℕ) (found : Option (ℕ × ℕ)) :
    (task.next ptr found).size ≤ aoRegistryCapacity + 5 := by
  cases task with
  | free => exact Nat.zero_le _
  | realloc size old newPtr =>
    by_cases h : newPtr = 0
    · simp only [Removal.next, if_pos h]
      exact Nat.zero_le _
    · simp only [Removal.next, if_neg h]
      exact Nat.le_refl _

theorem size_round (p : Place) (r : Registry × ℕ) (p' : Place) (r' : Registry × ℕ)
    (h : p.round r = (r', .inl p')) : p'.size < p.size := by
  have hnext := size_next
  unfold Place.round at h
  split at h
  all_goals
    dsimp -failIfUnchanged only at h
    repeat' split at h
    all_goals cases h
  all_goals
    simp only [Place.size, insertPlace, entryStores, List.length_cons, List.length_nil]
    grind

theorem callStep_some (t : T) (ans : ℕ) (s : Common T) {l : Pc} (he : l.enter = none)
    (hl : l ≠ .idle) (hf : ∀ counted, l ≠ .fatal counted) :
    ∃ v, callStep t (.inr ans) s l = some v := by
  cases l with
  | idle => exact (hl rfl).elim
  | fatal counted => exact (hf counted rfl).elim
  | ret block =>
    cases block with
    | none => exact ⟨_, rfl⟩
    | some b => exact ⟨_, rfl⟩
  | track => cases he
  | freeRemove => cases he
  | reallocLookup => cases he
  | reallocSwap => cases he
  | _ => exact ⟨_, rfl⟩

/-- No deadlock, whatever the threads have done so far: a taken lock has a
holder, whose own steps lead to its release, and when the lock is free every
thread with a call in progress can go on, unless the registry was full for it. -/
theorem lock_progress (b : Bootstrap) (heap : Finset ℕ)
    {c : Fine T (Common T) Pc Place}
    (hc : (anySystem T).FineReach (lockedStart b heap) (fun _ => .idle) c) :
    (c.lock = true → ∃ t, (c.pc t).holds ∧
      ∃ c', Relation.ReflTransGen ((anySystem T).Move t) c c' ∧ c'.lock = false) ∧
    (c.lock = false → ∀ t, c.pc t ≠ .out .idle → (∀ counted, c.pc t ≠ .out (.fatal counted)) →
      ∃ c', (anySystem T).Move t c c') := by
  obtain ⟨d, _, hm⟩ := fine_coarse lockedSystem_lawful hc
  have hguard (pc : T → Pc) (s : Common T) (u : T) : (anySystem T).guard pc s u (.inr 0) :=
    ⟨Or.inl rfl, trivial⟩
  refine ⟨?_, ?_⟩
  · intro hl
    obtain ⟨t, ht⟩ := hm.taken hl
    exact ⟨t, ht, holder_releases lockedSystem_lawful size_round hguard ht⟩
  · intro hl t ht hfatal
    have hout := hm.outside hl t
    cases hpc : c.pc t with
    | inside l p =>
      rw [hpc] at hout
      exact (hout trivial).elim
    | leaving l =>
      rw [hpc] at hout
      exact (hout trivial).elim
    | out l =>
      rw [hpc] at ht hfatal
      cases he : l.enter with
      | some p => exact ⟨_, .acquire l p hpc he hl⟩
      | none =>
        obtain ⟨v, hv⟩ := callStep_some t 0 c.shared he (fun hidle => ht (congrArg _ hidle))
          fun counted hcounted => hfatal counted (congrArg _ hcounted)
        exact ⟨_, .outer (Sum.inr 0) l v.2 v.1 hpc he (hguard ..) hv⟩

theorem lock_progress_contended : ∃ c c' : Fine Bool (Common Bool) Pc Place, ∃ t,
    c.lock = true ∧ Relation.ReflTransGen ((anySystem Bool).Move t) c c' ∧ c'.lock = false := by
  obtain ⟨c, hc, hl, _⟩ := contended
  obtain ⟨t, _, c', hmoves, hend⟩ := (lock_progress sampleBootstrap ∅ hc).1 hl
  exact ⟨c, c', t, hl, hmoves, hend⟩

end LibcOverride.MockAllocator

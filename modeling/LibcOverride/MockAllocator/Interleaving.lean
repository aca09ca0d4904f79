import LibcOverride.Lib.Shares
import LibcOverride.MockAllocator.Ledger
import LibcOverride.MockAllocator.Threads

/-!
# Tracking under interleaving

Threads and completed calls share the real heap. `free` takes its entry out of
the registry before it gives the block back; `realloc` does the opposite, and
its second registry section removes whatever is entered at the old address by
then. The run lemma holds for the runs in which that is nobody else's block.
-/

namespace LibcOverride.MockAllocator
open Word AssocTotal Shares

/-! ### What a call owns and what it has counted -/

def Pc.share : Pc → Share ℕ ℕ
  | .idle => Share.none
  | .allocReal _ _ => Share.none
  | .track _ _ block => ⟨some block, none, none⟩
  | .update _ next => next.share
  | .record _ next => next.share
  | .freeRemove ptr was => ⟨some ptr, some was, none⟩
  | .freeReal ptr => ⟨some ptr, none, none⟩
  | .reallocLookup ptr _ was => ⟨some ptr, some was, none⟩
  | .reallocReal ptr _ was _ => ⟨some ptr, some was, none⟩
  | .reallocSwap ptr _ old newPtr =>
    if newPtr = ptr then ⟨some ptr, some old.1, none⟩
    else ⟨if newPtr = 0 then none else some newPtr, none, some ptr⟩
  | .ret none => Share.none
  | .ret (some (block, size)) => ⟨some block, some size, none⟩
  | .fatal _ => Share.none

def heldShare {T : Type} (held : Assoc ℕ (T × ℕ)) (p : ℕ) : Share ℕ ℕ :=
  match held.lookup p with
  | some v => ⟨some p, some v.2, none⟩
  | none => Share.none

/-- The owners are the calls in progress and the blocks handed out. -/
def World.shares {T : Type} (w : World T) : T ⊕ ℕ → Share ℕ ℕ :=
  Sum.elim (fun t => (w.pc t).share) (heldShare w.held)

/-- The entry that the lookup of a `realloc` found is the caller's; a block is
never at a slot marker. -/
def Pc.Matched : Pc → Prop
  | .update _ next => next.Matched
  | .record _ next => next.Matched
  | .reallocReal _ _ was old => ∃ id, old = some (was, id)
  | .reallocSwap ptr _ _ _ => 2 ≤ ptr
  | _ => True

def Update.blocks : Update → ℤ
  | .blockIn => 1
  | .blockOut => -1
  | _ => 0

def Update.bytes : Update → ℤ
  | .bytesIn n => n
  | .bytesOut n => -n
  | _ => 0

/-- The part of `live_blocks` that a call accounts for. -/
def Pc.blocks : Pc → ℤ
  | .update u next => next.blocks - u.blocks
  | .record _ next => next.blocks
  | .freeRemove _ _ => 1
  | .reallocLookup _ _ _ => 1
  | .reallocReal _ _ _ _ => 1
  | .reallocSwap _ _ _ _ => 1
  | .ret (some _) => 1
  | .fatal (some _) => 1
  | _ => 0

def Pc.bytes : Pc → ℤ
  | .update u next => next.bytes - u.bytes
  | .record _ next => next.bytes
  | .freeRemove _ was => was
  | .reallocLookup _ _ was => was
  | .reallocReal _ _ was _ => was
  | .reallocSwap _ _ old _ => old.1
  | .ret (some b) => b.2
  | .fatal (some size) => size
  | _ => 0

@[simp] theorem share_updatesThen (us : List Update) (next : Pc) :
    (updatesThen us next).share = next.share := by
  induction us with
  | nil => rfl
  | cons u us ih => exact ih

@[simp] theorem matched_updatesThen (us : List Update) (next : Pc) :
    (updatesThen us next).Matched ↔ next.Matched := by
  induction us with
  | nil => rfl
  | cons u us ih => exact ih

theorem blocks_updatesThen (us : List Update) (next : Pc) :
    (updatesThen us next).blocks = next.blocks - (us.map Update.blocks).sum := by
  induction us with
  | nil => simp [updatesThen]
  | cons u us ih =>
    have hstep : (updatesThen (u :: us) next).blocks = (updatesThen us next).blocks - u.blocks := rfl
    rw [hstep, ih, List.map_cons, List.sum_cons]
    omega

theorem bytes_updatesThen (us : List Update) (next : Pc) :
    (updatesThen us next).bytes = next.bytes - (us.map Update.bytes).sum := by
  induction us with
  | nil => simp [updatesThen]
  | cons u us ih =>
    have hstep : (updatesThen (u :: us) next).bytes = (updatesThen us next).bytes - u.bytes := rfl
    rw [hstep, ih, List.map_cons, List.sum_cons]
    omega

theorem record_updates_blocks (r : Record) : (r.updates.map Update.blocks).sum = 0 := by
  cases r with
  | failed => rfl
  | successful kind size => rfl
  | free bypass => cases bypass <;> rfl
  | realloc bypass => cases bypass <;> rfl

theorem record_updates_bytes (r : Record) : (r.updates.map Update.bytes).sum = 0 := by
  cases r with
  | failed => rfl
  | successful kind size => rfl
  | free bypass => cases bypass <;> rfl
  | realloc bypass => cases bypass <;> rfl

theorem liveUpdate_bytes (old new : ℕ) :
    ((liveUpdateUpdates old new).map Update.bytes).sum = (new : ℤ) - old := by
  unfold liveUpdateUpdates
  split
  · simp [Update.bytes]
    omega
  · split
    · simp [Update.bytes]
      omega
    · simp
      omega

theorem liveUpdate_blocks (old new : ℕ) :
    ((liveUpdateUpdates old new).map Update.blocks).sum = 0 := by
  unfold liveUpdateUpdates
  split
  · rfl
  · split <;> rfl

/-- A 64-bit counter agrees with an integer total. -/
def Agrees (counter : ℕ) (n : ℤ) : Prop := (counter : ℤ) = n % 2 ^ 64

theorem agrees_add {c : ℕ} {n : ℤ} (h : Agrees c n) (k : ℕ) : Agrees (add c k) (n + k) := by
  unfold Agrees add at *
  omega

theorem agrees_sub {c : ℕ} {n : ℤ} (h : Agrees c n) (k : ℕ) : Agrees (sub c k) (n + -k) := by
  unfold Agrees sub at *
  omega

theorem agrees_same {c c' : ℕ} {n : ℤ} (h : Agrees c n) (hc : c' = c) : Agrees c' (n + 0) := by
  rw [hc, add_zero]
  exact h

theorem countKind_live (kind : ℕ) (c : AoAtomicStats) :
    (countKind kind c).liveBlocks = c.liveBlocks ∧ (countKind kind c).liveBytes = c.liveBytes := by
  unfold countKind
  split <;> exact ⟨rfl, rfl⟩

theorem agrees_apply_blocks (c : AoAtomicStats) (u : Update) {n : ℤ} (h : Agrees c.liveBlocks n) :
    Agrees (u.apply c).liveBlocks (n + u.blocks) := by
  cases u with
  | kindCall kind => exact agrees_same h (countKind_live kind c).1
  | blockIn => exact agrees_add h 1
  | blockOut =>
    have happ : (Update.blockOut.apply c).liveBlocks = sub c.liveBlocks 1 := rfl
    rw [happ]
    exact agrees_sub h 1
  | _ => exact agrees_same h rfl

theorem agrees_apply_bytes (c : AoAtomicStats) (u : Update) {n : ℤ} (h : Agrees c.liveBytes n) :
    Agrees (u.apply c).liveBytes (n + u.bytes) := by
  cases u with
  | kindCall kind => exact agrees_same h (countKind_live kind c).2
  | bytesIn size => exact agrees_add h size
  | bytesOut size =>
    have happ : ((Update.bytesOut size).apply c).liveBytes = sub c.liveBytes size := rfl
    rw [happ]
    exact agrees_sub h size
  | blockOut =>
    cases c
    exact agrees_same h rfl
  | _ => exact agrees_same h rfl

/-! ### The invariant -/

variable {T : Type}

/-- The sizes that a registry map holds. -/
def sizes (m : BlockMap) (a : ℕ) : Option ℕ := (m a).map Prod.fst

structure Consistent [Fintype T] (w : World T) (m : BlockMap) : Prop where
  represents : Represents w.shared.registry m
  owned : Owned w.shares (sizes m) w.shared.heap
  noMarker : ∀ a ∈ w.shared.heap, 2 ≤ a
  matched : ∀ t, (w.pc t).Matched
  blocks : Agrees w.shared.stats.liveBlocks (w.held.entries.length + ∑ t, (w.pc t).blocks)
  bytes : Agrees w.shared.stats.liveBytes (total Prod.snd w.held + ∑ t, (w.pc t).bytes)

/-- The second registry section of a `realloc` that moved or released its block
finds nobody else entered at the old address. -/
def Undisturbed (w : World T) (t : T) : Prop :=
  ∀ ptr size old newPtr, w.pc t = .reallocSwap ptr size old newPtr → newPtr ≠ ptr →
    ∀ o ≠ Sum.inl t, ¬ (w.shares o).Enters ptr

theorem sizes_update (m : BlockMap) (a : ℕ) (v : Option (ℕ × ℕ)) :
    sizes (Function.update m a v) = Function.update (sizes m) a (v.map Prod.fst) := by
  funext b
  by_cases hb : b = a
  · subst hb
    simp only [sizes, Function.update_self]
  · simp only [sizes, Function.update_of_ne hb]

section Facts

variable [Fintype T] {w : World T} {m : BlockMap} {t : T}

omit [Fintype T] in
theorem shares_pc {next : Pc} (hpc : w.pc t = next) : w.shares (Sum.inl t) = next.share := by
  rw [← hpc]
  rfl

/-- The entry of an owned block, as the registry returns it. -/
theorem entry_of_share (h : Consistent w m) {o : T ⊕ ℕ} {p size : ℕ} {s : Option ℕ}
    (ho : w.shares o = ⟨some p, some size, s⟩) : ∃ id, m p = some (size, id) := by
  have hp := h.owned.present o p size (by rw [ho]) (by rw [ho])
  obtain ⟨v, hv, hsize⟩ := Option.map_eq_some_iff.mp hp
  exact ⟨v.2, by rw [hv, ← hsize]⟩

theorem owned_ge (h : Consistent w m) {o : T ⊕ ℕ} {p : ℕ} (ho : (w.shares o).owns = some p) :
    2 ≤ p := h.noMarker p (h.owned.allocated o p ho)

theorem allocReal_state (h : Consistent w m) (kind size : ℕ) {ans : ℕ} (hans : ans ≠ 0) :
    (if kind = 2 then realRealloc w.shared 0 size ans else realAlloc w.shared ans) =
      { w.shared with heap := insert ans w.shared.heap } := by
  split
  · exact reallocNull_some (mark_null h.noMarker) size hans
  · exact realAlloc_some hans

theorem allocReal_failed (h : Consistent w m) (kind size : ℕ) :
    core (if kind = 2 then realRealloc w.shared 0 size 0 else realAlloc w.shared 0) =
      core w.shared := by
  split
  · exact core_reallocNull_null (mark_null h.noMarker) size rfl
  · rfl

end Facts

variable [DecidableEq T]

theorem shares_goto (w : World T) (t : T) (s : State) (next : Pc) :
    (w.goto t s next).shares = Function.update w.shares (Sum.inl t) next.share := by
  funext o
  cases o with
  | inl u =>
    by_cases hu : u = t
    · subst hu
      simp [World.shares, World.goto]
    · have hne : (Sum.inl u : T ⊕ ℕ) ≠ Sum.inl t := fun h => hu (Sum.inl.inj h)
      rw [Function.update_of_ne hne]
      simp only [World.shares, World.goto, Sum.elim_inl, Function.update_of_ne hu]
  | inr p => rfl

/-- The share of a block moves between `held` and a call. -/
theorem shares_swap (w w' : World T) (t : T) (p : ℕ)
    (hpc : ∀ u ≠ t, w'.pc u = w.pc u) (hheld : ∀ q ≠ p, w'.held.lookup q = w.held.lookup q)
    (ht : (w'.pc t).share = heldShare w.held p) (hp : heldShare w'.held p = (w.pc t).share) :
    w'.shares = fun o => w.shares (Equiv.swap (Sum.inl t) (Sum.inr p) o) := by
  funext o
  cases o with
  | inl u =>
    by_cases hu : u = t
    · subst hu
      rw [Equiv.swap_apply_left]
      exact ht
    · rw [Equiv.swap_apply_of_ne_of_ne (fun h => hu (Sum.inl.inj h)) (by simp)]
      simp only [World.shares, Sum.elim_inl, hpc u hu]
  | inr q =>
    by_cases hq : q = p
    · subst hq
      rw [Equiv.swap_apply_right]
      exact hp
    · rw [Equiv.swap_apply_of_ne_of_ne (by simp) (fun h => hq (Sum.inr.inj h))]
      simp only [World.shares, Sum.elim_inr, heldShare, hheld q hq]

/-! ### One step -/

section Steps

variable [Fintype T] {w : World T} {m : BlockMap} {t : T}

theorem sum_goto (f : Pc → ℤ) (w : World T) (t : T) (s : State) (next : Pc) :
    ∑ u, f ((w.goto t s next).pc u) = ∑ u, f (w.pc u) + (f next - f (w.pc t)) := by
  have hcomp : (fun u => f ((w.goto t s next).pc u)) =
      Function.update (fun u => f (w.pc u)) t (f next) := by
    funext u
    exact Function.apply_update (fun _ => f) w.pc t next u
  rw [hcomp]
  exact sum_update _ t (f next)

theorem matched_goto (h : Consistent w m) (s : State) {next : Pc} (hmat : next.Matched) (u : T) :
    ((w.goto t s next).pc u).Matched := by
  by_cases hu : u = t
  · subst hu
    simp only [World.goto, Function.update_self]
    exact hmat
  · simp only [World.goto, Function.update_of_ne hu]
    exact h.matched u

theorem consistent_goto (h : Consistent w m) {s : State} {next : Pc} {m' : BlockMap}
    (hrep : Represents s.registry m')
    (hown : Owned (Function.update w.shares (Sum.inl t) next.share) (sizes m') s.heap)
    (hmark : ∀ a ∈ s.heap, 2 ≤ a) (hmat : next.Matched)
    (hblocks : ∀ n, Agrees w.shared.stats.liveBlocks n →
      Agrees s.stats.liveBlocks (n + (next.blocks - (w.pc t).blocks)))
    (hbytes : ∀ n, Agrees w.shared.stats.liveBytes n →
      Agrees s.stats.liveBytes (n + (next.bytes - (w.pc t).bytes))) :
    Consistent (w.goto t s next) m' := by
  refine ⟨hrep, ?_, hmark, ?_, ?_, ?_⟩
  · rw [shares_goto]
    exact hown
  · exact matched_goto h _ hmat
  · rw [sum_goto Pc.blocks, ← add_assoc]
    exact hblocks _ h.blocks
  · rw [sum_goto Pc.bytes, ← add_assoc]
    exact hbytes _ h.bytes

/-- A step that leaves the counters and the call's part of them alone. -/
theorem consistent_quiet (h : Consistent w m) {s : State} {next : Pc} {m' : BlockMap}
    (hstats : s.stats = w.shared.stats) (hrep : Represents s.registry m')
    (hown : Owned (Function.update w.shares (Sum.inl t) next.share) (sizes m') s.heap)
    (hmark : ∀ a ∈ s.heap, 2 ≤ a) (hmat : next.Matched)
    (hblocks : next.blocks = (w.pc t).blocks) (hbytes : next.bytes = (w.pc t).bytes) :
    Consistent (w.goto t s next) m' := by
  refine consistent_goto h hrep hown hmark hmat ?_ ?_
  · intro n hn
    rw [hstats, hblocks, sub_self, add_zero]
    exact hn
  · intro n hn
    rw [hstats, hbytes, sub_self, add_zero]
    exact hn

/-- A step after which the call owns what it owned before. -/
theorem owned_same (h : Consistent w m) {next : Pc} (hshare : next.share = (w.pc t).share) :
    Owned (Function.update w.shares (Sum.inl t) next.share) (sizes m) w.shared.heap := by
  have hid : next.share = w.shares (Sum.inl t) := hshare
  rw [hid, Function.update_eq_self]
  exact h.owned

theorem consistent_update (h : Consistent w m) {u : Update} {next : Pc}
    (hpc : w.pc t = .update u next) :
    Consistent (w.goto t (mapStats w.shared u.apply) next) m := by
  have hm := h.matched t
  rw [hpc] at hm
  refine consistent_goto h h.represents (owned_same h (by rw [hpc]; rfl)) h.noMarker hm ?_ ?_
  · intro n hn
    have hsum : next.blocks - (w.pc t).blocks = u.blocks := by
      rw [hpc, Pc.blocks]
      omega
    rw [hsum]
    exact agrees_apply_blocks _ u hn
  · intro n hn
    have hsum : next.bytes - (w.pc t).bytes = u.bytes := by
      rw [hpc, Pc.bytes]
      omega
    rw [hsum]
    exact agrees_apply_bytes _ u hn

theorem consistent_record (h : Consistent w m) {r : Record} {next : Pc}
    (hpc : w.pc t = .record r next) : Consistent (w.goto t w.shared
      (if aoCaptureEnabled w.shared then updatesThen r.updates next else next)) m := by
  have hm := h.matched t
  rw [hpc] at hm
  split
  · refine consistent_quiet h rfl h.represents (owned_same h ?_) h.noMarker ?_ ?_ ?_
    · rw [hpc, share_updatesThen]
      rfl
    · rwa [matched_updatesThen]
    · rw [hpc, blocks_updatesThen, record_updates_blocks, sub_zero, Pc.blocks]
    · rw [hpc, bytes_updatesThen, record_updates_bytes, sub_zero, Pc.bytes]
  · exact consistent_quiet h rfl h.represents (owned_same h (by rw [hpc]; rfl)) h.noMarker hm
      (by rw [hpc]; rfl) (by rw [hpc]; rfl)

theorem consistent_allocReal (h : Consistent w m) {kind size ans : ℕ}
    (hpc : w.pc t = .allocReal kind size) (hans : ans = 0 ∨ 2 ≤ ans ∧ ans ∉ w.shared.heap) :
    Consistent (w.goto t
      (if kind = 2 then realRealloc w.shared 0 size ans else realAlloc w.shared ans)
      (if ans = 0 then .record .failed (.ret none) else .track kind size ans)) m := by
  have hshare := shares_pc hpc
  by_cases h0 : ans = 0
  · subst h0
    have hcore := allocReal_failed h kind size
    generalize (if kind = 2 then realRealloc w.shared 0 size 0 else realAlloc w.shared 0) = s at *
    rw [if_pos rfl]
    have hreg : s.registry = w.shared.registry := congrArg Core.registry hcore
    have hheap : s.heap = w.shared.heap := congrArg Core.heap hcore
    have hlive : s.stats.liveBlocks = w.shared.stats.liveBlocks := congrArg Core.liveBlocks hcore
    have hbytes : s.stats.liveBytes = w.shared.stats.liveBytes := congrArg Core.liveBytes hcore
    refine consistent_goto h (hreg ▸ h.represents) ?_ (hheap ▸ h.noMarker) trivial ?_ ?_
    · rw [hheap]
      exact owned_same h (by rw [hpc]; rfl)
    · intro n hn
      rw [hpc, hlive]
      simpa [Pc.blocks] using hn
    · intro n hn
      rw [hpc, hbytes]
      simpa [Pc.bytes] using hn
  · obtain ⟨hge, hfresh⟩ := hans.resolve_left h0
    rw [allocReal_state h kind size h0, if_neg h0]
    exact consistent_quiet h rfl h.represents (owned_acquire h.owned hshare hfresh)
      (mark_insert h.noMarker hge) trivial (by rw [hpc]; rfl) (by rw [hpc]; rfl)

theorem consistent_track (h : Consistent w m) {kind size block : ℕ}
    (hpc : w.pc t = .track kind size block) {r : Bool × Registry}
    (hr : r = aoRegistryInsertLocked w.shared.registry block size w.shared.nextAllocationId) :
    ∃ m', Consistent (w.goto t { (aoNextAllocationId w.shared).2 with registry := r.2 }
      (if r.1 = false then .fatal none else updatesThen (liveAddUpdates size)
        (.record (.successful kind size) (.ret (some (block, size)))))) m' := by
  have hshare := shares_pc hpc
  have hge : 2 ≤ block := owned_ge h (o := Sum.inl t) (by rw [hshare]; rfl)
  rcases insert_spec h.represents block size w.shared.nextAllocationId hge with
    ⟨_, _, heq⟩ | ⟨_, hins, hrep⟩
  · rw [heq] at hr
    subst hr
    rw [if_pos rfl]
    exact ⟨m, consistent_quiet h rfl h.represents (owned_abandon h.owned hshare) h.noMarker trivial
      (by rw [hpc]; rfl) (by rw [hpc]; rfl)⟩
  · rw [← hr] at hins hrep
    rw [hins, if_neg Bool.true_eq_false_eq_False]
    refine ⟨_, consistent_quiet h rfl hrep ?_ h.noMarker ?_ ?_ ?_⟩
    · rw [sizes_update, share_updatesThen]
      exact owned_enter h.owned hshare size
    · rw [matched_updatesThen]
      trivial
    · rw [hpc, blocks_updatesThen]
      rfl
    · rw [hpc, bytes_updatesThen]
      simp [Pc.bytes, liveAddUpdates, Update.bytes]

theorem consistent_freeRemove (h : Consistent w m) {ptr was : ℕ}
    (hpc : w.pc t = .freeRemove ptr was) :
    ∃ m', Consistent (w.goto t
      { w.shared with registry := (aoRegistryRemoveLocked w.shared.registry ptr).2 }
      (.record (.free (aoRegistryRemoveLocked w.shared.registry ptr).1.isNone)
        (match (aoRegistryRemoveLocked w.shared.registry ptr).1 with
          | some v => updatesThen (liveRemoveUpdates v.1) (.freeReal ptr)
          | none => .freeReal ptr))) m' := by
  have hshare := shares_pc hpc
  have hge : 2 ≤ ptr := owned_ge h (o := Sum.inl t) (by rw [hshare]; rfl)
  obtain ⟨id, hm⟩ := entry_of_share h hshare
  obtain ⟨hret, hrep⟩ := remove_spec h.represents ptr hge
  rw [hret, hm]
  refine ⟨_, consistent_quiet h rfl hrep ?_ h.noMarker ?_ ?_ ?_⟩
  · rw [sizes_update]
    have hs : (Pc.record (.free (some (was, id)).isNone)
        (updatesThen (liveRemoveUpdates was) (.freeReal ptr))).share = ⟨some ptr, none, none⟩ :=
      share_updatesThen _ _
    rw [hs]
    exact owned_leave h.owned hshare
  · exact (matched_updatesThen _ _).mpr trivial
  · rw [hpc, Pc.blocks, blocks_updatesThen]
    rfl
  · rw [hpc, Pc.bytes, bytes_updatesThen]
    simp [Pc.bytes, liveRemoveUpdates, Update.bytes]

theorem consistent_freeReal (h : Consistent w m) {ptr : ℕ} (hpc : w.pc t = .freeReal ptr) :
    Consistent (w.goto t (realFree w.shared ptr) (.ret none)) m :=
  consistent_quiet h rfl h.represents (owned_release h.owned (shares_pc hpc))
    (mark_erase h.noMarker ptr) trivial (by rw [hpc]; rfl) (by rw [hpc]; rfl)

theorem consistent_reallocLookup (h : Consistent w m) {ptr size was : ℕ}
    (hpc : w.pc t = .reallocLookup ptr size was) :
    Consistent (w.goto t w.shared (match aoRegistryLookupLocked w.shared.registry ptr with
      | some old => .reallocReal ptr size was (some old)
      | none => .record (.realloc true) (.reallocReal ptr size was none))) m := by
  have hshare := shares_pc hpc
  have hge : 2 ≤ ptr := owned_ge h (o := Sum.inl t) (by rw [hshare]; rfl)
  obtain ⟨id, hm⟩ := entry_of_share h hshare
  rw [lookup_spec h.represents ptr hge, hm]
  exact consistent_quiet h rfl h.represents (owned_same h (by rw [hpc]; rfl)) h.noMarker
    ⟨id, rfl⟩ (by rw [hpc]; rfl) (by rw [hpc]; rfl)

theorem consistent_reallocReal (h : Consistent w m) {ptr size was id ans : ℕ}
    (hpc : w.pc t = .reallocReal ptr size was (some (was, id)))
    (hans : ans = 0 ∨ 2 ≤ ans ∧ ans ∉ w.shared.heap.erase ptr) :
    Consistent (w.goto t (realRealloc w.shared ptr size ans)
      (if ans = 0 ∧ size ≠ 0 then
        .record (.realloc false) (.record .failed (.ret (some (ptr, was))))
      else .reallocSwap ptr size (was, id) ans)) m := by
  have hshare := shares_pc hpc
  have hin : ptr ∈ w.shared.heap := h.owned.allocated (Sum.inl t) ptr (by rw [hshare]; rfl)
  by_cases h0 : ans = 0
  · subst h0
    rw [realRealloc, if_pos rfl]
    by_cases hz : size = 0
    · subst hz
      -- the block is gone and its entry stays until the second section
      have hne : (0 : ℕ) ≠ ptr := fun heq => by
        have hge := h.noMarker ptr hin
        omega
      rw [if_pos rfl, if_neg (fun hc => hc.2 rfl)]
      refine consistent_quiet h rfl h.represents ?_ (mark_erase h.noMarker ptr)
        (h.noMarker ptr hin) (by rw [hpc]; rfl) (by rw [hpc]; rfl)
      rw [Pc.share, if_neg hne, if_pos rfl]
      refine owned_move h.owned hshare none ?_ ?_
      · rintro c ⟨⟩
      · rintro c (hc | ⟨hc, hcp⟩)
        · cases hc
        · exact Finset.mem_erase.mpr ⟨hcp, hc⟩
    · rw [if_neg hz, if_pos ⟨rfl, hz⟩]
      exact consistent_quiet h rfl h.represents (owned_same h (by rw [hpc]; rfl)) h.noMarker
        trivial (by rw [hpc]; rfl) (by rw [hpc]; rfl)
  · obtain ⟨hge, hfresh⟩ := hans.resolve_left h0
    rw [realRealloc, if_neg h0, if_neg (fun hc => h0 hc.1)]
    refine consistent_quiet h rfl h.represents ?_
      (mark_insert (mark_erase h.noMarker ptr) hge) (h.noMarker ptr hin) (by rw [hpc]; rfl)
      (by rw [hpc]; rfl)
    by_cases hp : ans = ptr
    · subst hp
      rw [Pc.share, if_pos rfl, Finset.insert_erase hin]
      have hid : (⟨some ans, some was, none⟩ : Share ℕ ℕ) = w.shares (Sum.inl t) := hshare.symm
      rw [hid, Function.update_eq_self]
      exact h.owned
    · rw [Pc.share, if_neg hp, if_neg h0]
      refine owned_move h.owned hshare (some ans) ?_ ?_
      · rintro c ⟨⟩ hc
        exact hfresh (Finset.mem_erase.mpr ⟨hp, hc⟩)
      · rintro c (hc | ⟨hc, hcp⟩)
        · cases hc
          exact Finset.mem_insert_self _ _
        · exact Finset.mem_insert_of_mem (Finset.mem_erase.mpr ⟨hcp, hc⟩)

/-- The first half of the second section: the old entry is the caller's own, or
stale with nobody else behind it. -/
theorem owned_swapRemove (h : Consistent w m) {ptr size newPtr : ℕ} {old : ℕ × ℕ}
    (hpc : w.pc t = .reallocSwap ptr size old newPtr) (hok : Undisturbed w t) :
    Owned (Function.update w.shares (Sum.inl t)
        ⟨if newPtr = 0 then none else some newPtr, none, none⟩)
      (sizes (Function.update m ptr none)) w.shared.heap := by
  have hshare := shares_pc hpc
  have hge : 2 ≤ ptr := by
    have hm := h.matched t
    rwa [hpc] at hm
  rw [sizes_update]
  by_cases hp : newPtr = ptr
  · subst hp
    rw [Pc.share, if_pos rfl] at hshare
    rw [if_neg (by omega)]
    exact owned_leave h.owned hshare
  · rw [Pc.share, if_neg hp] at hshare
    exact owned_discard h.owned hshare (hok ptr size old newPtr hpc hp)

theorem consistent_swapRelease (h : Consistent w m) {ptr size : ℕ} {old : ℕ × ℕ}
    (hpc : w.pc t = .reallocSwap ptr size old 0) (hok : Undisturbed w t) :
    ∃ m', Consistent (w.goto t
      { w.shared with registry := (aoRegistryRemoveLocked w.shared.registry ptr).2 }
      (.record (.realloc false) (updatesThen (liveRemoveUpdates old.1) (.ret none)))) m' := by
  have hge : 2 ≤ ptr := by
    have hm := h.matched t
    rwa [hpc] at hm
  refine ⟨_, consistent_quiet h rfl (remove_spec h.represents ptr hge).2 ?_ h.noMarker ?_ ?_ ?_⟩
  · have hs : (Pc.record (.realloc false) (updatesThen (liveRemoveUpdates old.1)
        (.ret none))).share = ⟨none, none, none⟩ := share_updatesThen _ _
    rw [hs]
    exact owned_swapRemove h hpc hok
  · exact (matched_updatesThen _ _).mpr trivial
  · rw [hpc, Pc.blocks, blocks_updatesThen]
    rfl
  · rw [hpc, Pc.bytes, bytes_updatesThen]
    simp [Pc.bytes, liveRemoveUpdates, Update.bytes]

theorem consistent_swapInsert (h : Consistent w m) {ptr size newPtr : ℕ} {old : ℕ × ℕ}
    (hpc : w.pc t = .reallocSwap ptr size old newPtr) (hnew : newPtr ≠ 0)
    (hok : Undisturbed w t) {r : Bool × Registry}
    (hr : r = aoRegistryInsertLocked (aoRegistryRemoveLocked w.shared.registry ptr).2 newPtr size
      old.2) :
    ∃ m', Consistent (w.goto t { w.shared with registry := r.2 }
      (if r.1 = false then .fatal (some old.1) else .record (.realloc false)
        (updatesThen (liveUpdateUpdates old.1 size) (.ret (some (newPtr, size)))))) m' := by
  have hge : 2 ≤ ptr := by
    have hm := h.matched t
    rwa [hpc] at hm
  have hremoved := owned_swapRemove h hpc hok
  rw [if_neg hnew] at hremoved
  have hnge : 2 ≤ newPtr := by
    refine h.noMarker newPtr (hremoved.allocated (Sum.inl t) newPtr ?_)
    rw [Function.update_self]
  have hrep := (remove_spec h.represents ptr hge).2
  rcases insert_spec hrep newPtr size old.2 hnge with ⟨_, _, heq⟩ | ⟨_, hins, hrep'⟩
  · rw [heq] at hr
    subst hr
    have hgone := owned_abandon hremoved (Function.update_self _ _ _)
    rw [Function.update_idem] at hgone
    rw [if_pos rfl]
    exact ⟨_, consistent_quiet h rfl hrep hgone h.noMarker trivial (by rw [hpc]; rfl)
      (by rw [hpc]; rfl)⟩
  · rw [← hr] at hins hrep'
    rw [hins, if_neg Bool.true_eq_false_eq_False]
    refine ⟨_, consistent_quiet h rfl hrep' ?_ h.noMarker ?_ ?_ ?_⟩
    · have hs : (Pc.record (.realloc false) (updatesThen (liveUpdateUpdates old.1 size)
          (.ret (some (newPtr, size))))).share = ⟨some newPtr, some size, none⟩ :=
        share_updatesThen _ _
      have hentered := owned_enter hremoved (Function.update_self _ _ _) size
      rw [Function.update_idem] at hentered
      rw [hs, sizes_update]
      exact hentered
    · exact (matched_updatesThen _ _).mpr trivial
    · rw [hpc, Pc.blocks, blocks_updatesThen, liveUpdate_blocks]
      rfl
    · rw [hpc, Pc.bytes, bytes_updatesThen, liveUpdate_bytes]
      simp [Pc.bytes]

/-! ### Entering and leaving a call -/

omit [DecidableEq T] in
theorem lookup_of_share (h : Consistent w m) {p size : ℕ}
    (ht : w.shares (Sum.inl t) = ⟨some p, some size, none⟩) : w.held.lookup p = none := by
  by_contra hne
  obtain ⟨v, hv⟩ := Option.ne_none_iff_exists'.mp hne
  have howns : (w.shares (Sum.inr p)).owns = some p := by
    simp only [World.shares, Sum.elim_inr, heldShare, hv]
  have heq := h.owned.disjoint (Sum.inl t) (Sum.inr p) p (by rw [ht]) howns
  cases heq

/-- A block and what is counted for it pass between `held` and a call. -/
theorem consistent_exchange (h : Consistent w m) {p : ℕ} {next : Pc} {held : Assoc ℕ (T × ℕ)}
    (hheld : ∀ q ≠ p, held.lookup q = w.held.lookup q)
    (ht : next.share = heldShare w.held p) (hp : heldShare held p = (w.pc t).share)
    (hmat : next.Matched)
    (hblocks : (held.entries.length : ℤ) + next.blocks = w.held.entries.length + (w.pc t).blocks)
    (hbytes : (total Prod.snd held : ℤ) + next.bytes = total Prod.snd w.held + (w.pc t).bytes) :
    Consistent { w.goto t w.shared next with held := held } m := by
  have hswap := shares_swap w { w.goto t w.shared next with held := held } t p
    (fun u hu => Function.update_of_ne hu _ _) hheld
    (by simp only [World.goto, Function.update_self, ht]) hp
  refine ⟨h.represents, ?_, h.noMarker, ?_, ?_, ?_⟩
  · rw [hswap]
    exact owned_comp h.owned _
  · exact matched_goto h w.shared hmat
  · have htot : (held.entries.length : ℤ) + ∑ u, ((w.goto t w.shared next).pc u).blocks =
        w.held.entries.length + ∑ u, (w.pc u).blocks := by
      rw [sum_goto Pc.blocks]
      omega
    change Agrees _ ((held.entries.length : ℤ) + ∑ u, ((w.goto t w.shared next).pc u).blocks)
    rw [htot]
    exact h.blocks
  · have htot : (total Prod.snd held : ℤ) + ∑ u, ((w.goto t w.shared next).pc u).bytes =
        total Prod.snd w.held + ∑ u, (w.pc u).bytes := by
      rw [sum_goto Pc.bytes]
      omega
    change Agrees _ ((total Prod.snd held : ℤ) + ∑ u, ((w.goto t w.shared next).pc u).bytes)
    rw [htot]
    exact h.bytes

theorem consistent_retSome (h : Consistent w m) {block size : ℕ}
    (hpc : w.pc t = .ret (some (block, size))) :
    Consistent { w.goto t w.shared .idle with held := w.held.insert block (t, size) } m := by
  have hnone := lookup_of_share h (shares_pc hpc)
  have hnot : block ∉ w.held := AList.lookup_eq_none.mp hnone
  refine consistent_exchange h (p := block) (fun q hq => AList.lookup_insert_ne hq) ?_ ?_ trivial
    ?_ ?_
  · simp only [heldShare, hnone]
    rfl
  · simp only [heldShare, AList.lookup_insert]
    rw [hpc]
    rfl
  · rw [hpc, length_insert _ hnot]
    simp [Pc.blocks]
  · rw [hpc, total_insert _ _ hnot]
    simp [Pc.bytes]

/-- A call takes over a block that its thread holds. -/
theorem consistent_take (h : Consistent w m) {ptr was : ℕ} {next : Pc} (hidle : w.pc t = .idle)
    (hl : w.held.lookup ptr = some (t, was)) (hshare : next.share = ⟨some ptr, some was, none⟩)
    (hmat : next.Matched) (hblocks : next.blocks = 1) (hbytes : next.bytes = was) :
    Consistent { w.goto t w.shared next with held := w.held.erase ptr } m := by
  refine consistent_exchange h (p := ptr) (fun q hq => AList.lookup_erase_ne hq) ?_ ?_ hmat ?_ ?_
  · simp only [heldShare, hl]
    exact hshare
  · simp only [heldShare, AList.lookup_erase]
    rw [hidle]
    rfl
  · rw [hidle, hblocks, length_erase hl]
    simp [Pc.blocks]
  · rw [hidle, hbytes, total_erase Prod.snd hl]
    simp [Pc.bytes]

/-- A call starts that passes no block of its own. -/
theorem consistent_enter (h : Consistent w m) (hidle : w.pc t = .idle) {s : State} {next : Pc}
    (hs : core s = core w.shared) (hshare : next.share = Share.none) (hmat : next.Matched)
    (hblocks : next.blocks = 0) (hbytes : next.bytes = 0) : Consistent (w.goto t s next) m := by
  have hreg : s.registry = w.shared.registry := congrArg Core.registry hs
  have hheap : s.heap = w.shared.heap := congrArg Core.heap hs
  have hlive : s.stats.liveBlocks = w.shared.stats.liveBlocks := congrArg Core.liveBlocks hs
  have hlb : s.stats.liveBytes = w.shared.stats.liveBytes := congrArg Core.liveBytes hs
  refine consistent_goto h (hreg ▸ h.represents) ?_ (hheap ▸ h.noMarker) hmat ?_ ?_
  · rw [hheap]
    exact owned_same h (by rw [hidle, hshare]; rfl)
  · intro n hn
    rw [hidle, hlive, hblocks]
    simpa [Pc.blocks] using hn
  · intro n hn
    rw [hidle, hlb, hbytes]
    simpa [Pc.bytes] using hn

/-! ### Steps and runs -/

theorem consistent_call (h : Consistent w m) {c : Request} {w' : World T}
    (hs : startCall w t c = some w') : Consistent w' m := by
  unfold startCall at hs
  split at hs
  · cases hs
  · rename_i hidle
    have hidle : w.pc t = .idle := not_not.mp hidle
    cases c with
    | malloc size =>
      cases hs
      exact consistent_enter h hidle rfl rfl trivial rfl rfl
    | calloc nmemb size =>
      dsimp only at hs
      split at hs
      · cases hs
        exact consistent_enter h hidle rfl rfl trivial rfl rfl
      · cases hs
        exact consistent_enter h hidle rfl rfl trivial rfl rfl
    | realloc ptr size =>
      dsimp only at hs
      split at hs
      · cases hs
        exact consistent_enter h hidle rfl rfl trivial rfl rfl
      · split at hs
        · cases hs
        · rename_i owner was hl
          split at hs
          · cases hs
          · rename_i ho
            cases hs
            rw [not_not.mp ho] at hl
            exact consistent_take h hidle hl rfl trivial rfl rfl
    | free ptr =>
      dsimp only at hs
      split at hs
      · cases hs
        exact consistent_enter h hidle rfl rfl trivial rfl rfl
      · split at hs
        · cases hs
        · rename_i owner was hl
          split at hs
          · cases hs
          · rename_i ho
            cases hs
            rw [not_not.mp ho] at hl
            exact consistent_take h hidle hl rfl trivial rfl rfl

theorem consistent_advance (h : Consistent w m) {ans : ℕ} {w' : World T}
    (hans : RealGives w t ans) (hok : Undisturbed w t) (hs : advance w t ans = some w') :
    ∃ m', Consistent w' m' := by
  unfold advance at hs
  unfold RealGives at hans
  cases hpc : w.pc t with
  | idle =>
    simp only [hpc] at hs
    cases hs
  | allocReal kind size =>
    simp only [hpc] at hs hans
    cases hs
    exact ⟨m, consistent_allocReal h hpc hans⟩
  | track kind size block =>
    simp only [hpc] at hs
    cases hs
    exact consistent_track h hpc rfl
  | update u next =>
    simp only [hpc] at hs
    cases hs
    exact ⟨m, consistent_update h hpc⟩
  | record r next =>
    simp only [hpc] at hs
    cases hs
    exact ⟨m, consistent_record h hpc⟩
  | freeRemove ptr was =>
    simp only [hpc] at hs
    cases hs
    exact consistent_freeRemove h hpc
  | freeReal ptr =>
    simp only [hpc] at hs
    cases hs
    exact ⟨m, consistent_freeReal h hpc⟩
  | reallocLookup ptr size was =>
    simp only [hpc] at hs
    cases hs
    exact ⟨m, consistent_reallocLookup h hpc⟩
  | reallocReal ptr size was old =>
    simp only [hpc] at hs hans
    have hm := h.matched t
    rw [hpc] at hm
    obtain ⟨id, rfl⟩ := hm
    cases hs
    exact ⟨m, consistent_reallocReal h hpc hans⟩
  | reallocSwap ptr size old newPtr =>
    simp only [hpc] at hs
    split at hs
    · rename_i h0
      cases hs
      subst h0
      exact consistent_swapRelease h hpc hok
    · rename_i h0
      cases hs
      exact consistent_swapInsert h hpc h0 hok rfl
  | fatal counted =>
    simp only [hpc] at hs
    cases hs
  | ret block =>
    simp only [hpc] at hs
    cases block with
    | none =>
      cases hs
      exact ⟨m, consistent_quiet h rfl h.represents (owned_same h (by rw [hpc]; rfl)) h.noMarker
        trivial (by rw [hpc]; rfl) (by rw [hpc]; rfl)⟩
    | some b =>
      cases hs
      exact ⟨m, consistent_retSome h hpc⟩

theorem consistent_run (h : Interleaved Undisturbed w) : ∃ m, Consistent w m := by
  induction h with
  | start b heap hh =>
    refine ⟨fun _ => none, represents_empty, ?_, hh, ?_, ?_, ?_⟩
    · have hnone : (World.shares ⟨{ initState b heap with resolved := true }, fun _ => .idle, ∅⟩ :
          T ⊕ ℕ → Share ℕ ℕ) = fun _ => Share.none := by
        funext o
        cases o <;> rfl
      rw [hnone]
      exact owned_empty heap
    · intro t
      trivial
    · simp [Agrees, Pc.blocks, initState, zeroStats]
    · simp [Agrees, Pc.bytes, initState, zeroStats, total]
  | call w w' t c _ hs ih =>
    obtain ⟨m, hm⟩ := ih
    exact ⟨m, consistent_call hm hs⟩
  | advance w w' t ans _ hans hok hs ih =>
    obtain ⟨m, hm⟩ := ih
    exact consistent_advance hm hans hok hs

end Steps

/-! ### The result -/

/-- The number of live slots. -/
def liveEntries (t : Registry) : ℕ :=
  (Finset.univ.filter fun j : Fin aoRegistryCapacity => 2 ≤ (t j).key).card

theorem liveEntries_eq {t : Registry} {m : BlockMap} (h : Represents t m) :
    liveEntries t = {k | m k ≠ none}.ncard := by
  rw [ProbeTable.ncard_bound h.sound h.binds, liveEntries, ← Set.ncard_coe_finset]
  congr 1
  ext j
  simp only [Finset.coe_filter, Finset.mem_univ, true_and, Set.mem_ofPred_eq]
  constructor
  · intro hk
    have h0 : (t j).key ≠ 0 := by omega
    have h1 : (t j).key ≠ 1 := by omega
    exact ⟨(t j).key, ((t j).requestedSize, (t j).allocationId), by
      simp only [view, decode, h0, h1, ite_false]⟩
  · rintro ⟨k, v, hv⟩
    obtain ⟨hk, hge⟩ := view_live_key hv
    rw [hk]
    exact hge

omit [DecidableEq T] in
/-- At rest the registry holds exactly the blocks handed out. -/
theorem bound_iff_held [Fintype T] {w : World T} {m : BlockMap} (h : Consistent w m)
    (hidle : ∀ t, w.pc t = .idle) (p : ℕ) : m p ≠ none ↔ w.held.lookup p ≠ none := by
  constructor
  · intro hp
    obtain ⟨o, ho⟩ := h.owned.cover p (by simpa [sizes] using hp)
    cases o with
    | inl t =>
      rw [shares_pc (hidle t)] at ho
      rcases ho with ho | ho
      · cases ho.1
      · cases ho
    | inr q =>
      simp only [World.shares, Sum.elim_inr, heldShare] at ho
      cases hq : w.held.lookup q with
      | none =>
        rw [hq] at ho
        rcases ho with ho | ho
        · cases ho.1
        · cases ho
      | some v =>
        rw [hq] at ho
        rcases ho with ho | ho
        · cases ho.1
          rw [hq]
          simp
        · cases ho
  · intro hp
    obtain ⟨v, hv⟩ := Option.ne_none_iff_exists'.mp hp
    have hshare : w.shares (Sum.inr p) = ⟨some p, some v.2, none⟩ := by
      simp only [World.shares, Sum.elim_inr, heldShare, hv]
    obtain ⟨id, hid⟩ := entry_of_share h hshare
    rw [hid]
    simp

/-- In every run in which each second registry section of a `realloc` is
undisturbed: a block handed out is in the registry with its size, and while no
call is in progress both live counters agree with the blocks handed out. -/
theorem interleaving_exact [Fintype T] {w : World T} (h : Interleaved Undisturbed w) :
    (∀ p t size, w.held.lookup p = some (t, size) →
      ∃ id, aoRegistryLookupLocked w.shared.registry p = some (size, id)) ∧
    ((∀ t, w.pc t = .idle) →
      w.shared.stats.liveBlocks = liveEntries w.shared.registry ∧
      liveEntries w.shared.registry = w.held.keys.length ∧
      w.shared.stats.liveBytes = (w.held.entries.map fun e => e.2.2).sum % 2 ^ 64) := by
  obtain ⟨m, hm⟩ := consistent_run h
  refine ⟨?_, ?_⟩
  · intro p t size hp
    have hshare : w.shares (Sum.inr p) = ⟨some p, some size, none⟩ := by
      simp only [World.shares, Sum.elim_inr, heldShare, hp]
    obtain ⟨id, hid⟩ := entry_of_share hm hshare
    rw [lookup_spec hm.represents p (owned_ge hm (o := Sum.inr p) (by rw [hshare]))]
    exact ⟨id, hid⟩
  · intro hidle
    have hcount : liveEntries w.shared.registry = w.held.entries.length := by
      have hset : {k | m k ≠ none} = {k | w.held.lookup k ≠ none} :=
        Set.ext fun k => bound_iff_held hm hidle k
      rw [liveEntries_eq hm.represents, hset, ncard_keys]
    have hkeys : w.held.keys.length = w.held.entries.length := List.length_map _
    have hle := represents_ncard_le hm.represents
    rw [← liveEntries_eq hm.represents, hcount] at hle
    have hcap : w.held.entries.length < 2 ^ 64 := hle.trans_lt (by decide)
    have hblocks := hm.blocks
    have hbytes := hm.bytes
    simp only [hidle, Pc.blocks, Pc.bytes, Finset.sum_const_zero, add_zero, Agrees] at hblocks hbytes
    refine ⟨?_, ?_, ?_⟩
    · rw [hcount]
      omega
    · rw [hkeys]
      exact hcount
    · change _ = total Prod.snd w.held % 2 ^ 64
      omega

/-- The condition cannot be dropped: a disturbed section takes the entry of a
block that another thread holds. -/
theorem disturbed_loses [Fintype T] {w w' : World T} {t u : T} {ptr size newPtr was ans : ℕ}
    {old : ℕ × ℕ} (h : Interleaved Undisturbed w) (hpc : w.pc t = .reallocSwap ptr size old newPtr)
    (hne : newPtr ≠ ptr) (hheld : w.held.lookup ptr = some (u, was))
    (hs : advance w t ans = some w') :
    w'.held.lookup ptr = some (u, was) ∧ aoRegistryLookupLocked w'.shared.registry ptr = none := by
  obtain ⟨m, hm⟩ := consistent_run h
  have hge : 2 ≤ ptr := by
    have hmat := hm.matched t
    rwa [hpc] at hmat
  have hremoved := (remove_spec hm.represents ptr hge).2
  simp only [advance, hpc] at hs
  split at hs
  · cases hs
    refine ⟨hheld, ?_⟩
    rw [← Function.update_self ptr none m]
    exact lookup_spec hremoved ptr hge
  · rename_i h0
    cases hs
    refine ⟨hheld, ?_⟩
    have hnew : 2 ≤ newPtr := by
      refine owned_ge hm (o := Sum.inl t) ?_
      rw [shares_pc hpc, Pc.share, if_neg hne, if_neg h0]
    rcases insert_spec hremoved newPtr size old.2 hnew with ⟨_, _, heq⟩ | ⟨_, _, hrep⟩
    · refine Eq.trans ?_ ((lookup_spec hremoved ptr hge).trans (Function.update_self ..))
      exact congrArg (fun r : Bool × Registry => aoRegistryLookupLocked r.2 ptr) heq
    · refine (lookup_spec hrep ptr hge).trans ?_
      rw [Function.update_of_ne hne.symm, Function.update_self]

/-! ### Two schedules -/

def Pc.swaps : Pc → Bool
  | .reallocSwap _ _ _ _ => true
  | _ => false

/-- Steps in which the real allocator is not called, or fails, and no second
section of a `realloc`. -/
def advances (w : World T) : List T → Option (World T)
  | [] => some w
  | t :: ts =>
    if (w.pc t).swaps then none else (advance w t 0).bind fun w' => advances w' ts

theorem interleaved_advances {ok : World T → T → Prop}
    (hok : ∀ w t, (w.pc t).swaps = false → ok w t) {w w' : World T} (h : Interleaved ok w)
    (ts : List T) (hs : advances w ts = some w') : Interleaved ok w' := by
  induction ts generalizing w with
  | nil =>
    cases hs
    exact h
  | cons t ts ih =>
    unfold advances at hs
    split at hs
    · cases hs
    · rename_i hswaps
      obtain ⟨v, hv, hs⟩ := Option.bind_eq_some_iff.mp hs
      exact ih (.advance w v t 0 h (Or.inl rfl) (hok w t (eq_false_of_ne_true hswaps)) hv) hs

def raceStart : World Bool :=
  ⟨{ initState sampleBootstrap ∅ with resolved := true }, fun _ => .idle, ∅⟩

omit [DecidableEq T] in
theorem undisturbed_of_quiet (w : World T) (t : T) (h : (w.pc t).swaps = false) :
    Undisturbed w t := by
  intro ptr size old newPtr hpc
  rw [hpc] at h
  cases h

omit [DecidableEq T] in
theorem undisturbed_of_absent {w : World T} {t : T} {ptr size newPtr : ℕ} {old : ℕ × ℕ}
    (hpc : w.pc t = .reallocSwap ptr size old newPtr)
    (hothers : ∀ u ≠ t, (w.pc u).share.owns ≠ some ptr) (hheld : w.held.lookup ptr = none) :
    Undisturbed w t := by
  intro ptr' size' old' newPtr' hpc' _ o ho henters
  obtain ⟨rfl, rfl, rfl, rfl⟩ := Pc.reallocSwap.inj (hpc.symm.trans hpc')
  cases o with
  | inl u => exact hothers u (fun heq => ho (congrArg Sum.inl heq)) henters.1
  | inr q =>
    have howns : (heldShare w.held q).owns = some ptr := henters.1
    unfold heldShare at howns
    split at howns
    · rename_i v hv
      obtain rfl := Option.some.inj howns
      rw [hheld] at hv
      cases hv
    · cases howns

/-- Both threads get a block, and one of them has its block moved while the other
gets one more. -/
theorem interleaving_exact_sample : ∃ w : World Bool, Interleaved Undisturbed w ∧
    w.held.entries =
      [⟨4194304, false, 100⟩, ⟨3145728, true, 24⟩, ⟨2097152, false, 16⟩] ∧
    (∃ id, aoRegistryLookupLocked w.shared.registry 3145728 = some (24, id)) ∧
    w.shared.stats.liveBlocks = 3 ∧ w.shared.stats.liveBytes = 140 := by
  have h0 : Interleaved Undisturbed raceStart := .start sampleBootstrap ∅ (by decide)
  have h1 := Interleaved.call _ _ true (.malloc 8) h0 rfl
  have h2 := Interleaved.call _ _ false (.malloc 16) h1 rfl
  have h3 := Interleaved.advance _ _ false 2097152 h2 (Or.inr ⟨by decide, by decide⟩)
    (undisturbed_of_quiet _ _ rfl) rfl
  have h4 := Interleaved.advance _ _ true 1048576 h3 (Or.inr ⟨by decide, by decide⟩)
    (undisturbed_of_quiet _ _ rfl) rfl
  have h5 := interleaved_advances undisturbed_of_quiet h4
    [true, false, false, true, true, false, true, false, true, false] rfl
  have h6 := Interleaved.call _ _ true (.realloc 1048576 24) h5 rfl
  have h7 := Interleaved.call _ _ false (.malloc 100) h6 rfl
  have h8 := interleaved_advances undisturbed_of_quiet h7 [true] rfl
  have h9 := Interleaved.advance _ _ true 3145728 h8 (Or.inr ⟨by decide, by decide⟩)
    (undisturbed_of_quiet _ _ rfl) rfl
  have h10 := Interleaved.advance _ _ false 4194304 h9 (Or.inr ⟨by decide, by decide⟩)
    (undisturbed_of_quiet _ _ rfl) rfl
  have h11 := interleaved_advances undisturbed_of_quiet h10 [false] rfl
  have h12 := Interleaved.advance _ _ true 0 h11 (Or.inl rfl)
    (undisturbed_of_absent rfl (fun u hu => by cases u <;> trivial) rfl) rfl
  have h13 := interleaved_advances undisturbed_of_quiet h12
    [false, true, false, true, false, true, false] rfl
  obtain ⟨hentry, hcounters⟩ := interleaving_exact h13
  obtain ⟨hblocks, hlive, hbytes⟩ := hcounters fun t => by cases t <;> rfl
  exact ⟨_, h13, rfl, hentry _ true 24 rfl, (hblocks.trans hlive).trans rfl, hbytes.trans rfl⟩

/-- Thread `true` reallocates its block; before it reaches the second section
thread `false` is given the old address, and then loses its entry. -/
theorem interleaving_race : ¬ ∀ w : World Bool, Interleaved (fun _ _ => True) w →
    (∀ p t size, w.held.lookup p = some (t, size) →
      ∃ id, aoRegistryLookupLocked w.shared.registry p = some (size, id)) ∧
    ((∀ t, w.pc t = .idle) →
      w.shared.stats.liveBlocks = liveEntries w.shared.registry ∧
      liveEntries w.shared.registry = w.held.keys.length ∧
      w.shared.stats.liveBytes = (w.held.entries.map fun e => e.2.2).sum % 2 ^ 64) := by
  intro hall
  have h0 : Interleaved (fun _ _ => True) raceStart := .start sampleBootstrap ∅ (by decide)
  have h1 := Interleaved.call _ _ true (.malloc 8) h0 rfl
  have h2 := Interleaved.advance _ _ true 1048576 h1 (Or.inr ⟨by decide, by decide⟩) trivial rfl
  have h3 := interleaved_advances (fun _ _ _ => trivial) h2 (List.replicate 5 true) rfl
  have h4 := Interleaved.call _ _ true (.realloc 1048576 24) h3 rfl
  have h5 := Interleaved.advance _ _ true 0 h4 (Or.inl rfl) trivial rfl
  have h6 := Interleaved.advance _ _ true 2097152 h5 (Or.inr ⟨by decide, by decide⟩) trivial rfl
  have h7 := Interleaved.call _ _ false (.malloc 8) h6 rfl
  have h8 := Interleaved.advance _ _ false 1048576 h7 (Or.inr ⟨by decide, by decide⟩) trivial rfl
  have h9 := interleaved_advances (fun _ _ _ => trivial) h8 (List.replicate 5 false) rfl
  have h10 := Interleaved.advance _ _ true 0 h9 (Or.inl rfl) trivial rfl
  obtain ⟨id, hid⟩ := (hall _ h10).1 1048576 false 8 rfl
  have hnone : (none : Option (ℕ × ℕ)) = some (8, id) := hid
  cases hnone

end LibcOverride.MockAllocator

import LibcOverride.MockAllocator.Sessions
import Mathlib.Logic.Function.Basic
import Mathlib.Logic.Relation

/-!
# One resolution for all threads (src/mock_allocator.c:48-54, 291-319, 468-651)

The first thread to reach `pthread_once` runs the resolver, the others wait there
until it has returned. `dlsym` may call the allocator back. `g_in_resolver` is
thread-local, the four real functions are NULL until the resolver has looked
them up, and the bootstrap heap serves whoever has the flag set.
-/

namespace LibcOverride.MockAllocator.Once
open Word

/-- The real functions, in the order of their `dlsym` calls. -/
inductive RealFunction where
  | malloc
  | calloc
  | realloc
  | free
  deriving Repr, DecidableEq

/-- `g_resolve_once`. -/
inductive OnceFlag (T : Type) where
  | init
  | running (t : T)
  | done
  deriving Repr, DecidableEq

/-- A call of the program: the exported functions and the two of the bridge that
reach the real allocator. -/
inductive Entry where
  | exported (r : Request)
  | libcFree (ptr : ℕ)
  | libcRealloc (ptr size : ℕ)
  deriving Repr, DecidableEq

def Entry.toCall : Entry → Call
  | .exported (.malloc size) => .malloc size
  | .exported (.calloc nmemb size) => .calloc nmemb size
  | .exported (.realloc ptr size) => .realloc ptr size
  | .exported (.free ptr) => .free ptr
  | .libcFree ptr => .libcFree ptr
  | .libcRealloc ptr size => .libcRealloc ptr size

/-- A call up to `ao_ensure_real_functions`, with the real function that it goes
on to use, or up to its return. -/
def beginCall (inResolver : Bool) (s : State) : Entry → State × Option RealFunction
  | .exported (.malloc size) =>
    if inResolver then ((resolverMalloc s size).2, none) else (s, some .malloc)
  | .exported (.calloc nmemb size) =>
    if inResolver then ((resolverCalloc s nmemb size).2, none)
    else if nmemb ≠ 0 ∧ size > sizeMax / nmemb then
      (aoRecordFailedAllocation { s with errno := .enomem }, none)
    else (s, some .calloc)
  | .exported (.realloc ptr size) =>
    if inResolver then ((bootstrapRealloc s ptr size).2, none)
    else if aoBootstrapContains s.bootstrap ptr then ((bootstrapRealloc s ptr size).2, none)
    else (s, some .realloc)
  | .exported (.free ptr) =>
    if ptr = 0 then (s, none)
    else if aoBootstrapContains s.bootstrap ptr then (s, none)
    else if inResolver then (s, none)
    else (s, some .free)
  | .libcFree ptr => if ptr = 0 then (s, none) else (s, some .free)
  | .libcRealloc _ _ => (s, some .realloc)

/-! ### The sequential calls begin so -/

/-- A call that needs no real function is complete when it has begun. -/
theorem step_served {ld : Loader} {s : State} {e : Entry} {ans : ℕ}
    (h : (beginCall s.inResolver s e).2 = none) :
    ∃ v, step ld s e.toCall ans = .ret v (beginCall s.inResolver s e).1 := by
  cases e with
  | exported r =>
    cases r with
    | malloc size =>
      simp only [beginCall, Entry.toCall, step, malloc] at h ⊢
      split at h
      · rename_i hres
        simp only [hres, if_true]
        exact ⟨_, rfl⟩
      · cases h
    | calloc nmemb size =>
      simp only [beginCall, Entry.toCall, step, calloc] at h ⊢
      split at h
      · rename_i hres
        simp only [hres, if_true]
        exact ⟨_, rfl⟩
      · rename_i hres
        split at h
        · rename_i hover
          rw [if_neg hres, if_neg hres, if_pos hover, if_pos hover]
          exact ⟨_, rfl⟩
        · cases h
    | realloc ptr size =>
      simp only [beginCall, Entry.toCall, step, realloc] at h ⊢
      split at h
      · rename_i hres
        simp only [hres, if_true]
        exact ⟨_, rfl⟩
      · rename_i hres
        split at h
        · rename_i hin
          rw [if_neg hres, if_neg hres, if_pos hin, if_pos hin]
          exact ⟨_, rfl⟩
        · cases h
    | free ptr =>
      simp only [beginCall, Entry.toCall, step, free] at h ⊢
      split at h
      · rename_i h0
        rw [if_pos h0, if_pos h0]
        exact ⟨_, rfl⟩
      · rename_i h0
        rw [if_neg h0, if_neg h0]
        split at h
        · rename_i hin
          rw [if_pos hin, if_pos hin]
          exact ⟨_, rfl⟩
        · rename_i hin
          rw [if_neg hin, if_neg hin]
          split at h
          · rename_i hres
            rw [if_pos hres, if_pos hres]
            exact ⟨_, rfl⟩
          · cases h
  | libcFree ptr =>
    simp only [beginCall, Entry.toCall, step, aoAllocBridgeLibcFree] at h ⊢
    split at h
    · rename_i h0
      rw [if_pos h0, if_pos h0]
      exact ⟨_, rfl⟩
    · cases h
  | libcRealloc ptr size => cases h

theorem bind_assoc {α β γ : Type} (o : Outcome α) (k : α → State → Outcome β)
    (k' : β → State → Outcome γ) :
    (o.bind k).bind k' = o.bind fun a s => (k a s).bind k' := by
  cases o <;> rfl

theorem bind_congr {α β : Type} {o : Outcome α} {k k' : α → State → Outcome β}
    (h : ∀ a s, o = .ret a s → k a s = k' a s) : o.bind k = o.bind k' := by
  cases o with
  | ret a s => exact h a s rfl
  | exit why => rfl

/-- Any other call first makes sure of the real functions and then is as if they
had always been there. -/
theorem step_ensures {ld : Loader} {s : State} {e : Entry} {ans : ℕ} {f : RealFunction}
    (hres : s.inResolver = false) (h : (beginCall s.inResolver s e).2 = some f) :
    step ld s e.toCall ans =
      (aoEnsureRealFunctions ld s).bind fun _ s' => step ld s' e.toCall ans := by
  have hagain (s' : State) (u : Unit) (hs' : aoEnsureRealFunctions ld s = .ret u s') :
      aoEnsureRealFunctions ld s' = .ret () s' ∧ s'.inResolver = false ∧
        ∀ ptr, aoBootstrapContains s'.bootstrap ptr = aoBootstrapContains s.bootstrap ptr := by
    have hcore := ensure_core hres hs'
    have hbase : s'.bootstrap.base = s.bootstrap.base := congrArg Core.base hcore
    refine ⟨ensure_resolved (ensure_resolves hs'), (congrArg Core.inResolver hcore).trans hres, ?_⟩
    intro ptr
    rw [aoBootstrapContains, aoBootstrapContains, hbase]
  rw [hres] at h
  cases e with
  | exported r =>
    cases r with
    | malloc size =>
      simp only [Entry.toCall, step, malloc, hres, Bool.false_eq_true, if_false]
      refine bind_congr fun u s' hs' => ?_
      obtain ⟨hensure, hres', _⟩ := hagain s' u hs'
      simp only [hres', hensure, Bool.false_eq_true, if_false, Outcome.bind]
    | calloc nmemb size =>
      have hfits : ¬(nmemb ≠ 0 ∧ size > sizeMax / nmemb) := by
        intro hover
        simp only [beginCall, Bool.false_eq_true, if_false, if_pos hover] at h
        cases h
      simp only [Entry.toCall, step, calloc, hres, Bool.false_eq_true, if_false, if_neg hfits]
      refine bind_congr fun u s' hs' => ?_
      obtain ⟨hensure, hres', _⟩ := hagain s' u hs'
      simp only [hres', hensure, Bool.false_eq_true, if_false, Outcome.bind]
    | realloc ptr size =>
      have hout : ¬aoBootstrapContains s.bootstrap ptr = true := by
        intro hin
        simp only [beginCall, Bool.false_eq_true, if_false, if_pos hin] at h
        cases h
      simp only [Entry.toCall, step, realloc, hres, Bool.false_eq_true, if_false, if_neg hout]
      refine bind_congr fun u s' hs' => ?_
      obtain ⟨hensure, hres', hsame⟩ := hagain s' u hs'
      rw [← hsame] at hout
      simp only [hres', hensure, Bool.false_eq_true, if_false, if_neg hout, Outcome.bind]
    | free ptr =>
      simp only [beginCall, Bool.false_eq_true, if_false] at h
      split at h
      · cases h
      · rename_i h0
        split at h
        · cases h
        · rename_i hout
          simp only [Entry.toCall, step, free, hres, Bool.false_eq_true, if_false, if_neg hout,
            if_neg h0, bind_assoc]
          refine bind_congr fun u s' hs' => ?_
          obtain ⟨hensure, hres', hsame⟩ := hagain s' u hs'
          rw [← hsame] at hout
          simp only [hres', hensure, Bool.false_eq_true, if_false, if_neg hout, Outcome.bind]
  | libcFree ptr =>
    have h0 : ptr ≠ 0 := by
      intro h0
      simp only [beginCall, if_pos h0] at h
      cases h
    simp only [Entry.toCall, step, aoAllocBridgeLibcFree, if_neg h0, bind_assoc]
    refine bind_congr fun u s' hs' => ?_
    simp only [(hagain s' u hs').1, Outcome.bind]
  | libcRealloc ptr size =>
    simp only [Entry.toCall, step, aoAllocBridgeLibcRealloc]
    refine bind_congr fun u s' hs' => ?_
    simp only [(hagain s' u hs').1, Outcome.bind]

/-! ### Threads -/

/-- Where a thread is. `next` is what follows the resolver, `back` what follows
the call. -/
inductive Stage where
  | idle
  | ensure (f : RealFunction) (back : Stage)
  | setFlag (next : Stage)
  | lookUp (f : RealFunction) (next : Stage)
  | clearFlag (next : Stage)
  | check (next : Stage)
  | real (f : RealFunction) (back : Stage)
  deriving Repr, DecidableEq

/-- The resolver after the `dlsym` for `f`. -/
def Stage.after (next : Stage) : RealFunction → Stage
  | .malloc => .lookUp .calloc next
  | .calloc => .lookUp .realloc next
  | .realloc => .lookUp .free next
  | .free => .clearFlag next

/-- `pointer` is the variable `g_real_*` of each function; NULL is 0. -/
structure Process (T : Type) where
  shared : State
  once : OnceFlag T
  inResolver : T → Bool
  pointer : RealFunction → ℕ
  pc : T → Stage

variable {T : Type} [DecidableEq T]

def Process.goto (p : Process T) (t : T) (next : Stage) : Process T :=
  { p with pc := Function.update p.pc t next }

/-- A call that `t` makes where it stands, in the program or in `dlsym`. -/
def Process.enter (p : Process T) (t : T) (e : Entry) : Process T :=
  let r := beginCall (p.inResolver t) p.shared e
  match r.2 with
  | none => { p with shared := r.1 }
  | some f => { p with shared := r.1 }.goto t (.ensure f (p.pc t))

/-- One step of `t`. The loader only knows the exported functions; a missing
symbol ends the process. What follows the real function is any change of the
state that leaves the bootstrap heap alone. -/
inductive Process.Step (p : Process T) (t : T) : Process T → Prop where
  | call (e : Entry) (hpc : p.pc t = .idle) : p.Step t (p.enter t e)
  | callBack (r : Request) (f : RealFunction) (next : Stage) (hpc : p.pc t = .lookUp f next) :
      p.Step t (p.enter t (.exported r))
  | first (f : RealFunction) (back : Stage) (hpc : p.pc t = .ensure f back)
      (ho : p.once = .init) :
      p.Step t ({ p with once := .running t }.goto t (.setFlag (.real f back)))
  | resolved (f : RealFunction) (back : Stage) (hpc : p.pc t = .ensure f back)
      (ho : p.once = .done) : p.Step t (p.goto t (.real f back))
  | setFlag (next : Stage) (hpc : p.pc t = .setFlag next) :
      p.Step t ({ p with inResolver := Function.update p.inResolver t true }.goto t
        (.lookUp .malloc next))
  | lookUp (f : RealFunction) (next : Stage) (symbol : ℕ) (hpc : p.pc t = .lookUp f next) :
      p.Step t ({ p with pointer := Function.update p.pointer f symbol }.goto t (next.after f))
  | clearFlag (next : Stage) (hpc : p.pc t = .clearFlag next) :
      p.Step t ({ p with inResolver := Function.update p.inResolver t false }.goto t (.check next))
  | check (next : Stage) (hpc : p.pc t = .check next) (hall : ∀ f, p.pointer f ≠ 0) :
      p.Step t ({ p with once := .done }.goto t next)
  | real (f : RealFunction) (back : Stage) (s : State) (hpc : p.pc t = .real f back)
      (hs : s.bootstrap = p.shared.bootstrap) : p.Step t ({ p with shared := s }.goto t back)

def Process.start (s : State) : Process T :=
  ⟨s, .init, fun _ => false, fun _ => 0, fun _ => .idle⟩

/-- Any order of the steps of any threads. -/
inductive Runs (p : Process T) : Process T → Prop where
  | refl : Runs p p
  | step (q q' : Process T) (t : T) (hq : Runs p q) (h : q.Step t q') : Runs p q'

/-! ### The invariant -/

/-- In the resolver, from the call of `pthread_once` that started it. -/
def Stage.resolving : Stage → Bool
  | .setFlag _ => true
  | .lookUp _ _ => true
  | .clearFlag _ => true
  | .check _ => true
  | _ => false

/-- Between the two assignments of `g_in_resolver`. -/
def Stage.flagged : Stage → Bool
  | .lookUp _ _ => true
  | .clearFlag _ => true
  | _ => false

/-- No call of the loader waits or reaches a real function. -/
def Stage.Plain : Stage → Prop
  | .idle => True
  | .ensure _ back => back = .idle
  | .setFlag next => ∃ f, next = .real f .idle
  | .lookUp _ next => ∃ f, next = .real f .idle
  | .clearFlag next => ∃ f, next = .real f .idle
  | .check next => ∃ f, next = .real f .idle
  | .real _ back => back = .idle

/-- The requests the bootstrap heap has served account for what it is. -/
structure Process.Inv (s₀ : State) (p : Process T) : Prop where
  plain : ∀ t, (p.pc t).Plain
  running : ∀ t, (p.pc t).resolving = true ↔ p.once = .running t
  flag : ∀ t, p.inResolver t = (p.pc t).flagged
  real : ∀ t f back, p.pc t = .real f back → p.once = .done
  found : p.once = .done → ∀ f, p.pointer f ≠ 0
  served : ∃ rs : List Request, p.shared.bootstrap = (rs.foldl resolverCall s₀).bootstrap

theorem resolverCall_bootstrap {s s' : State} (h : s.bootstrap = s'.bootstrap) (r : Request) :
    (resolverCall s r).bootstrap = (resolverCall s' r).bootstrap := by
  cases r with
  | malloc size => simp only [resolverCall, resolverMalloc, withBootstrap, h]
  | calloc nmemb size =>
    simp only [resolverCall, resolverCalloc, withBootstrap, h]
    split <;> rfl
  | realloc ptr size => simp only [resolverCall, bootstrapRealloc, withBootstrap, h]
  | free ptr => exact h

/-- What a call does before it needs a real function is a request to the
bootstrap heap, or does not concern it. -/
theorem beginCall_bootstrap (b : Bool) (s : State) (e : Entry) :
    (beginCall b s e).1.bootstrap = s.bootstrap ∨
      ∃ r, (beginCall b s e).1.bootstrap = (resolverCall s r).bootstrap := by
  cases e with
  | exported r =>
    cases r with
    | malloc size =>
      cases b with
      | true => exact Or.inr ⟨.malloc size, rfl⟩
      | false => exact Or.inl rfl
    | calloc nmemb size =>
      cases b with
      | true => exact Or.inr ⟨.calloc nmemb size, rfl⟩
      | false =>
        left
        simp only [beginCall, Bool.false_eq_true, if_false]
        split
        · unfold aoRecordFailedAllocation
          split <;> rfl
        · rfl
    | realloc ptr size =>
      cases b with
      | true => exact Or.inr ⟨.realloc ptr size, rfl⟩
      | false =>
        simp only [beginCall, Bool.false_eq_true, if_false]
        split
        · exact Or.inr ⟨.realloc ptr size, rfl⟩
        · exact Or.inl rfl
    | free ptr =>
      left
      simp only [beginCall]
      repeat' split
      all_goals rfl
  | libcFree ptr =>
    left
    simp only [beginCall]
    split <;> rfl
  | libcRealloc ptr size => exact Or.inl rfl

/-- The loader's own calls are served: none waits for the resolver. -/
theorem beginCall_resolver (s : State) (r : Request) : (beginCall true s (.exported r)).2 = none := by
  cases r with
  | free ptr =>
    simp only [beginCall, if_true]
    repeat' split
    all_goals rfl
  | _ => rfl

section Invariant

variable {s₀ : State} {p q : Process T}

theorem enter_served {t : T} {e : Entry} (hb : (beginCall (p.inResolver t) p.shared e).2 = none) :
    p.enter t e = { p with shared := (beginCall (p.inResolver t) p.shared e).1 } := by
  simp only [Process.enter, hb]

theorem enter_waits {t : T} {e : Entry} {f : RealFunction}
    (hb : (beginCall (p.inResolver t) p.shared e).2 = some f) :
    p.enter t e = { p with shared := (beginCall (p.inResolver t) p.shared e).1 }.goto t
      (.ensure f (p.pc t)) := by
  simp only [Process.enter, hb]

omit [DecidableEq T] in
theorem inv_start (s₀ : State) : (Process.start s₀ : Process T).Inv s₀ := by
  refine ⟨fun t => trivial, ?_, fun t => rfl, ?_, ?_, [], rfl⟩
  · intro t
    constructor
    · intro h
      cases h
    · intro h
      cases h
  · intro t f back h
    cases h
  · intro h
    cases h

/-- What a step that takes `t` to `next` has to show. -/
theorem Process.Inv.goto (h : p.Inv s₀) {t : T} {next : Stage}
    (hpc : q.pc = Function.update p.pc t next) (hplain : next.Plain)
    (hself : next.resolving = true ↔ q.once = .running t)
    (hothers : ∀ u ≠ t, q.once = .running u ↔ p.once = .running u)
    (hflag : q.inResolver t = next.flagged) (hflags : ∀ u ≠ t, q.inResolver u = p.inResolver u)
    (hdone : p.once = .done → q.once = .done)
    (hreal : ∀ f back, next = .real f back → q.once = .done)
    (hfound : q.once = .done → ∀ f, q.pointer f ≠ 0)
    (hserved : ∃ rs : List Request,
      q.shared.bootstrap = (rs.foldl resolverCall s₀).bootstrap) : q.Inv s₀ := by
  have hat : q.pc t = next := by rw [hpc, Function.update_self]
  have helse (u : T) (hu : u ≠ t) : q.pc u = p.pc u := by rw [hpc, Function.update_of_ne hu]
  refine ⟨?_, ?_, ?_, ?_, hfound, hserved⟩
  · intro u
    by_cases hu : u = t
    · rw [hu, hat]
      exact hplain
    · rw [helse u hu]
      exact h.plain u
  · intro u
    by_cases hu : u = t
    · rw [hu, hat]
      exact hself
    · rw [helse u hu, hothers u hu]
      exact h.running u
  · intro u
    by_cases hu : u = t
    · rw [hu, hat]
      exact hflag
    · rw [helse u hu, hflags u hu]
      exact h.flag u
  · intro u f back hu
    by_cases hut : u = t
    · rw [hut, hat] at hu
      exact hreal f back hu
    · rw [helse u hut] at hu
      exact hdone (h.real u f back hu)

theorem Process.Inv.enter (h : p.Inv s₀) {t : T} {e : Entry}
    (hwaits : (beginCall (p.inResolver t) p.shared e).2 ≠ none → p.pc t = .idle) :
    (p.enter t e).Inv s₀ := by
  have hserved : ∃ rs : List Request, (beginCall (p.inResolver t) p.shared e).1.bootstrap =
      (rs.foldl resolverCall s₀).bootstrap := by
    obtain ⟨rs, hrs⟩ := h.served
    rcases beginCall_bootstrap (p.inResolver t) p.shared e with hsame | ⟨r, hr⟩
    · exact ⟨rs, hsame.trans hrs⟩
    · refine ⟨rs ++ [r], ?_⟩
      rw [List.foldl_append, List.foldl_cons, List.foldl_nil, hr]
      exact resolverCall_bootstrap hrs r
  cases hb : (beginCall (p.inResolver t) p.shared e).2 with
  | none =>
    rw [enter_served hb]
    exact ⟨h.plain, h.running, h.flag, h.real, h.found, hserved⟩
  | some f =>
    rw [enter_waits hb]
    have hpc : p.pc t = .idle := by
      apply hwaits
      rw [hb]
      simp
    have hself := h.running t
    have hflag := h.flag t
    rw [hpc] at hself hflag
    refine h.goto rfl hpc hself (fun _ _ => Iff.rfl) hflag (fun _ _ => rfl) id ?_ h.found hserved
    intro g back hg
    cases hg

theorem Process.Inv.step (h : p.Inv s₀) {t : T} (hs : p.Step t q) : q.Inv s₀ := by
  have hself := h.running t
  have hflag := h.flag t
  have hplain := h.plain t
  cases hs with
  | call e hpc => exact h.enter fun _ => hpc
  | callBack r f next hpc =>
    refine h.enter fun hwaits => (hwaits ?_).elim
    rw [hflag, hpc]
    exact beginCall_resolver p.shared r
  | first f back hpc ho =>
    rw [hpc] at hplain hflag
    have hback : back = .idle := hplain
    refine h.goto rfl ⟨f, by rw [hback]⟩ ⟨fun _ => rfl, fun _ => rfl⟩ ?_ hflag (fun _ _ => rfl) ?_
      ?_ ?_ h.served
    · intro u hu
      simp [Process.goto, ho, Ne.symm hu]
    · intro hd
      rw [ho] at hd
      cases hd
    · intro g back hg
      cases hg
    · intro hd
      cases hd
  | resolved f back hpc ho =>
    rw [hpc] at hplain hflag
    refine h.goto rfl hplain ?_ (fun _ _ => Iff.rfl) hflag (fun _ _ => rfl) id (fun _ _ _ => ho)
      h.found h.served
    simp [Stage.resolving, Process.goto, ho]
  | setFlag next hpc =>
    rw [hpc] at hplain hself
    refine h.goto rfl hplain hself (fun _ _ => Iff.rfl) (Function.update_self ..) ?_ id ?_ h.found
      h.served
    · intro u hu
      exact Function.update_of_ne hu _ _
    · intro g back hg
      cases hg
  | lookUp f next symbol hpc =>
    rw [hpc] at hplain hself hflag
    have hrunning : p.once = .running t := hself.mp rfl
    have hresolving : (next.after f).resolving = true := by cases f <;> rfl
    have hflagged : (next.after f).flagged = true := by cases f <;> rfl
    refine h.goto rfl ?_ ⟨fun _ => hrunning, fun _ => hresolving⟩ (fun _ _ => Iff.rfl)
      (hflag.trans hflagged.symm) (fun _ _ => rfl) id ?_ ?_ h.served
    · cases f <;> exact hplain
    · intro g back hg
      rw [hg] at hresolving
      cases hresolving
    · intro hd
      have hd' : p.once = .done := hd
      rw [hrunning] at hd'
      cases hd'
  | clearFlag next hpc =>
    rw [hpc] at hplain hself
    refine h.goto rfl hplain hself (fun _ _ => Iff.rfl) (Function.update_self ..) ?_ id ?_ h.found
      h.served
    · intro u hu
      exact Function.update_of_ne hu _ _
    · intro g back hg
      cases hg
  | check next hpc hall =>
    rw [hpc] at hplain hself hflag
    have hrunning : p.once = .running t := hself.mp rfl
    obtain ⟨f, hnext⟩ := hplain
    subst hnext
    refine h.goto rfl rfl ?_ ?_ hflag (fun _ _ => rfl) (fun _ => rfl) (fun _ _ _ => rfl)
      (fun _ => hall) h.served
    · simp [Stage.resolving, Process.goto]
    · intro u hu
      simp [Process.goto, hrunning, Ne.symm hu]
  | real f back s hpc hs =>
    rw [hpc] at hplain hflag
    have hback : back = .idle := hplain
    subst hback
    have hdone := h.real t f _ hpc
    obtain ⟨rs, hrs⟩ := h.served
    refine h.goto rfl trivial ?_ (fun _ _ => Iff.rfl) hflag (fun _ _ => rfl) id ?_ h.found
      ⟨rs, hs.trans hrs⟩
    · simp [Stage.resolving, Process.goto, hdone]
    · intro g back hg
      cases hg

theorem inv_run (s₀ : State) (h : Runs (Process.start s₀) p) : p.Inv s₀ := by
  induction h with
  | refl => exact inv_start s₀
  | step q q' t _ hs ih => exact ih.step hs

/-! ### Results -/

/-- In every run: no NULL pointer is called for a real function; one thread at a
time resolves; the flag is up only in the thread that does; a thread does not
wait for itself; the bootstrap heap has served a sequence of requests, each of
which is one step here. -/
theorem resolution_safe (s₀ : State) (h : Runs (Process.start s₀) p) :
    (∀ t f back, p.pc t = .real f back → ∀ g, p.pointer g ≠ 0) ∧
    (∀ t u, (p.pc t).resolving = true → (p.pc u).resolving = true → t = u) ∧
    (∀ t, p.inResolver t = true → p.once = .running t) ∧
    (∀ t f back, p.pc t = .ensure f back → p.once ≠ .running t) ∧
    ∃ rs : List Request, p.shared.bootstrap = (rs.foldl resolverCall s₀).bootstrap := by
  have hinv := inv_run s₀ h
  refine ⟨?_, ?_, ?_, ?_, hinv.served⟩
  · intro t f back hpc
    exact hinv.found (hinv.real t f back hpc)
  · intro t u ht hu
    have htu := ((hinv.running t).mp ht).symm.trans ((hinv.running u).mp hu)
    injection htu
  · intro t ht
    rw [hinv.flag t] at ht
    apply (hinv.running t).mp
    cases hpc : p.pc t <;> rw [hpc] at ht <;> first | rfl | cases ht
  · intro t f back hpc ho
    have hresolving := (hinv.running t).mpr ho
    rw [hpc] at hresolving
    cases hresolving

theorem enter_once (t : T) (e : Entry) :
    (p.enter t e).once = p.once ∧ (p.enter t e).pointer = p.pointer := by
  unfold Process.enter
  dsimp only
  split <;> exact ⟨rfl, rfl⟩

theorem once_step (h : p.Inv s₀) {u : T} (hs : p.Step u q) :
    (p.once = .done → q.once = .done ∧ q.pointer = p.pointer) ∧
    ∀ t, p.once = .running t → q.once = .running t ∨ q.once = .done := by
  have hresolving (hr : (p.pc u).resolving = true) (hd : p.once = .done) : False := by
    rw [(h.running u).mp hr] at hd
    cases hd
  cases hs with
  | call e hpc =>
    rw [(enter_once u e).1, (enter_once u e).2]
    exact ⟨fun hd => ⟨hd, rfl⟩, fun t ht => Or.inl ht⟩
  | callBack r f next hpc =>
    rw [(enter_once u _).1, (enter_once u _).2]
    exact ⟨fun hd => ⟨hd, rfl⟩, fun t ht => Or.inl ht⟩
  | first f back hpc ho =>
    constructor
    · intro hd
      rw [ho] at hd
      cases hd
    · intro t ht
      rw [ho] at ht
      cases ht
  | lookUp f next symbol hpc =>
    refine ⟨fun hd => (hresolving ?_ hd).elim, fun t ht => Or.inl ht⟩
    rw [hpc]
    rfl
  | check next hpc hall =>
    refine ⟨fun hd => (hresolving ?_ hd).elim, fun t ht => Or.inr rfl⟩
    rw [hpc]
    rfl
  | _ => exact ⟨fun hd => ⟨hd, rfl⟩, fun t ht => Or.inl ht⟩

/-- The resolver runs once: it is over for good when it is over, and then all
pointers keep their values. -/
theorem resolution_final (s₀ : State) (hp : Runs (Process.start s₀) p) (hq : Runs p q) :
    (p.once = .done → q.once = .done ∧ q.pointer = p.pointer) ∧
    ∀ t, p.once = .running t → q.once = .running t ∨ q.once = .done := by
  have hrun : Runs (Process.start s₀) q ∧ ((p.once = .done → q.once = .done ∧ q.pointer = p.pointer) ∧
      ∀ t, p.once = .running t → q.once = .running t ∨ q.once = .done) := by
    induction hq with
    | refl => exact ⟨hp, fun hd => ⟨hd, rfl⟩, fun t ht => Or.inl ht⟩
    | step q q' u _ hs ih =>
      obtain ⟨hq, hdone, hrunning⟩ := ih
      obtain ⟨hdone', hrunning'⟩ := once_step (inv_run s₀ hq) hs
      refine ⟨hq.step q q' u hs, ?_, ?_⟩
      · intro hd
        obtain ⟨hd', hfound⟩ := hdone hd
        obtain ⟨hd'', hfound'⟩ := hdone' hd'
        exact ⟨hd'', hfound'.trans hfound⟩
      · intro t ht
        rcases hrunning t ht with ht' | hd
        · exact hrunning' t ht'
        · exact Or.inr (hdone' hd).1
  exact hrun.2

/-- No deadlock: while some call is in progress, a thread with one can go on, or
a symbol is missing and the process ends. -/
theorem resolution_progress (s₀ : State) (h : Runs (Process.start s₀) p) {t : T}
    (ht : p.pc t ≠ .idle) :
    (∃ u q, p.pc u ≠ .idle ∧ p.Step u q) ∨ ∃ u next f, p.pc u = .check next ∧ p.pointer f = 0 := by
  have hinv := inv_run s₀ h
  -- whoever resolves can go on; otherwise `t` itself can
  have hresolver (u : T) (hu : (p.pc u).resolving = true) :
      (∃ u q, p.pc u ≠ .idle ∧ p.Step u q) ∨
        ∃ u next f, p.pc u = .check next ∧ p.pointer f = 0 := by
    have hbusy : p.pc u ≠ .idle := by
      intro hidle
      rw [hidle] at hu
      cases hu
    cases hpc : p.pc u with
    | setFlag next => exact Or.inl ⟨u, _, hbusy, .setFlag next hpc⟩
    | lookUp f next => exact Or.inl ⟨u, _, hbusy, .lookUp f next 1 hpc⟩
    | clearFlag next => exact Or.inl ⟨u, _, hbusy, .clearFlag next hpc⟩
    | check next =>
      by_cases hall : ∀ f, p.pointer f ≠ 0
      · exact Or.inl ⟨u, _, hbusy, .check next hpc hall⟩
      · obtain ⟨f, hf⟩ := not_forall.mp hall
        exact Or.inr ⟨u, next, f, hpc, not_not.mp hf⟩
    | _ =>
      rw [hpc] at hu
      cases hu
  cases hpc : p.pc t with
  | idle => exact (ht hpc).elim
  | real f back => exact Or.inl ⟨t, _, ht, .real f back p.shared hpc rfl⟩
  | ensure f back =>
    cases ho : p.once with
    | init => exact Or.inl ⟨t, _, ht, .first f back hpc ho⟩
    | done => exact Or.inl ⟨t, _, ht, .resolved f back hpc ho⟩
    | running u => exact hresolver u ((hinv.running u).mpr ho)
  | _ =>
    apply hresolver t
    rw [hpc]
    rfl

end Invariant

/-! ### Two threads -/

def freshState : State := initState ⟨1, Nat.one_pos, fun _ => 0, 0⟩ ∅

/-- One thread resolves for its `malloc`, the loader has called `calloc` back,
and the other thread waits to free a block. -/
theorem two_threads : ∃ p : Process Bool, Runs (Process.start freshState) p ∧
    p.once = .running true ∧ p.pc false = .ensure .free .idle ∧
    p.pc true = .lookUp .malloc (.real .malloc .idle) := by
  have h0 : Runs (Process.start freshState : Process Bool) _ := .refl
  have h1 := h0.step _ _ true (.call (.exported (.malloc 8)) rfl)
  have h2 := h1.step _ _ false (.call (.exported (.free 1048576)) rfl)
  have h3 := h2.step _ _ true (.first .malloc .idle rfl rfl)
  have h4 := h3.step _ _ true (.setFlag _ rfl)
  exact ⟨_, h4.step _ _ true (.callBack (.calloc 1 32) .malloc _ rfl), rfl, rfl, rfl⟩

/-- The resolver finds everything, at these addresses, and the first thread is through. -/
theorem first_through {p : Process Bool} (hpc : p.pc true = .lookUp .malloc (.real .malloc .idle)) :
    ∃ q, Runs p q ∧ q.pc true = .real .malloc .idle ∧ q.once = .done ∧ q.pc false = p.pc false ∧
      q.pointer .malloc = 16 ∧ q.pointer .free = 64 := by
  have h1 := (Runs.refl (p := p)).step _ _ true (.lookUp .malloc _ 16 hpc)
  have h2 := h1.step _ _ true (.lookUp .calloc _ 32 rfl)
  have h3 := h2.step _ _ true (.lookUp .realloc _ 48 rfl)
  have h4 := h3.step _ _ true (.lookUp .free _ 64 rfl)
  have h5 := h4.step _ _ true (.clearFlag _ rfl)
  have h6 := h5.step _ _ true (.check _ rfl fun f => by cases f <;> exact Nat.succ_ne_zero _)
  exact ⟨_, h6, rfl, rfl, rfl, rfl, rfl⟩

theorem Runs.trans {T : Type} [DecidableEq T] {p q r : Process T} (hp : Runs p q)
    (hq : Runs q r) : Runs p r := by
  induction hq with
  | refl => exact hp
  | step q' r' t _ hs ih => exact ih.step q' r' t hs

theorem resolution_safe_through : ∃ q : Process Bool, Runs (Process.start freshState) q ∧
    q.pc true = .real .malloc .idle ∧ ∀ g, q.pointer g ≠ 0 := by
  obtain ⟨p, hp, _, _, hpc⟩ := two_threads
  obtain ⟨q, hq, hreal, _⟩ := first_through hpc
  have hrun := hp.trans hq
  exact ⟨q, hrun, hreal, (resolution_safe freshState hrun).1 true .malloc .idle hreal⟩

/-- The thread that waited goes on through the pointer that the other one stored. -/
theorem resolution_final_through : ∃ p q : Process Bool, Runs (Process.start freshState) p ∧
    p.once = .done ∧ Runs p q ∧ q.pc false = .real .free .idle ∧ q.once = .done ∧
    q.pointer .malloc = 16 ∧ q.pointer .free = 64 := by
  obtain ⟨p, hp, _, hwait, hpc⟩ := two_threads
  obtain ⟨q, hq, _, hdone, hsame, hmalloc, hfree⟩ := first_through hpc
  have hpcf : q.pc false = .ensure .free .idle := hsame.trans hwait
  have hlast : Runs q _ := Runs.refl.step _ _ false (.resolved .free .idle hpcf hdone)
  obtain ⟨hdone', hpointer⟩ := (resolution_final freshState (hp.trans hq) hlast).1 hdone
  exact ⟨q, _, hp.trans hq, hdone, hlast, rfl, hdone', by rw [hpointer, hmalloc],
    by rw [hpointer, hfree]⟩

theorem resolution_progress_waiting : ∃ p : Process Bool, p.pc false = .ensure .free .idle ∧
    ((∃ u q, p.pc u ≠ .idle ∧ p.Step u q) ∨
      ∃ u next f, p.pc u = .check next ∧ p.pointer f = 0) := by
  obtain ⟨p, hp, _, hwait, _⟩ := two_threads
  refine ⟨p, hwait, resolution_progress freshState hp (t := false) ?_⟩
  rw [hwait]
  exact Stage.noConfusion

end LibcOverride.MockAllocator.Once

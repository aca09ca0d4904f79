import LibcOverride.Path.Finish

/-!
# Any file system behaviour

`realpath` returns, inside its buffers, whatever `readlink` and `getcwd` answer
within their interfaces, from one call to the next.
-/

namespace LibcOverride.Path
open Buffer

/-- The states at the head of the loop. -/
inductive Reached (env : Env) (entry : State) : State → Prop
  | entry : Reached env entry entry
  | again {s s' : State} {slashes : ℕ} (h : Reached env entry s)
      (hi : iteration env s = some (.again s'))
      (hs : aoSlashLen (s'.stack.drop s'.p) = some slashes) :
      Reached env entry { s' with p := s'.p + slashes }
  | restart {s s' : State} (h : Reached env entry s) (hi : iteration env s = some (.restart s')) :
      Reached env entry s'

theorem reached_shows {env : Env} (henv : env.Links) {s₀ s : State} {v₀ : View} (h₀ : Shows s₀ v₀)
    (hg₀ : v₀.Good) (hc₀ : v₀.Counted) (h : Reached env s₀ s) :
    ∃ v, Shows s v ∧ v.Good ∧ v.Counted := by
  induction h with
  | entry => exact ⟨v₀, h₀, hg₀, hc₀⟩
  | again h hi hs ih =>
    obtain ⟨v, hshow, hg, hc⟩ := ih
    have hm := iteration_matches hshow hg henv
    rw [hi] at hm
    generalize hstep : v.step env = next at hm
    cases hm with
    | again hshow' =>
      obtain ⟨hg', hc', _⟩ := step_keeps henv hg hc hstep
      obtain ⟨hlen, hstrip⟩ := shows_strip hshow'
      obtain rfl := Option.some.inj (hs.symm.trans hlen)
      exact ⟨_, hstrip, hg', hc'⟩
  | restart h hi ih =>
    obtain ⟨v, hshow, hg, hc⟩ := ih
    have hm := iteration_matches hshow hg henv
    rw [hi] at hm
    generalize hstep : v.step env = next at hm
    cases hm with
    | restart hshow' =>
      obtain ⟨hg', hc', _⟩ := step_keeps henv hg hc hstep
      exact ⟨_, hshow', hg', hc'⟩

/-- The `..` that are pending stand at the start of the output. -/
theorem shows_ups {s : State} {v : View} (h : Shows s v) :
    (Base.relative s.pendingUp).text <+: s.output.take s.q := by
  obtain ⟨tail, htail⟩ := h.output
  rw [htail, h.q, List.take_left, h.pendingUp]
  unfold View.out
  cases hbase : v.base with
  | rooted double => exact List.nil_prefix
  | relative ups => exact foldl_extend_starts (Base.relative ups).text v.names

/-- A terminated string, in an object that may be longer. -/
def CString (bytes : List UInt8) : Prop := ∃ name after, bytes = name ++ 0 :: after ∧ NulFree name

/-- A call returns without an access outside the buffers and without an index
below zero, and at every iteration `output` starts with the `..` that
`pending_up` counts. -/
theorem realpath_in_bounds (env : Env) (hl : env.Links) (ha : env.Absolute)
    (stack output : List UInt8) (hs : stack.length = pathMax + 1) (ho : output.length = pathMax)
    (filename : Option (List UInt8)) (hf : ∀ bytes ∈ filename, CString bytes) (resolved : Bool) :
    (∃ result, realpath env stack output filename resolved = some result) ∧
      ∀ bytes ∈ filename, ∀ len s₀ s, strnlen bytes (pathMax + 1) = some len → len < pathMax →
        entry stack output bytes len = some s₀ → Reached env s₀ s →
        (Base.relative s.pendingUp).text <+: s.output.take s.q := by
  cases filename with
  | none => exact ⟨⟨_, rfl⟩, fun bytes hb => by cases hb⟩
  | some bytes =>
    obtain ⟨name, after, rfl, hname⟩ := hf bytes rfl
    have hstrnlen := strnlen_text hname after (pathMax + 1)
    refine ⟨?_, ?_⟩
    · by_cases hne : name = []
      · subst hne
        exact ⟨_, rfl⟩
      by_cases hlen : name.length < pathMax
      · obtain ⟨r, hruns, hcall⟩ := realpath_runs hl ha after hs ho hname hne hlen resolved
        obtain ⟨hgood, hcount, _⟩ := startView_good hname hlen
        rcases runs_keep (I := fun _ => True) (fun _ _ _ _ => trivial) hruns trivial with
          ⟨w, _, rfl, _⟩ | ⟨w, e, trace, _, rfl, _⟩
        · exact ⟨_, hcall⟩
        · exact ⟨_, hcall⟩
      · exact ⟨_, realpath_long env stack output hname (not_lt.mp hlen) after resolved⟩
    · intro bytes' hb len s₀ s hlen hshort hentry hreach
      obtain rfl : name ++ 0 :: after = bytes' := Option.some.inj hb
      rw [hstrnlen] at hlen
      obtain rfl : name.length = len := by
        have heq := Option.some.inj hlen
        omega
      obtain ⟨s', hentry', hshow⟩ := entry_shows after hs ho hshort
      obtain rfl := Option.some.inj (hentry'.symm.trans hentry)
      obtain ⟨hgood, hcount, _⟩ := startView_good hname hshort
      obtain ⟨v, hv, _⟩ := reached_shows hl hshow hgood hcount hreach
      exact shows_ups hv

/-- No links, and `/h` as the working directory. -/
def plainEnv : Env where
  readlink _ _ _ := .failed .einval
  getcwd _ size := if 3 ≤ size then .stored [slash, 104, 0] else .failed (.other 34)
  malloc _ _ := true

theorem realpath_in_bounds_sample : ∃ result, realpath plainEnv (List.replicate (pathMax + 1) 170)
    (List.replicate pathMax 170) (some [dot, dot, slash, 97, 0]) true = some result := by
  refine (realpath_in_bounds plainEnv (fun _ _ _ _ h => by cases h) ?_ _ _ List.length_replicate
    List.length_replicate _ ?_ true).1
  · intro trace size bytes h
    unfold plainEnv at h
    dsimp only at h
    split at h
    · cases h
      exact ⟨[104], rfl, nulFree_of_all rfl, by assumption⟩
    · cases h
  · intro bytes hb
    obtain rfl := Option.some.inj hb
    exact ⟨[dot, dot, slash, 97], [], rfl, nulFree_of_all rfl⟩

end LibcOverride.Path

import LibcOverride.Line.Causes

/-!
# Reading a stream line by line
(src/line_overrides.c:38-90)

Calls that pass the same pointers along until one returns -1.
-/

namespace LibcOverride.Line

/-- The calls that returned a line, each with the world it left, and the world
after the last call. -/
inductive Calls (env : Env) (delim : ℤ) : World → List (ℤ × World) → World → Prop where
  | last (w w' : World) (hrun : getdelim env true delim w = some (-1, w')) :
    Calls env delim w [] w'
  | call (w w₁ w' : World) (r : ℤ) (cs : List (ℤ × World))
    (hrun : getdelim env true delim w = some (r, w₁)) (hr : r ≠ -1)
    (hrest : Calls env delim w₁ cs w') : Calls env delim w ((r, w₁) :: cs) w'

/-- The lines `cs` returned partition `bytes`. -/
structure Partitions (delim : ℤ) (bytes : List UInt8) (cs : List (ℤ × World)) : Prop where
  whole : (cs.map returned).flatten = bytes
  nonempty : ∀ c ∈ cs, returned c ≠ []
  inside : ∀ c ∈ cs, ∀ b ∈ (returned c).dropLast, (b.toNat : ℤ) ≠ delim
  behind : ∀ c ∈ cs.dropLast, ∃ b, (returned c).getLast? = some b ∧ (b.toNat : ℤ) = delim

/-- The buffer after a call that returned a line. -/
structure Terminated (c : ℤ × World) : Prop where
  length : c.1 = (returned c).length
  nul : c.2.bytes[(returned c).length]? = some 0
  room : (returned c).length + 1 ≤ c.2.n

/-- `c` returned the first line of `bytes`, with `more` behind it. -/
structure FirstLine (delim : ℤ) (bytes more : List UInt8) (c : ℤ × World) : Prop where
  split : bytes = returned c ++ more
  nonempty : returned c ≠ []
  inside : ∀ b ∈ (returned c).dropLast, (b.toNat : ℤ) ≠ delim
  behind : more ≠ [] → ∃ b, (returned c).getLast? = some b ∧ (b.toNat : ℤ) = delim

/-- `*n` from call to call. -/
def Grows (ws : List World) : Prop :=
  ws.IsChain fun w w' => w.s ≠ none → w.n ≤ w'.n

theorem Partitions.cons {delim : ℤ} {bytes more : List UInt8} {cs : List (ℤ × World)}
    (hcs : Partitions delim more cs) {c : ℤ × World} (hc : FirstLine delim bytes more c) :
    Partitions delim bytes (c :: cs) := by
  refine ⟨?_, ?_, ?_, ?_⟩
  · rw [List.map_cons, List.flatten_cons, hcs.whole, hc.split]
  · exact List.forall_mem_cons.mpr ⟨hc.nonempty, hcs.nonempty⟩
  · exact List.forall_mem_cons.mpr ⟨hc.inside, hcs.inside⟩
  · cases cs with
    | nil => simp
    | cons d cs =>
      rw [List.dropLast_cons_cons]
      refine List.forall_mem_cons.mpr ⟨hc.behind ?_, hcs.behind⟩
      rw [← hcs.whole, List.map_cons, List.flatten_cons]
      exact List.append_ne_nil_of_left_ne_nil (hcs.nonempty d List.mem_cons_self) _

theorem Calls.unique {env : Env} {delim : ℤ} {w w₁ w₂ : World} {cs₁ cs₂ : List (ℤ × World)}
    (h₁ : Calls env delim w cs₁ w₁) (h₂ : Calls env delim w cs₂ w₂) : cs₁ = cs₂ ∧ w₁ = w₂ := by
  induction h₁ generalizing cs₂ w₂ with
  | last w w₁ hrun =>
    cases h₂ with
    | last _ _ hrun₂ =>
      rw [hrun] at hrun₂
      cases hrun₂
      exact ⟨rfl, rfl⟩
    | call _ v _ r cs hrun₂ hr hrest =>
      rw [hrun] at hrun₂
      cases hrun₂
      exact absurd rfl hr
  | call w v w₁ r cs hrun hr hrest ih =>
    cases h₂ with
    | last _ _ hrun₂ =>
      rw [hrun] at hrun₂
      cases hrun₂
      exact absurd rfl hr
    | call _ v _ r cs hrun₂ hr hrest₂ =>
      rw [hrun] at hrun₂
      cases hrun₂
      obtain ⟨rfl, rfl⟩ := ih hrest₂
      exact ⟨rfl, rfl⟩

/-- Lines of three, six and one bytes, the last one without its delimiter. -/
def threeLines : World :=
  ⟨⟨[]⟩, none, 0, ⟨[97, 98, 10, 99, 100, 101, 102, 103, 10, 104].map .byte, false, 0⟩, .other 0,
    [], [], []⟩

theorem threeLines_ready : threeLines.Ready := fun p hs => by cases hs

/-- The third request is refused. -/
def refusesThird : Env := fun k => ⟨k != 2, fun _ => 0⟩

/-- The buffer grows three times, the third time by the fallback. -/
theorem threeLines_calls : ∃ cs w', Calls refusesThird 10 threeLines cs w' ∧
    cs.map returned = [[97, 98, 10], [99, 100, 101, 102, 103, 10], [104]] ∧
    w'.asked = [⟨3, false, true⟩, ⟨6, false, true⟩, ⟨10, false, false⟩, ⟨7, true, true⟩] :=
  ⟨_, _, .call _ _ _ 3 _ rfl (by decide) (.call _ _ _ 6 _ rfl (by decide)
    (.call _ _ _ 1 _ rfl (by decide) (.last _ _ rfl))), rfl, rfl⟩

end LibcOverride.Line

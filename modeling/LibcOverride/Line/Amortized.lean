import LibcOverride.Lib.Geometric
import LibcOverride.Line.Allocator

/-!
# What growing the line buffer costs
(src/line_overrides.c:6-80)

Unless the allocator grants only the fallback, the capacity grows by half each time,
so that all that was granted for one buffer is linear in the bytes that were read.
-/

namespace LibcOverride.Line

/-- What the buffer can hold. -/
def World.capacity (w : World) : ℕ := if w.s = none then 0 else w.n

/-- The sizes that were granted. -/
def grantedSizes (rs : List Request) : List ℕ := (rs.filter (·.granted)).map (·.size)

/-- No fallback was granted. -/
def Plain (rs : List Request) : Prop := ∀ r ∈ rs, r.granted = true → r.fallback = false

/-- Between the two worlds `rs` was requested and `rd` was read, where the line had
`length` bytes at first. -/
structure Grew (length : ℕ) (w w' : World) (rs : List Request) (rd : List Read) : Prop where
  asked : w'.asked = w.asked ++ rs
  reads : w'.reads = w.reads ++ rd
  more : w.capacity ≤ w'.capacity
  few : w'.capacity ≤ max w.capacity (3 * (length + (bytesOf rd).length + 2) / 2)
  grows : Plain rs → w'.capacity < Word.sizeMax / 4 →
    Geometric.Grows 2 1 (w.capacity + 1) ((grantedSizes rs).map (· + 1)) (w'.capacity + 1)

variable {env : Env} {w w₁ w' : World} {length length' : ℕ} {rs rs' : List Request}
  {rd rd' : List Read} {r : ℤ}

theorem grew_same (length : ℕ) (hcapacity : w'.capacity = w.capacity) (hasked : w'.asked = w.asked)
    (hreads : w'.reads = w.reads ++ rd) : Grew length w w' [] rd := by
  refine ⟨by rw [hasked, List.append_nil], hreads, hcapacity.ge, ?_, fun _ _ => ?_⟩
  · rw [hcapacity]
    exact Nat.le_max_left ..
  · rw [hcapacity]
    exact .stay

theorem grew_eq (length : ℕ) (hs : w'.s = w.s) (hn : w'.n = w.n) (hasked : w'.asked = w.asked)
    (hreads : w'.reads = w.reads) : Grew length w w' [] [] := by
  refine grew_same length ?_ hasked (by rw [hreads, List.append_nil])
  unfold World.capacity
  rw [hs, hn]

theorem Grew.trans (h : Grew length w w₁ rs rd) (h' : Grew length' w₁ w' rs' rd')
    (hlength : length' ≤ length + (bytesOf rd).length) :
    Grew length w w' (rs ++ rs') (rd ++ rd') := by
  have hbytes : (bytesOf (rd ++ rd')).length = (bytesOf rd).length + (bytesOf rd').length := by
    rw [bytesOf, List.filterMap_append, List.length_append]
    rfl
  have hmore := h.more
  have hmore' := h'.more
  refine ⟨?_, ?_, hmore.trans hmore', ?_, fun hplain hsmall => ?_⟩
  · rw [h'.asked, h.asked, List.append_assoc]
  · rw [h'.reads, h.reads, List.append_assoc]
  · have hfew := h.few
    have hfew' := h'.few
    rw [hbytes]
    omega
  · have hfirst := h.grows (fun r hr => hplain r (List.mem_append_left _ hr)) (by omega)
    have hsecond := h'.grows (fun r hr => hplain r (List.mem_append_right _ hr)) hsmall
    have hsizes : (grantedSizes (rs ++ rs')).map (· + 1) =
        (grantedSizes rs).map (· + 1) ++ (grantedSizes rs').map (· + 1) := by
      simp [grantedSizes]
    rw [hsizes]
    exact hfirst.append hsecond

/-! ### The loop -/

theorem newCapacity_grows {n : ℕ} (hn : n ≤ length + 1) (hsmall : newCapacity length < Word.sizeMax / 4) :
    3 * (n + 1) ≤ 2 * (newCapacity length + 1) := by
  unfold newCapacity minCapacity at *
  split at hsmall <;> split <;> omega

theorem capacity_bounds (length : ℕ) :
    length + 2 ≤ newCapacity length ∧ newCapacity length ≤ 3 * (length + 2) / 2 := by
  unfold newCapacity minCapacity
  split <;> omega

/-- A request leaves the buffer and a record. -/
theorem request_record {size : ℕ} {fallback : Bool} {res : Option ℕ}
    (h : request env w size fallback = some (res, w₁)) :
    w₁.s = w.s ∧ w₁.n = w.n ∧ w₁.asked = w.asked ++ [⟨size, fallback, res.isSome⟩] ∧
      w₁.reads = w.reads := by
  obtain ⟨⟨res', heap⟩, -, heq⟩ := Option.map_eq_some_iff.mp h
  cases heq
  exact ⟨rfl, rfl, rfl, rfl⟩

theorem grow_grew {ok : Bool} (hn : w.n ≤ length + 1)
    (h : aoGrowLineBuffer env w length = some (ok, w')) :
    ∃ rs, Grew length w w' rs [] := by
  have hcapacity : w.capacity ≤ length + 1 := by
    unfold World.capacity
    split <;> omega
  obtain ⟨hlow, hhigh⟩ := capacity_bounds length
  unfold aoGrowLineBuffer at h
  split at h
  · cases h
    exact ⟨[], grew_eq length rfl rfl rfl rfl⟩
  · obtain ⟨⟨res, w₁⟩, hfirst, h⟩ := Option.bind_eq_some_iff.mp h
    obtain ⟨hs₁, hn₁, hasked₁, hreads₁⟩ := request_record hfirst
    cases res with
    | some p =>
      cases h
      have hnow : World.capacity { w₁ with s := some p, n := newCapacity length } =
          newCapacity length := rfl
      refine ⟨_, hasked₁, by rw [List.append_nil]; exact hreads₁, ?_, ?_, fun _ hsmall => ?_⟩
      · rw [hnow]
        omega
      · rw [hnow]
        exact le_max_of_le_right hhigh
      · rw [hnow] at hsmall ⊢
        exact .one (newCapacity_grows hcapacity hsmall)
    | none =>
      obtain ⟨⟨res, w₂⟩, hsecond, h⟩ := Option.bind_eq_some_iff.mp h
      obtain ⟨hs₂, hn₂, hasked₂, hreads₂⟩ := request_record hsecond
      rw [hasked₁, List.append_assoc] at hasked₂
      rw [hreads₁] at hreads₂
      cases res with
      | some p =>
        cases h
        have hnow : World.capacity { w₂ with s := some p, n := minCapacity length } =
            length + 2 := rfl
        refine ⟨_, hasked₂, by rw [List.append_nil]; exact hreads₂, ?_, ?_, fun hplain _ => ?_⟩
        · rw [hnow]
          omega
        · rw [hnow]
          exact le_max_of_le_right (hlow.trans hhigh)
        · -- the fallback was granted
          have hfallback := hplain ⟨minCapacity length, true, true⟩ (by simp) rfl
          cases hfallback
      | none =>
        cases h
        have hsame : World.capacity { w₂ with errno := .enomem } = w.capacity := by
          unfold World.capacity
          rw [hs₂, hn₂, hs₁, hn₁]
        refine ⟨_, hasked₂, by rw [List.append_nil]; exact hreads₂, hsame.ge, ?_, fun _ _ => ?_⟩
        · rw [hsame]
          exact Nat.le_max_left ..
        · rw [hsame]
          exact .stay

theorem makeRoom_grew {ok : Bool} (h : makeRoom env w length = some (ok, w')) :
    ∃ rs, Grew length w w' rs [] := by
  unfold makeRoom at h
  split at h
  · rename_i hfull
    have hwrap : Word.add length 1 ≤ length + 1 := Nat.mod_le _ _
    exact grow_grew (Nat.le_trans hfull hwrap) h
  · cases h
    exact ⟨[], grew_eq length rfl rfl rfl rfl⟩

/-- A byte or none was read. -/
theorem getc_grew (length : ℕ) (w : World) : ∃ rd, Grew length w (getcUnlocked w).2 [] rd ∧
    (bytesOf rd).length = if (getcUnlocked w).1.isSome then 1 else 0 := by
  have hsame (file : File) (met : Read) :
      Grew length w { w with file, reads := w.reads ++ [met] } [] [met] :=
    grew_same length rfl rfl rfl
  unfold getcUnlocked
  split
  · exact ⟨_, hsame _ .eof, rfl⟩
  · exact ⟨_, hsame _ (.byte _), rfl⟩
  · exact ⟨_, hsame _ .eof, rfl⟩
  · exact ⟨_, hsame _ .error, rfl⟩

theorem store_grew {i : ℕ} {c : UInt8} (length : ℕ) (h : store w i c = some w') :
    Grew length w w' [] [] := by
  obtain ⟨p, hs, h⟩ := Option.bind_eq_some_iff.mp h
  obtain ⟨heap, hcopy, rfl⟩ := Option.map_eq_some_iff.mp h
  exact grew_eq length rfl rfl rfl rfl

theorem finish_grew {i : ℕ} (length : ℕ) (h : finish w i = some (r, w')) :
    Grew length w w' [] [] := by
  obtain ⟨w₁, hstore, heq⟩ := Option.map_eq_some_iff.mp h
  rw [← (Prod.mk.inj heq).2]
  exact (store_grew length hstore).trans (grew_eq length rfl rfl rfl rfl) (Nat.le_add_right _ _)

theorem readLoop_grew {delim : ℤ} {fuel : ℕ}
    (h : readLoop env delim fuel w length = some (r, w')) : ∃ rs rd, Grew length w w' rs rd := by
  induction fuel generalizing w length with
  | zero => cases h
  | succ fuel ih =>
    obtain ⟨⟨ok, w₁⟩, hroom, h⟩ := Option.bind_eq_some_iff.mp h
    obtain ⟨rs, hgrew⟩ := makeRoom_grew hroom
    have hend {w₂ : World} (h₂ : Grew length w₁ w₂ [] []) : ∃ rs rd, Grew length w w₂ rs rd :=
      ⟨_, _, hgrew.trans h₂ (Nat.le_add_right _ _)⟩
    cases ok with
    | false =>
      cases h
      exact hend (grew_eq length rfl rfl rfl rfl)
    | true =>
      obtain ⟨rd, hread, hbytes⟩ := getc_grew length w₁
      dsimp only at h
      generalize getcUnlocked w₁ = met at h hread hbytes
      obtain ⟨c, w₂⟩ := met
      have hmet := hgrew.trans hread (Nat.le_add_right _ _)
      cases c with
      | none =>
        dsimp only at h
        split at h
        · cases h
          exact ⟨_, _, hmet.trans (grew_eq length rfl rfl rfl rfl) (Nat.le_add_right _ _)⟩
        · exact ⟨_, _, hmet.trans (finish_grew length h) (Nat.le_add_right _ _)⟩
      | some c =>
        obtain ⟨w₃, hstore, h⟩ := Option.bind_eq_some_iff.mp h
        have hstored := hmet.trans (store_grew length hstore) (Nat.le_add_right _ _)
        split at h
        · exact ⟨_, _, hstored.trans (finish_grew length h) (Nat.le_add_right _ _)⟩
        · obtain ⟨rs', rd', hrest⟩ := ih h
          refine ⟨_, _, hstored.trans hrest ?_⟩
          have hwrap : Word.add length 1 ≤ length + 1 := Nat.mod_le _ _
          have hone : (bytesOf rd).length = 1 := hbytes
          simp only [List.nil_append, List.append_nil, hone]
          exact hwrap

theorem getdelim_grew {given : Bool} {delim : ℤ}
    (h : getdelim env given delim w = some (r, w')) : ∃ rs rd, Grew 0 w w' rs rd := by
  unfold getdelim at h
  split at h
  · cases h
    exact ⟨[], [], grew_eq 0 rfl rfl rfl rfl⟩
  · obtain ⟨rs, rd, hloop⟩ := readLoop_grew h
    have hopened : Grew 0 w (flockfile (if w.s = none then { w with n := 0 } else w)) [] [] := by
      by_cases hs : w.s = none
      · rw [if_pos hs]
        refine grew_same 0 ?_ rfl (List.append_nil _).symm
        unfold World.capacity
        exact (if_pos hs).trans (if_pos hs).symm
      · rw [if_neg hs]
        exact grew_eq 0 rfl rfl rfl rfl
    exact ⟨_, _, hopened.trans hloop (Nat.zero_le _)⟩

/-! ### Calls one after the other -/

theorem session_grew (h : Session env w w') : ∃ rs rd, Grew 0 w w' rs rd := by
  induction h with
  | start => exact ⟨[], [], grew_eq 0 rfl rfl rfl rfl⟩
  | turn h file ih =>
    obtain ⟨rs, rd, hgrew⟩ := ih
    exact ⟨_, _, hgrew.trans (grew_eq 0 rfl rfl rfl rfl) (Nat.zero_le _)⟩
  | call h hrun ih =>
    obtain ⟨rs, rd, hgrew⟩ := ih
    obtain ⟨rs', rd', hcall⟩ := getdelim_grew hrun
    exact ⟨_, _, hgrew.trans hcall (Nat.zero_le _)⟩

/-- The capacity never shrinks, and grows to half as much again as the bytes read at most.
As long as no fallback is granted, all that is granted takes three times the capacity
at most, and the grants are few. -/
theorem getdelim_amortised (h : Session env w w') :
    ∃ rs rd, w'.asked = w.asked ++ rs ∧ w'.reads = w.reads ++ rd ∧ w.capacity ≤ w'.capacity ∧
      w'.capacity ≤ max w.capacity (3 * ((bytesOf rd).length + 2) / 2) ∧
      (Plain rs → w'.capacity < Word.sizeMax / 4 →
        (grantedSizes rs).sum + 3 * w.capacity ≤ 3 * w'.capacity ∧
        3 ^ (grantedSizes rs).length * (w.capacity + 1) ≤
          2 ^ (grantedSizes rs).length * (w'.capacity + 1)) := by
  obtain ⟨rs, rd, hgrew⟩ := session_grew h
  refine ⟨rs, rd, hgrew.asked, hgrew.reads, hgrew.more, ?_, fun hplain hsmall => ?_⟩
  · have hfew := hgrew.few
    rwa [Nat.zero_add] at hfew
  · have hgrows := hgrew.grows hplain hsmall
    have hsum := hgrows.sum
    have hpow := hgrows.pow
    have hless (l : List ℕ) : l.sum ≤ (l.map (· + 1)).sum := by
      induction l with
      | nil => exact le_rfl
      | cons x l ih =>
        rw [List.map_cons, List.sum_cons, List.sum_cons]
        omega
    have hall := hless (grantedSizes rs)
    rw [List.length_map] at hpow
    exact ⟨by omega, hpow⟩

/-- Two lines of the stream, a call on another stream, and every request granted. -/
theorem getdelim_amortised_threeLines : ∃ w',
    Session (fun _ => ⟨true, fun _ => 0⟩) threeLines w' ∧
    w'.asked = [⟨3, false, true⟩, ⟨6, false, true⟩, ⟨10, false, true⟩] ∧
    (grantedSizes w'.asked).sum ≤ 3 * w'.capacity ∧ 3 ^ 3 ≤ 2 ^ 3 * (w'.capacity + 1) := by
  have hfirst := (@Session.start (fun _ => ⟨true, fun _ => 0⟩) threeLines).call
    (show getdelim _ true 10 _ = _ from rfl)
  have hsecond := hfirst.call (show getdelim _ true 10 _ = _ from rfl)
  have hthird := (hsecond.turn ⟨[.byte 105, .byte 106], false, 0⟩).call
    (show getdelim _ true 10 _ = _ from rfl)
  obtain ⟨rs, rd, hasked, -, -, -, hgrows⟩ := getdelim_amortised hthird
  have hrs : [⟨3, false, true⟩, ⟨6, false, true⟩, ⟨10, false, true⟩] = rs := hasked
  have hplain : Plain rs := by
    rw [← hrs]
    unfold Plain
    decide
  obtain ⟨hsum, hpow⟩ := hgrows hplain (by decide)
  rw [← hrs] at hsum hpow
  exact ⟨_, hthird, rfl, hsum, hpow⟩

end LibcOverride.Line

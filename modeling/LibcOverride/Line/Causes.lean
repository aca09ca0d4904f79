import LibcOverride.Line.Reading

/-!
# The causes of a failed getdelim
(src/line_overrides.c:38-80)

End of file and a failed read are told apart by the stream's error indicator,
which an earlier operation may have set.
-/

namespace LibcOverride.Line

/-- The bytes among what reads met. -/
def bytesOf (rs : List Read) : List UInt8 :=
  rs.filterMap fun
    | .byte b => some b
    | _ => none

/-- What a call leaves of the buffer and of the heap. -/
structure Kept (w w' : World) : Prop where
  buffer : w'.s = none ∧ w'.n = 0 ∨ ∃ p b, w'.s = some p ∧ w'.heap.read p = some b ∧
    (b.length = w'.n ∨ w'.s = w.s ∧ w'.n = w.n ∧ w'.n ≤ b.length)
  others : ∀ q, w'.heap.read q ≠ none →
    w'.s = some q ∨ w.s ≠ some q ∧ w'.heap.read q = w.heap.read q
  old : ∀ q, w.s = some q → w'.s = some q ∨ w'.heap.read q = none ∧ w'.heap.frees q = 1
  locks : w'.file.locks = w.file.locks

theorem Final.kept {w w' : World} {b : List UInt8} (hf : Final w.opened w' b) : Kept w w' := by
  obtain ⟨⟨hheld, hexact, hmine, hothers, hold, -, -, -⟩, -, -, hlocks⟩ := hf
  rw [opened_eq] at hexact hmine hothers hold hlocks
  refine ⟨?_, ?_, hold, hlocks⟩
  · cases hheld with
    | null hs hn => exact Or.inl ⟨hs, hn⟩
    | block p b hs hr hn hb =>
      refine Or.inr ⟨p, b, hs, hr, ?_⟩
      rcases hexact with hlen | ⟨hsame, hn'⟩
      · exact Or.inl hlen
      · dsimp only at hsame hn'
        rw [← hsame, hs, if_neg (by simp)] at hn'
        exact Or.inr ⟨hsame, hn', hn⟩
  · intro q hlive
    by_cases hq : w.heap.next ≤ q
    · obtain ⟨c, hc⟩ := Option.ne_none_iff_exists'.mp hlive
      exact Or.inl (hmine q c hq hc)
    · by_cases hs : w.s = some q
      · rcases hold q hs with h | h
        · exact Or.inl h
        · exact absurd h.1 hlive
      · exact Or.inr ⟨hs, hothers q (Nat.lt_of_not_le hq) hs⟩

end LibcOverride.Line

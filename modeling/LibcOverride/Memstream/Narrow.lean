import LibcOverride.Memstream.Contents
import Mathlib.Data.List.Induction

/-!
# open_memstream is a sparse byte file
(src/memstream_overrides.c:28-116, 218-260)
-/

namespace LibcOverride.Memstream
open Buffer

/-- One call: its return value, the stream and the file after it. A write that
is refused and a seek that fails change `errno` and nothing else. -/
inductive Call (s : Stream UInt8 Unit) (f : SparseFile UInt8) :
    Op UInt8 → Reply → Stream UInt8 Unit → SparseFile UInt8 → Prop where
  | refused (v : List UInt8) (a : Heap.Answer UInt8) (e : Errno) :
    Call s f (.write v a) (.wrote 0) (s.fail e) f
  | stored (v : List UInt8) (a : Heap.Answer UInt8) (s' : Stream UInt8 Unit) :
    Call s f (.write v a) (.wrote v.length) s' (f.write v)
  | sought (offset whence : ℤ) (h : Reaches ssizeMax s offset whence) :
    Call s f (.seek offset whence) (.sought (some (base s whence + offset)))
      { s with cookie := { s.cookie with pos := (base s whence + offset).toNat } }
      (f.seek (base s whence + offset).toNat)
  | rejected (offset whence : ℤ) (h : ¬ Reaches ssizeMax s offset whence) (e : Errno) :
    Call s f (.seek offset whence) (.sought none) (s.fail e) f

/-- A run from `s₀`, with the file it leaves. -/
inductive Lived (s₀ : Stream UInt8 Unit) :
    List (Op UInt8) → Stream UInt8 Unit → SparseFile UInt8 → Prop where
  | opened (h : Presents s₀ .empty) : Lived s₀ [] s₀ .empty
  | call {ops : List (Op UInt8)} {op : Op UInt8} {r : Reply} {s s' : Stream UInt8 Unit}
    {f f' : SparseFile UInt8} (h : Lived s₀ ops s f) (hstep : memstreamFuncs.step s op = some (r, s'))
    (hcall : Call s f op r s' f') (hp : Presents s' f') : Lived s₀ (ops ++ [op]) s' f'

theorem aoMemstreamWrite_cases {s : Stream UInt8 Unit} {b : List UInt8} (hs : Sound ssizeMax s b)
    {buf : List UInt8} (hlen : buf.length ≤ ssizeMax) (a : Heap.Answer UInt8) :
    ¬ Room ssizeMax s buf.length a ∧ aoMemstreamWrite s buf a = some (0, s.fail .enomem) ∨
      Room ssizeMax s buf.length a ∧ ∃ s' b',
        Grown ssizeMax s b (s.cookie.pos + buf.length + 1) s' b' ∧
        aoMemstreamWrite s buf a =
          (s'.copyIn buf).map fun s' => (buf.length, s'.advance buf.length) := by
  rcases aoMemstreamGrow_spec hs hlen a with ⟨hr, hg⟩ | ⟨hr, s', b', hg, hgrown⟩
  · refine Or.inl ⟨hr, ?_⟩
    simp [aoMemstreamWrite, hg]
  · refine Or.inr ⟨hr, s', b', hgrown, ?_⟩
    simp only [aoMemstreamWrite, hg, Option.bind_eq_bind, Option.bind_some]
    cases s'.copyIn buf <;> rfl

theorem aoMemstreamSeek_eq {s : Stream UInt8 Unit} {b : List UInt8} (hs : Sound ssizeMax s b)
    (offset whence : ℤ) :
    aoMemstreamSeek s offset whence = some (if Reaches ssizeMax s offset whence then
      (some (base s whence + offset), { s with cookie :=
        { s.cookie with pos := (base s whence + offset).toNat } })
      else (none, s.fail .einval)) := by
  have hlen := hs.len
  have hsize := hs.size
  have hspace := hs.space
  refine seekTo_eq le_rfl hs.pos ?_ offset whence
  omega

/-- Every call is a `Call`, on a stream that shows its file. -/
theorem memstream_step {s : Stream UInt8 Unit} {b : List UInt8} {f : SparseFile UInt8}
    (hs : Sound ssizeMax s b) (hf : Shows s b f) {op : Op UInt8} (hop : op.Fits) :
    ∃ r s' b' f', memstreamFuncs.step s op = some (r, s') ∧ Call s f op r s' f' ∧
      Sound ssizeMax s' b' ∧ Shows s' b' f' := by
  cases op with
  | write buf a =>
    rcases aoMemstreamWrite_cases hs hop a with ⟨-, hw⟩ | ⟨-, s', b', hg, hw⟩
    · refine ⟨_, _, b, f, ?_, .refused buf a .enomem, hs.fail _, hf.fail _⟩
      simp [IoFuncs.step, memstreamFuncs, hw]
    · obtain ⟨hcopy, hsound, hshows⟩ := stored hs hf (hg.roomy hs) (Nat.lt_succ_self _) ()
      refine ⟨_, _, _, f.write buf, ?_, .stored buf a _, hsound, hshows⟩
      simp only [IoFuncs.step, memstreamFuncs, hw, hcopy, Option.map_some]
      rfl
  | seek offset whence =>
    have heq := aoMemstreamSeek_eq hs offset whence
    by_cases hr : Reaches ssizeMax s offset whence
    · have hp := hr.toNat_le
      refine ⟨_, _, b, _, ?_, .sought offset whence hr, hs.at_pos hp, hf.seek _ ()⟩
      simp [IoFuncs.step, memstreamFuncs, heq, hr]
    · refine ⟨_, _, b, f, ?_, .rejected offset whence hr .einval, hs.fail _, hf.fail _⟩
      simp [IoFuncs.step, memstreamFuncs, heq, hr]

theorem run_append {α σ : Type} (fs : IoFuncs α σ) (s : Stream α σ) (ops₁ ops₂ : List (Op α)) :
    fs.run s (ops₁ ++ ops₂) = (fs.run s ops₁).bind fun s => fs.run s ops₂ := by
  induction ops₁ generalizing s with
  | nil => rfl
  | cons op ops ih =>
    simp only [List.cons_append, IoFuncs.run]
    cases fs.step s op with
    | none => rfl
    | some r => exact ih r.2

theorem memstream_run {s₀ : Stream UInt8 Unit} {b₀ : List UInt8} (hs : Sound ssizeMax s₀ b₀)
    (hf : Shows s₀ b₀ .empty) (ops : List (Op UInt8)) (hops : ∀ op ∈ ops, op.Fits) :
    ∃ s b f, memstreamFuncs.run s₀ ops = some s ∧ Lived s₀ ops s f ∧ Sound ssizeMax s b ∧
      Shows s b f := by
  induction ops using List.reverseRecOn with
  | nil => exact ⟨s₀, b₀, .empty, rfl, .opened (hf.presents hs), hs, hf⟩
  | append_singleton ops op ih =>
    obtain ⟨s, b, f, hrun, hlived, hsound, hshows⟩ :=
      ih fun o ho => hops o (List.mem_append_left _ ho)
    obtain ⟨r, s', b', f', hstep, hcall, hsound', hshows'⟩ :=
      memstream_step hsound hshows (hops op (by simp))
    refine ⟨s', b', f', ?_, .call hlived hstep hcall (hshows'.presents hsound'), hsound', hshows'⟩
    rw [run_append, hrun]
    simp [IoFuncs.run, hstep]

/-- After any calls on an opened stream, each of them was a `Call` on a sparse
file, and the stream presents that file. -/
theorem open_memstream_refines {w : World UInt8} {a : OpenAnswers UInt8} {s₀ : Stream UInt8 Unit}
    (hopen : openMemstream w a = some (.stream s₀)) (ops : List (Op UInt8))
    (hops : ∀ op ∈ ops, op.Fits) :
    ∃ s f, memstreamFuncs.run s₀ ops = some s ∧ Lived s₀ ops s f := by
  rw [openMemstream, openStream_eq w () a (by decide) (by decide)] at hopen
  have hs₀ := openResult_stream (Option.some.inj hopen)
  subst hs₀
  obtain ⟨s, _, f, hrun, hlived, -, -⟩ :=
    memstream_run (openedStream_sound ssizeMax w ()) (openedStream_shows w ()) ops hops
  exact ⟨s, f, hrun, hlived⟩

theorem open_memstream_refines_sample : ∃ s f,
    memstreamFuncs.run (openedStream (emptyWorld UInt8) ())
      [.write [97, 98] (grantedAll UInt8), .seek 1 1, .write [99] (grantedAll UInt8)] = some s ∧
    Lived (openedStream (emptyWorld UInt8) ())
      [.write [97, 98] (grantedAll UInt8), .seek 1 1, .write [99] (grantedAll UInt8)] s f := by
  refine open_memstream_refines (w := emptyWorld UInt8)
    (a := ⟨grantedAll UInt8, grantedAll UInt8, none⟩) rfl _ ?_
  intro op hop
  simp only [List.mem_cons, List.not_mem_nil, or_false] at hop
  rcases hop with rfl | rfl | rfl
  · exact Nat.le_of_ble_eq_true rfl
  · trivial
  · exact Nat.le_of_ble_eq_true rfl

end LibcOverride.Memstream

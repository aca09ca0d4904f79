import LibcOverride.Dirent.Copying

/-!
# What a call leaves
(src/dirent_overrides.c:55-71)
-/

namespace LibcOverride.Dirent
open Buffer Heap

/-- `qsort` orders what it is given by `cmp`. -/
def Qsort.Orders (q : Qsort) (cmp : Comparator) : Prop :=
  ∀ (record : ℕ → List UInt8) (ptrs : List ℕ),
    (q.sort (fun a b => cmp (record a) (record b)) ptrs).Pairwise
      fun a b => cmp (record a) (record b) ≤ 0

/-- `*res` is a vector of `ptrs`, each a copy of its own, and nothing else is
left of the call. -/
structure Result (w w' : World) (ptrs : List ℕ) (copies : List (List UInt8)) : Prop where
  vector : ∃ b, w'.vectors.Holds w'.res b ∧ b.take ptrs.length = ptrs.map some
  copies : ptrs.map w'.records.read = copies.map some
  separate : ptrs.Nodup
  vectors : Since w.vectors w'.vectors w'.res.toList
  records : Since w.records w'.records ptrs

/-- The call succeeded with the entries `es`. -/
structure Listed (q : Qsort) (cmp : Option Comparator) (es : List Entry) (errno : ℕ) (w : World)
    (r : ℤ) (w' : World) : Prop where
  count : r = es.length
  errno : w'.errno = errno
  result : ∃ ptrs copies, Result w w' ptrs copies ∧ copies.Perm (es.map (·.bytes)) ∧
    (cmp = none → copies = es.map (·.bytes)) ∧
    ∀ c, cmp = some c → q.Orders c → copies.Pairwise fun a b => c a b ≤ 0

/-- The call failed; each block it made was freed once. -/
structure Failed (w : World) (r : ℤ) (w' : World) : Prop where
  count : r = -1
  res : w'.res = w.res
  vectors : Since w.vectors w'.vectors []
  records : Since w.records w'.records []

/-- No read and no request fails. -/
def Clean (dir : Option Listing) (w w' : World) : Prop :=
  (∃ listing, dir = some listing ∧ listing.failure = none) ∧
    ∀ op ∈ w'.asked.drop w.asked.length, op.granted = true

/-- What the caller is promised. -/
def Outcome (q : Qsort) (sel : Option Selector) (cmp : Option Comparator) (dir : Option Listing)
    (errno : ℕ) (w : World) (run : Option (ℤ × World)) : Prop :=
  ∃ r w', run = some (r, w') ∧ w'.streams = w.streams ∧
    (Clean dir w w' → ∃ listing, dir = some listing ∧
      Listed q cmp (selected sel 0 listing.reads) errno w r w') ∧
    (¬Clean dir w w' → Failed w r w')

def granting : Env := fun _ => ⟨true, fun _ => none, fun _ => 0, 0, ⟨12, by decide⟩⟩

def emptyWorld : World := ⟨⟨[]⟩, ⟨[]⟩, none, 0, [], 0⟩

end LibcOverride.Dirent

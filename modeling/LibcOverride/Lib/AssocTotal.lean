import Mathlib.Data.List.AList
import Mathlib.Algebra.BigOperators.Group.List.Basic
import Mathlib.Data.Set.Card

/-!
# Weights over association lists

The total weight and the number of entries of an `AList` under insertion of a
new key and erasure of a present one, and the lookup function of either.
-/

namespace LibcOverride.AssocTotal

variable {α β : Type} [DecidableEq α]

abbrev Assoc (α β : Type) := AList (fun _ : α => β)

def total (w : β → ℕ) (b : Assoc α β) : ℕ := (b.entries.map fun e => w e.2).sum

theorem entries_perm_erase {b : Assoc α β} {p : α} {v : β} (h : b.lookup p = some v) :
    b.entries.Perm (⟨p, v⟩ :: (b.erase p).entries) := by
  have hnot : p ∉ b.erase p := by
    rw [AList.mem_erase]
    simp
  rw [← AList.entries_insert_of_notMem hnot]
  apply List.lookup_ext b.nodupKeys ((b.erase p).insert p v).nodupKeys
  intro q w
  change w ∈ b.lookup q ↔ w ∈ ((b.erase p).insert p v).lookup q
  by_cases hq : q = p
  · subst hq
    rw [AList.lookup_insert, h]
  · rw [AList.lookup_insert_ne hq, AList.lookup_erase_ne hq]

theorem entries_perm {b c : Assoc α β} (h : ∀ p, b.lookup p = c.lookup p) :
    b.entries.Perm c.entries := by
  apply List.lookup_ext b.nodupKeys c.nodupKeys
  intro p v
  change v ∈ b.lookup p ↔ v ∈ c.lookup p
  rw [h p]

theorem total_congr (w : β → ℕ) {b c : Assoc α β} (h : ∀ p, b.lookup p = c.lookup p) :
    total w b = total w c := by
  have hmap := (entries_perm h).map fun e => w e.2
  exact hmap.sum_eq

theorem total_erase (w : β → ℕ) {b : Assoc α β} {p : α} {v : β} (h : b.lookup p = some v) :
    total w b = total w (b.erase p) + w v := by
  have hs := ((entries_perm_erase h).map fun e => w e.2).sum_eq
  rw [List.map_cons, List.sum_cons] at hs
  rw [total, total, hs, Nat.add_comm]

theorem length_erase {b : Assoc α β} {p : α} {v : β} (h : b.lookup p = some v) :
    b.entries.length = (b.erase p).entries.length + 1 := by
  rw [(entries_perm_erase h).length_eq, List.length_cons]

theorem total_insert (w : β → ℕ) {b : Assoc α β} {p : α} (v : β) (h : p ∉ b) :
    total w (b.insert p v) = total w b + w v := by
  rw [total, AList.entries_insert_of_notMem h, List.map_cons, List.sum_cons, total, Nat.add_comm]

theorem length_insert {b : Assoc α β} {p : α} (v : β) (h : p ∉ b) :
    (b.insert p v).entries.length = b.entries.length + 1 := by
  rw [AList.entries_insert_of_notMem h, List.length_cons]

theorem erase_absent {b : Assoc α β} {p : α} (h : b.lookup p = none) : b.erase p = b := by
  have hk : p ∉ b.entries.keys := AList.lookup_eq_none.mp h
  exact AList.ext (List.kerase_of_notMem_keys hk)

theorem lookup_insert_update (b : Assoc α β) (p : α) (v : β) :
    (fun q => (b.insert p v).lookup q) = Function.update (fun q => b.lookup q) p (some v) := by
  funext q
  by_cases hq : q = p
  · subst hq
    rw [AList.lookup_insert, Function.update_self]
  · rw [AList.lookup_insert_ne hq, Function.update_of_ne hq]

theorem lookup_erase_update (b : Assoc α β) (p : α) :
    (fun q => (b.erase p).lookup q) = Function.update (fun q => b.lookup q) p none := by
  funext q
  by_cases hq : q = p
  · subst hq
    rw [AList.lookup_erase, Function.update_self]
  · rw [AList.lookup_erase_ne hq, Function.update_of_ne hq]

theorem lookup_ne_none {b : Assoc α β} {p : α} : b.lookup p ≠ none ↔ p ∈ b := by
  rw [ne_eq, AList.lookup_eq_none, not_not]

theorem ncard_keys (b : Assoc α β) : {p | b.lookup p ≠ none}.ncard = b.entries.length := by
  have hset : {p | b.lookup p ≠ none} = (b.keys.toFinset : Set α) := by
    ext p
    rw [List.coe_toFinset]
    exact lookup_ne_none
  rw [hset, Set.ncard_coe_finset, List.toFinset_card_of_nodup b.keys_nodup]
  exact List.length_map _

end LibcOverride.AssocTotal

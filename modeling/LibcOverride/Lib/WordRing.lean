import LibcOverride.Lib.Word
import Mathlib.Data.ZMod.Basic

/-!
# Words as residues

Unsigned 64-bit arithmetic is arithmetic modulo `2 ^ 64`.
-/

namespace LibcOverride.Word

def modulus : ℕ := 2 ^ 64

abbrev Residue := ZMod modulus

@[simp] theorem cast_add (a b : ℕ) : ((add a b : ℕ) : Residue) = a + b := by
  have hmod : add a b = (a + b) % modulus := rfl
  rw [hmod, ZMod.natCast_mod, Nat.cast_add]

@[simp] theorem cast_sub (a b : ℕ) : ((sub a b : ℕ) : Residue) = a - b := by
  have hmod : sub a b = (a + (modulus - b % modulus)) % modulus := rfl
  have hle : b % modulus ≤ modulus := (Nat.mod_lt _ (by decide)).le
  rw [hmod, ZMod.natCast_mod, Nat.cast_add, Nat.cast_sub hle, ZMod.natCast_self, ZMod.natCast_mod,
    zero_sub, sub_eq_add_neg]

end LibcOverride.Word

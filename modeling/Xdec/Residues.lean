import Mathlib

/-!
# Residues modulo a power of two

Machine arithmetic on `w` bits is arithmetic in `ZMod (2 ^ w)`.  An equation
between reduced numbers is moved there, where differences are ring elements,
and a number kept in a host word of `k` bits is compared with the number it
stands for by the multiples of `2 ^ k` it has lost.
-/

namespace Residues

variable {w k a b m y : Nat}

/-- Reduced numbers are equal exactly when their residues are. -/
theorem mod_eq_iff : a % 2 ^ w = b % 2 ^ w ↔ (a : ZMod (2 ^ w)) = b :=
  (ZMod.natCast_eq_natCast_iff' a b (2 ^ w)).symm

theorem cast_compl (hy : y ≤ 2 ^ w) : ((2 ^ w - y : Nat) : ZMod (2 ^ w)) = -y := by
  rw [Nat.cast_sub hy, ZMod.natCast_self, zero_sub]

theorem cast_sub_one (hy : y < 2 ^ w) : ((2 ^ w - 1 - y : Nat) : ZMod (2 ^ w)) = -1 - y := by
  rw [Nat.sub_sub, Nat.cast_sub (by omega), ZMod.natCast_self]
  push_cast
  ring

/-- Multiples of the host word vanish exactly when the width leaves no room
for them. -/
theorem mul_word_eq_zero_iff : (m : ZMod (2 ^ w)) * 2 ^ k = 0 ↔ m % 2 ^ (w - k) = 0 := by
  have hcast : (m : ZMod (2 ^ w)) * 2 ^ k = ((m * 2 ^ k : Nat) : ZMod (2 ^ w)) := by
    push_cast
    rfl
  rw [hcast, ZMod.natCast_eq_zero_iff, ← Nat.dvd_iff_mod_eq_zero]
  by_cases h : w ≤ k
  · rw [Nat.sub_eq_zero_of_le h, Nat.pow_zero]
    exact ⟨fun _ => one_dvd m, fun _ => Dvd.dvd.mul_left (pow_dvd_pow 2 h) m⟩
  · have hsplit : 2 ^ w = 2 ^ (w - k) * 2 ^ k := by
      rw [← pow_add, Nat.sub_add_cancel (by omega)]
    rw [hsplit]
    exact Nat.mul_dvd_mul_iff_right (Nat.two_pow_pos k)

/-- Two residues that differ by multiples of the host word. -/
theorem eq_iff_of_add {x z : ZMod (2 ^ w)} (h : x + m * 2 ^ k = z) :
  x = z ↔ m % 2 ^ (w - k) = 0 := by
  rw [← mul_word_eq_zero_iff, ← h]
  exact ⟨fun h => by simpa using h.symm, fun h => by rw [h, add_zero]⟩

end Residues

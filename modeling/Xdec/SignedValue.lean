import Xdec.CHelpers

/-!
# Signed readings, division and the word operators

`sgn w x` is the number `x` of width `w` read as signed.  The signed operators
of the interpreter are stated through it, together with those operators the
table of `Value` leaves out: division, multiply-high, the helpers' operators,
concatenation and choice.
-/

namespace Xdec

/-- A number of width `w` read as signed. -/
def sgn (w x : Nat) : Int := if x < 2 ^ (w - 1) then x else x - 2 ^ w

theorem two_pow_half {w : Nat} (hw : 0 < w) : 2 ^ w = 2 * 2 ^ (w - 1) := by
  obtain ⟨k, rfl⟩ : ∃ k, w = k + 1 := ⟨w - 1, by omega⟩
  rw [Nat.add_sub_cancel, pow_succ]
  omega

theorem two_pow_half_int {w : Nat} (hw : 0 < w) : (2 : Int) ^ w = 2 * 2 ^ (w - 1) := by
  exact_mod_cast two_pow_half hw

section Sgn

variable {w x y : Nat}

theorem sgn_range (hw : 0 < w) (hx : x < 2 ^ w) :
  -2 ^ (w - 1) ≤ sgn w x ∧ sgn w x < 2 ^ (w - 1) := by
  have hpow := two_pow_half hw
  have hcast := two_pow_half_int hw
  have hx' : (x : Int) < 2 ^ w := by exact_mod_cast hx
  unfold sgn
  split
  · rename_i h
    have : (x : Int) < 2 ^ (w - 1) := by exact_mod_cast h
    omega
  · rename_i h
    have : (2 : Int) ^ (w - 1) ≤ x := by exact_mod_cast Nat.le_of_not_lt h
    omega

/-- The signed reading is the one representative in the signed range. -/
theorem eq_sgn {v : Int} (hw : 0 < w) (hlo : -2 ^ (w - 1) ≤ v) (hhi : v < 2 ^ (w - 1))
  (h : v % 2 ^ w = x) : v = sgn w x := by
  have hcast := two_pow_half_int hw
  have hpos : (0 : Int) < 2 ^ (w - 1) := by positivity
  unfold sgn
  rcases le_total 0 v with h0 | h0
  · rw [Int.emod_eq_of_lt h0 (by omega)] at h
    rw [if_pos (by zify; omega)]
    exact h
  · rcases h0.lt_or_eq with hneg | rfl
    · have hv : (v + 2 ^ w) % 2 ^ w = x := by rw [Int.add_emod_right]; exact h
      rw [Int.emod_eq_of_lt (by omega) (by omega)] at hv
      rw [if_neg (by zify; omega)]
      omega
    · rw [Int.zero_emod] at h
      rw [if_pos (by zify; omega)]
      exact h

theorem sgn_neg_iff (hx : x < 2 ^ w) : sgn w x < 0 ↔ 2 ^ (w - 1) ≤ x := by
  have hx' : (x : Int) < 2 ^ w := by exact_mod_cast hx
  unfold sgn
  split <;> omega

end Sgn

/-! ## Values of the remaining operators -/

/-- The low word of a value that fits it. -/
theorem lo_toNat_of_lt {v : U128} {w : Nat} (hw : w ≤ 64) (hv : v.toNat < 2 ^ w) :
  v.lo.toNat = v.toNat := by
  have hlt := v.lo.isLt
  have h64 : v.toNat < 2 ^ 64 := hv.trans_le (Nat.pow_le_pow_right (by omega) hw)
  unfold U128.toNat at *
  omega

section Apply

variable {env : Env} {t : Ty} {i : U64} {a b c : Expr} {x y z v : U128}

end Apply

end Xdec

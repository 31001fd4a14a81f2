import Mathlib

/-!
# Bitwise operations and arithmetic on natural numbers

Carry-free identities that relate `&&&`, `|||` and `^^^` to `+` and `-`, and
the reading of a number above and below a power of two.  Nothing here has a
width: the modular statements about machine words are obtained from these by
reducing both sides.
-/

namespace NatBits

/-- Splits a bitwise identity into its statement on the halves and its
statement on the lowest bit. -/
private theorem halves (x y : Nat) :
  x &&& y = 2 * (x / 2 &&& y / 2) + (x % 2) * (y % 2) ∧
  x ||| y = 2 * (x / 2 ||| y / 2) + (x % 2 + y % 2 - (x % 2) * (y % 2)) ∧
  x ^^^ y = 2 * (x / 2 ^^^ y / 2) + (x % 2 + y % 2) % 2 := by
  have hand := Nat.and_mod_two_pow (a := x) (b := y) (n := 1)
  have hor := Nat.or_mod_two_pow (a := x) (b := y) (n := 1)
  have hxor := Nat.xor_mod_two_pow (a := x) (b := y) (n := 1)
  have hand2 := Nat.and_div_two (a := x) (b := y)
  have hor2 := Nat.or_div_two (a := x) (b := y)
  have hxor2 := Nat.xor_div_two (a := x) (b := y)
  simp only [Nat.pow_one] at hand hor hxor
  rcases Nat.mod_two_eq_zero_or_one x with hx | hx <;>
    rcases Nat.mod_two_eq_zero_or_one y with hy | hy <;>
    simp only [hx, hy, Nat.zero_and, Nat.and_zero, Nat.and_self, Nat.zero_or,
      Nat.or_zero, Nat.or_self, Nat.zero_xor, Nat.xor_zero, Nat.xor_self]
      at hand hor hxor ⊢ <;>
    omega

/-- **Carry and sum.**  Addition is the bits in exactly one operand plus the
carries of the bits in both. -/
theorem xor_add_two_mul_and (x y : Nat) : (x ^^^ y) + 2 * (x &&& y) = x + y := by
  induction x using Nat.strong_induction_on generalizing y with
  | h x ih =>
    by_cases hx : x = 0
    · simp [hx]
    · obtain ⟨hand, -, hxor⟩ := halves x y
      have hrec := ih (x / 2) (by omega) (y / 2)
      rw [hand, hxor]
      rcases Nat.mod_two_eq_zero_or_one x with h | h <;>
        rcases Nat.mod_two_eq_zero_or_one y with h' | h' <;>
        simp only [h, h'] <;> omega

/-- The bits in both operands and the bits in exactly one are disjoint, so
their sum is the union. -/
theorem and_add_xor (x y : Nat) : (x &&& y) + (x ^^^ y) = x ||| y := by
  induction x using Nat.strong_induction_on generalizing y with
  | h x ih =>
    by_cases hx : x = 0
    · simp [hx]
    · obtain ⟨hand, hor, hxor⟩ := halves x y
      have hrec := ih (x / 2) (by omega) (y / 2)
      rw [hand, hor, hxor]
      rcases Nat.mod_two_eq_zero_or_one x with h | h <;>
        rcases Nat.mod_two_eq_zero_or_one y with h' | h' <;>
        simp only [h, h'] <;> omega

/-- Union plus intersection is the sum. -/
theorem or_add_and (x y : Nat) : (x ||| y) + (x &&& y) = x + y := by
  have h1 := and_add_xor x y
  have h2 := xor_add_two_mul_and x y
  omega

/-- The halves of `and_add_xor` joined bit by bit. -/
theorem and_or_xor (x y : Nat) : (x &&& y) ||| (x ^^^ y) = x ||| y := by
  apply Nat.eq_of_testBit_eq
  intro i
  simp only [Nat.testBit_or, Nat.testBit_and, Nat.testBit_xor]
  cases x.testBit i <;> cases y.testBit i <;> rfl

/-- The union without the intersection. -/
theorem or_xor_and (x y : Nat) : (x ||| y) ^^^ (x &&& y) = x ^^^ y := by
  apply Nat.eq_of_testBit_eq
  intro i
  simp only [Nat.testBit_or, Nat.testBit_and, Nat.testBit_xor]
  cases x.testBit i <;> cases y.testBit i <;> rfl

/-- Modular subtraction of a summand. -/
theorem add_compl_mod {a b c m : Nat} (hb : b ≤ m) (h : a = c + b) :
  (a + (m - b)) % m = c % m := by
  have hsum : a + (m - b) = c + m := by omega
  rw [hsum, Nat.add_mod_right]

/-- Setting the bit above a number adds it. -/
theorem xor_two_pow_of_lt {x k : Nat} (h : x < 2 ^ k) :
  x ^^^ 2 ^ k = x + 2 ^ k := by
  have hdisjoint : x &&& 2 ^ k = 0 := by
    apply Nat.eq_of_testBit_eq
    intro i
    rw [Nat.testBit_and, Nat.testBit_two_pow, Nat.zero_testBit]
    by_cases hi : k = i
    · subst hi
      simp [Nat.testBit_lt_two_pow h]
    · simp [hi]
  have hsum := xor_add_two_mul_and x (2 ^ k)
  omega

/-- Clearing the top bit of a number subtracts it. -/
theorem xor_two_pow_of_ge {x k : Nat} (hge : 2 ^ k ≤ x) (hlt : x < 2 ^ (k + 1)) :
  x ^^^ 2 ^ k = x - 2 ^ k := by
  have hlow : x - 2 ^ k < 2 ^ k := by
    rw [Nat.pow_succ] at hlt
    omega
  have hback : x = (x - 2 ^ k) ^^^ 2 ^ k := by
    rw [xor_two_pow_of_lt hlow]
    omega
  conv_lhs => rw [hback]
  rw [Nat.xor_assoc, Nat.xor_self, Nat.xor_zero]

/-- Bits below `k` and bits from `k` on do not meet, so joining them adds. -/
theorem mul_two_pow_or_of_lt {x k : Nat} (h : x < 2 ^ k) (y : Nat) :
  2 ^ k * y ||| x = 2 ^ k * y + x :=
  (Nat.two_pow_add_eq_or_of_lt h y).symm

/-! ## Masks -/

/-- A mask that covers every bit of a number leaves it alone. -/
theorem and_eq_left {x m : Nat} (h : ∀ j, x.testBit j = true → m.testBit j = true) :
  x &&& m = x := by
  apply Nat.eq_of_testBit_eq
  intro j
  rw [Nat.testBit_and]
  cases hx : x.testBit j with
  | false => rfl
  | true => simp [h j hx]

/-- Numbers that agree on the bits of a mask are masked to the same number. -/
theorem and_congr_left {x y m : Nat}
  (h : ∀ j, m.testBit j = true → x.testBit j = y.testBit j) : x &&& m = y &&& m := by
  apply Nat.eq_of_testBit_eq
  intro j
  rw [Nat.testBit_and, Nat.testBit_and]
  cases hm : m.testBit j with
  | false => simp
  | true => rw [h j hm]

/-- Setting bit one. -/
theorem or_two (y : Nat) : (y ||| 2) + 2 * (y / 2 % 2) = y + 2 := by
  have hand : y &&& 2 = 2 * (y / 2 % 2) := by
    have h := Nat.and_two_pow y 1
    rw [Nat.testBit_succ, Nat.testBit_zero] at h
    rcases Nat.mod_two_eq_zero_or_one (y / 2) with h' | h' <;> simp [h'] at h ⊢ <;> exact h
  have h := or_add_and y 2
  omega

/-- Flipping bit zero. -/
theorem xor_one (y : Nat) : (y ^^^ 1) + 2 * (y % 2) = y + 1 := by
  have h := xor_add_two_mul_and y 1
  rwa [Nat.and_one_is_mod] at h

/-- `2x + 2` without its carry, less `x` with bit zero flipped, is `x + 1`. -/
theorem double_or_two_sub_xor_one {x w : Nat} (hw : 2 ≤ w) (hx : x < 2 ^ w) :
  ((2 * x % 2 ^ w ||| 2) + (2 ^ w - (x ^^^ 1))) % 2 ^ w = (x + 1) % 2 ^ w := by
  obtain ⟨u, rfl⟩ : ∃ u, w = u + 2 := ⟨w - 2, by omega⟩
  have hpow : 2 ^ (u + 2) = 4 * 2 ^ u := by ring
  have hdiv := Nat.div_add_mod (2 * x) (2 ^ (u + 2))
  have hor := or_two (2 * x % 2 ^ (u + 2))
  have hxor := xor_one x
  have hle : x ^^^ 1 ≤ 2 ^ (u + 2) :=
    (Nat.xor_lt_two_pow hx (Nat.one_lt_two_pow (by omega))).le
  -- Both sides drop the parity of `x`, and the quotient is a multiple of the range.
  have hpar : 2 * x % 2 ^ (u + 2) / 2 % 2 = x % 2 := by
    rw [hpow] at hdiv ⊢
    have : 4 * 2 ^ u * (2 * x / (4 * 2 ^ u)) = 4 * (2 ^ u * (2 * x / (4 * 2 ^ u))) := by ring
    omega
  have hmod : (2 * x % 2 ^ (u + 2) ||| 2) + (2 ^ (u + 2) - (x ^^^ 1)) +
      2 ^ (u + 2) * (2 * x / 2 ^ (u + 2)) = (x + 1) + 2 ^ (u + 2) := by
    omega
  calc _ = ((2 * x % 2 ^ (u + 2) ||| 2) + (2 ^ (u + 2) - (x ^^^ 1)) +
        2 ^ (u + 2) * (2 * x / 2 ^ (u + 2))) % 2 ^ (u + 2) := (Nat.add_mul_mod_self_left ..).symm
    _ = (x + 1) % 2 ^ (u + 2) := by rw [hmod, Nat.add_mod_right]

end NatBits

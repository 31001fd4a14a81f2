import Mathlib

/-!
# LEB128

An integer written as bytes of seven bits each, the lowest first; every byte but the last
has its high bit set.  A signed integer is negative where the last byte's next bit is set.
-/

namespace Xdec

namespace Leb

abbrev Byte := BitVec 8

def Continues (byte : Byte) : Prop := byte &&& 0x80#8 ≠ 0#8

instance (byte : Byte) : Decidable (Continues byte) := inferInstanceAs (Decidable (_ ≠ _))

def digit (byte : Byte) : Nat := (byte &&& 0x7f#8).toNat

theorem digit_lt (byte : Byte) : digit byte < 128 := by
  rw [digit, BitVec.toNat_and]
  exact Nat.lt_of_le_of_lt Nat.and_le_right (by decide)

/-- The bytes of the integer at the start of a stream, and the bytes after it.  A stream
may end inside an integer. -/
def split : List Byte → List Byte × List Byte
  | [] => ([], [])
  | byte :: rest =>
    if Continues byte then (byte :: (split rest).1, (split rest).2) else ([byte], rest)

theorem split_append (stream : List Byte) : (split stream).1 ++ (split stream).2 = stream := by
  induction stream with
  | nil => rfl
  | cons byte rest ih =>
    rw [split]
    split
    · rw [List.cons_append, ih]
    · rfl

theorem length_split (stream : List Byte) : (split stream).2.length ≤ stream.length := by
  conv_rhs => rw [← split_append stream, List.length_append]
  exact Nat.le_add_left ..

/-- The bytes of an integer are an integer. -/
theorem split_fst (stream : List Byte) : split (split stream).1 = ((split stream).1, []) := by
  induction stream with
  | nil => rfl
  | cons byte rest ih =>
    rw [split]
    by_cases h : Continues byte
    · rw [if_pos h, split, if_pos h, ih]
    · rw [if_neg h, split, if_neg h]

/-- The unsigned integer that some bytes encode. -/
def magnitude : List Byte → Nat
  | [] => 0
  | byte :: rest => digit byte + 2 ^ 7 * magnitude rest

/-- Whether the last byte has the sign bit set. -/
def Negative (bytes : List Byte) : Prop := bytes.getLastD 0#8 &&& 0x40#8 ≠ 0#8

instance (bytes : List Byte) : Decidable (Negative bytes) := inferInstanceAs (Decidable (_ ≠ _))

/-- The signed integer that some bytes encode. -/
def signedValue (bytes : List Byte) : Int :=
  magnitude bytes - if Negative bytes then 2 ^ (7 * bytes.length) else 0

theorem magnitude_lt (bytes : List Byte) : magnitude bytes < 2 ^ (7 * bytes.length) := by
  induction bytes with
  | nil => exact Nat.one_pos
  | cons byte rest ih =>
    have hdigit := digit_lt byte
    have hpow : (2 : Nat) ^ (7 * (rest.length + 1)) = 2 ^ 7 * 2 ^ (7 * rest.length) := by
      rw [← Nat.pow_add]
      congr 1
      omega
    rw [magnitude, List.length_cons, hpow]
    omega

end Leb

/-- Bits joined above a number that does not reach them are added to it. -/
theorem or_shiftLeft_eq_add {v k : Nat} (hv : v < 2 ^ k) (hk : k < 64) (d : Nat) :
  BitVec.ofNat 64 v ||| BitVec.ofNat 64 d <<< k = BitVec.ofNat 64 (v + d * 2 ^ k) := by
  refine BitVec.eq_of_toNat_eq ?_
  have hfits : v < 2 ^ 64 := Nat.lt_of_lt_of_le hv (Nat.pow_le_pow_right (by decide) (by omega))
  rw [BitVec.toNat_or, BitVec.toNat_shiftLeft, BitVec.toNat_ofNat, BitVec.toNat_ofNat,
    BitVec.toNat_ofNat, Nat.mod_eq_of_lt hfits]
  have hsplit : (2 : Nat) ^ 64 = 2 ^ k * 2 ^ (64 - k) := by
    rw [← Nat.pow_add]
    congr 1
    omega
  -- What is left of the shifted number is a multiple of the power.
  have hshift : (d % 2 ^ 64) <<< k % 2 ^ 64 = (d % 2 ^ (64 - k)) <<< k := by
    rw [Nat.shiftLeft_eq, Nat.shiftLeft_eq, hsplit, Nat.mul_comm _ (2 ^ k),
      Nat.mul_mod_mul_left, Nat.mod_mul_left_mod, Nat.mul_comm]
  rw [hshift, Nat.or_comm, ← Nat.shiftLeft_add_eq_or_of_lt hv, Nat.shiftLeft_eq]
  have hroom : d % 2 ^ (64 - k) * 2 ^ k + v < 2 ^ 64 := by
    have hlt := Nat.mod_lt d (Nat.two_pow_pos (64 - k))
    have hle : (d % 2 ^ (64 - k) + 1) * 2 ^ k ≤ 2 ^ (64 - k) * 2 ^ k :=
      Nat.mul_le_mul_right _ hlt
    rw [Nat.add_mul, Nat.one_mul, Nat.mul_comm (2 ^ (64 - k)), ← hsplit] at hle
    omega
  have hmod : v + d * 2 ^ k =
      d % 2 ^ (64 - k) * 2 ^ k + v + 2 ^ 64 * (d / 2 ^ (64 - k)) := by
    conv_lhs => rw [← Nat.div_add_mod d (2 ^ (64 - k))]
    rw [hsplit]
    ring
  rw [hmod, Nat.add_mul_mod_self_left, Nat.mod_eq_of_lt hroom]

end Xdec

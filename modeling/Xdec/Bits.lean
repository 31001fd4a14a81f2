import Xdec.NatBits

/-!
# Width-parametrised bit primitives

The decompiler carries the width of a value as data, so every primitive of
`support/bits.h` takes a width in bits rather than a machine type.  A host
`uint64_t` is a `BitVec 64`; an `unsigned` width or shift amount is a `Nat`,
and the places where the code narrows a word to an `unsigned` say so with an
explicit remainder.

The reading used by every proof above this file is the natural number a word
denotes: `lowMask_toNat`, `zeroExtend_toNat` and `signExtend_toNat` say what
the primitives do to it.
-/

namespace Xdec

/-- A host `uint64_t`. -/
abbrev U64 := BitVec 64

/-- Mask with the low `width` bits set; `width ≥ 64` yields all ones. -/
def lowMask (width : Nat) : U64 :=
  if width ≥ 64 then ~~~0#64 else (1#64 <<< width) - 1#64

/-- The low `width` bits of `value`. -/
def zeroExtend (value : U64) (width : Nat) : U64 :=
  value &&& lowMask width

/-- Sign-extends the low `width` bits of `value`; the `int64_t` result is its
two's complement word. -/
def signExtend (value : U64) (width : Nat) : U64 :=
  if width = 0 ∨ width ≥ 64 then value
  else
    let masked := value &&& lowMask width
    let signBit := 1#64 <<< (width - 1)
    (masked ^^^ signBit) - signBit

/-- Sign-extends and re-truncates to `toWidth`. -/
def signExtendTo (value : U64) (fromWidth toWidth : Nat) : U64 :=
  zeroExtend (signExtend value fromWidth) toWidth

/-- Bits `[lo, lo + width)`; those at or above 64 read as zero. -/
def extractBits (value : U64) (lo width : Nat) : U64 :=
  if lo ≥ 64 then 0#64 else zeroExtend (value >>> lo) width

def rotateRight (value : U64) (width amount : Nat) : U64 :=
  if width = 0 then 0#64
  else
    let v := zeroExtend value width
    let amt := amount % width
    if amt = 0 then v else zeroExtend (v >>> amt ||| v <<< (width - amt)) width

def rotateLeft (value : U64) (width amount : Nat) : U64 :=
  if width = 0 then 0#64 else rotateRight value width (width - amount % width)

/-- `std::countr_zero`, with 64 for zero. -/
def countTrailingZeros (value : U64) : Nat :=
  if value = 0 then 64 else value.ctz.toNat

/-- Leading zeros within `width` bits. -/
def countLeadingZeros (value : U64) (width : Nat) : Nat :=
  if width = 0 ∨ width > 64 then 0
  else
    let v := zeroExtend value width
    if v = 0 then width else v.clz.toNat - (64 - width)

/-- Smallest number of bits that holds `value` unsigned; 0 for 0. -/
def significantBits (value : U64) : Nat :=
  if value = 0 then 0 else 64 - value.clz.toNat

/-- `lowMask` is the largest number below `2 ^ width`, capped at a word. -/
theorem lowMask_toNat (width : Nat) :
  (lowMask width).toNat = 2 ^ min width 64 - 1 := by
  unfold lowMask
  split
  · rename_i h
    rw [Nat.min_eq_right h]
    rfl
  · rename_i h
    have hw : width < 64 := by omega
    have hpow : 2 ^ width < 2 ^ 64 := Nat.pow_lt_pow_right (by decide) hw
    have hpos : 0 < 2 ^ width := Nat.two_pow_pos width
    rw [Nat.min_eq_left (Nat.le_of_lt hw)]
    have hone : (1#64 <<< width).toNat = 2 ^ width := by
      rw [BitVec.toNat_shiftLeft, Nat.shiftLeft_eq, BitVec.toNat_ofNat]
      omega
    rw [BitVec.toNat_sub, hone, BitVec.toNat_ofNat]
    omega

/-- Truncating a word is reduction modulo a power of two. -/
theorem zeroExtend_toNat (value : U64) (width : Nat) :
  (zeroExtend value width).toNat = value.toNat % 2 ^ width := by
  unfold zeroExtend
  rw [BitVec.toNat_and, lowMask_toNat, Nat.and_two_pow_sub_one_eq_mod]
  by_cases h : width ≤ 64
  · rw [Nat.min_eq_left h]
  · have hv : value.toNat < 2 ^ 64 := value.isLt
    have hw : 2 ^ 64 ≤ 2 ^ width := Nat.pow_le_pow_right (by decide) (by omega)
    rw [Nat.min_eq_right (by omega), Nat.mod_eq_of_lt hv,
      Nat.mod_eq_of_lt (Nat.lt_of_lt_of_le hv hw)]

/-- Truncating to a whole word or more does nothing. -/
theorem zeroExtend_of_le {value : U64} {width : Nat}
  (h : value.toNat < 2 ^ width) : zeroExtend value width = value := by
  apply BitVec.eq_of_toNat_eq
  rw [zeroExtend_toNat, Nat.mod_eq_of_lt h]

/-- A difference cut to a width is the difference at that width. -/
theorem zeroExtend_sub_toNat {a b : U64} {width : Nat} (hw : width ≤ 64)
  (hb : b.toNat < 2 ^ width) :
  (zeroExtend (a - b) width).toNat = (a.toNat + (2 ^ width - b.toNat)) % 2 ^ width := by
  have hdvd : 2 ^ width ∣ 2 ^ 64 := pow_dvd_pow 2 hw
  have hle : 2 ^ width ≤ 2 ^ 64 := Nat.pow_le_pow_right (by decide) hw
  obtain ⟨k, hk⟩ := Nat.dvd_sub hdvd (dvd_refl (2 ^ width))
  have hsplit : 2 ^ 64 - b.toNat + a.toNat = a.toNat + (2 ^ width - b.toNat) + 2 ^ width * k := by
    omega
  rw [zeroExtend_toNat, BitVec.toNat_sub, Nat.mod_mod_of_dvd _ hdvd, hsplit,
    Nat.add_mul_mod_self_left]

/-- The bits of a word from `low` on, cut to a width. -/
theorem zeroExtend_not_lowMask_toNat {low width : Nat} (hlow : low ≤ width) (hw : width ≤ 64) :
  (zeroExtend (~~~lowMask low) width).toNat = 2 ^ width - 2 ^ low := by
  have hdvd : 2 ^ width ∣ 2 ^ 64 := pow_dvd_pow 2 hw
  have hle : 2 ^ width ≤ 2 ^ 64 := Nat.pow_le_pow_right (by decide) hw
  have hle' : 2 ^ low ≤ 2 ^ width := Nat.pow_le_pow_right (by decide) hlow
  have hpos : 0 < 2 ^ low := Nat.two_pow_pos low
  obtain ⟨k, hk⟩ := Nat.dvd_sub hdvd (dvd_refl (2 ^ width))
  have hsplit : 2 ^ 64 - 1 - (2 ^ low - 1) = (2 ^ width - 2 ^ low) + 2 ^ width * k := by
    omega
  rw [zeroExtend_toNat, BitVec.toNat_not, lowMask_toNat, Nat.min_eq_left (by omega), hsplit,
    Nat.add_mul_mod_self_left, Nat.mod_eq_of_lt (by omega)]

theorem signExtend_toNat {value : U64} {width : Nat}
  (hpos : 0 < width) (hle : width ≤ 64) (hv : value.toNat < 2 ^ width) :
  (signExtend value width).toNat =
    if value.toNat < 2 ^ (width - 1) then value.toNat
    else value.toNat + (2 ^ 64 - 2 ^ width) := by
  obtain ⟨k, rfl⟩ : ∃ k, width = k + 1 := ⟨width - 1, by omega⟩
  rw [Nat.add_sub_cancel]
  by_cases hfull : k + 1 = 64
  · have hk : k = 63 := by omega
    subst hk
    simp [signExtend]
  · have hpow : 2 ^ (k + 1) < 2 ^ 64 := Nat.pow_lt_pow_right (by decide) (by omega)
    have hsign : (1#64 <<< k).toNat = 2 ^ k := by
      rw [BitVec.toNat_shiftLeft, Nat.shiftLeft_eq, BitVec.toNat_ofNat]
      omega
    have hmasked : value &&& lowMask (k + 1) = value := zeroExtend_of_le hv
    have hdef : signExtend value (k + 1) = (value ^^^ 1#64 <<< k) - 1#64 <<< k := by
      unfold signExtend
      rw [if_neg (by omega), hmasked, Nat.add_sub_cancel]
    rw [hdef, BitVec.toNat_sub, BitVec.toNat_xor, hsign]
    split
    · rename_i h
      rw [NatBits.xor_two_pow_of_lt h]
      omega
    · rename_i h
      rw [NatBits.xor_two_pow_of_ge (by omega) hv]
      omega

end Xdec

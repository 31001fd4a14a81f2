import Xdec.Bits

/-!
# The 128-bit toolkit

`il/u128.h` computes on pairs of 64-bit words so that the interpreter and the
constant evaluator share one arithmetic for every width up to 128.  The
definitions below follow it word by word, special cases included.

A pair denotes the number `U128.toNat`.  For each operation one theorem states
the number it returns; the branches on 64-bit boundaries, the carries between
the words and the masking are discharged here once, and nothing above this
file looks inside a pair again.
-/

namespace Xdec

/-- A value of up to 128 bits, little-endian in two words.  This is both the
toolkit's `U128` and the interpreter's `ConcreteValue`. -/
structure U128 where
  lo : U64
  hi : U64
deriving DecidableEq, Inhabited

namespace U128

/-- The zero pair, which is also a default-constructed value. -/
def zero : U128 := ⟨0#64, 0#64⟩

/-- The number a pair denotes. -/
def toNat (v : U128) : Nat := v.lo.toNat + 2 ^ 64 * v.hi.toNat

/-- The pair denoting a number, modulo `2 ^ 128`. -/
def ofNat (n : Nat) : U128 := ⟨BitVec.ofNat 64 n, BitVec.ofNat 64 (n / 2 ^ 64)⟩

/-- The pair with the low `width` bits set. -/
def maskOf (width : Nat) : U128 :=
  ⟨if width ≥ 64 then ~~~0#64 else lowMask width,
   if width ≤ 64 then 0#64 else lowMask (width - 64)⟩

def mask (v : U128) (width : Nat) : U128 :=
  ⟨v.lo &&& (maskOf width).lo, v.hi &&& (maskOf width).hi⟩

def signBit (v : U128) (width : Nat) : Bool :=
  if width > 64 then (v.hi >>> (width - 65)) &&& 1#64 ≠ 0#64
  else (v.lo >>> (width - 1)) &&& 1#64 ≠ 0#64

/-- Sum and carry out of the top word. -/
def add (a b : U128) (width : Nat) : U128 × Bool :=
  let lo := a.lo + b.lo
  let carryLo := decide (lo < a.lo)
  let hiSum := a.hi + b.hi
  let c1 := decide (hiSum < a.hi)
  let hi := hiSum + (if carryLo then 1#64 else 0#64)
  let c2 := decide (hi < hiSum)
  (mask ⟨lo, hi⟩ width, c1 || c2)

def sub (a b : U128) (width : Nat) : U128 :=
  mask ⟨a.lo - b.lo, a.hi - b.hi - (if a.lo < b.lo then 1#64 else 0#64)⟩ width

def shl (v : U128) (width amount : Nat) : U128 :=
  if amount = 0 then mask v width
  else if amount ≥ width then zero
  else if amount ≥ 64 then mask ⟨0#64, v.lo <<< (amount - 64)⟩ width
  else mask ⟨v.lo <<< amount, (v.hi <<< amount) ||| (v.lo >>> (64 - amount))⟩ width

def shrU (v : U128) (width amount : Nat) : U128 :=
  if amount = 0 then mask v width
  else if amount ≥ width then zero
  else if amount ≥ 64 then ⟨v.hi >>> (amount - 64), 0#64⟩
  else ⟨(v.lo >>> amount) ||| (v.hi <<< (64 - amount)), v.hi >>> amount⟩

/-- Bitwise operations act on the words separately. -/
def or (a b : U128) : U128 := ⟨a.lo ||| b.lo, a.hi ||| b.hi⟩

def and (a b : U128) : U128 := ⟨a.lo &&& b.lo, a.hi &&& b.hi⟩

def xor (a b : U128) : U128 := ⟨a.lo ^^^ b.lo, a.hi ^^^ b.hi⟩

def shrS (v : U128) (width amount : Nat) : U128 :=
  let sign := signBit v width
  if amount ≥ width then (if sign then maskOf width else zero)
  else
    let r := shrU v width amount
    -- The vacated high bits are filled with ones.
    let r := if sign && decide (amount > 0)
      then or r (shl (maskOf width) width (width - amount)) else r
    mask r width

def rotR (v : U128) (width amount : Nat) : U128 :=
  let n := amount % width
  if n = 0 then mask v width
  else mask (or (shrU v width n) (shl v width (width - n))) width

def rotL (v : U128) (width amount : Nat) : U128 :=
  rotR v width (width - amount % width)

/-- Three-way unsigned comparison. -/
def cmpU (a b : U128) : Ordering :=
  if a.hi ≠ b.hi then (if a.hi < b.hi then .lt else .gt)
  else if a.lo ≠ b.lo then (if a.lo < b.lo then .lt else .gt)
  else .eq

/-- Three-way signed comparison: flip both sign bits and compare unsigned. -/
def cmpS (a b : U128) (width : Nat) : Ordering :=
  let flip := shl ⟨1#64, 0#64⟩ width (width - 1)
  cmpU (xor a flip) (xor b flip)

/-- Portable 64 x 64 -> 128 multiply in 32-bit limbs, as `(hi, lo)`. -/
def mul64x64 (a b : U64) : U64 × U64 :=
  let a0 := a &&& 0xffffffff#64
  let a1 := a >>> 32
  let b0 := b &&& 0xffffffff#64
  let b1 := b >>> 32
  let p0 := a0 * b0
  let p1 := a0 * b1
  let p2 := a1 * b0
  let p3 := a1 * b1
  let mid := p1 + p2
  let midCarry := if mid < p1 then 1#64 else 0#64
  let lo := p0 + (mid <<< 32)
  let loCarry := if lo < p0 then 1#64 else 0#64
  (p3 + (mid >>> 32) + (midCarry <<< 32) + loCarry, lo)

/-- Low half of a 128-bit product. -/
def mulLow (a b : U128) (width : Nat) : U128 :=
  let p := mul64x64 a.lo b.lo
  mask ⟨p.2, p.1 + a.lo * b.hi + a.hi * b.lo⟩ width

/-- Bits `[offset, offset + width)` of the source. -/
def extract (source : U128) (sourceWidth offset width : Nat) : U128 :=
  mask (shrU source sourceWidth offset) width

def insert (dest field : U128) (offset width destWidth : Nat) : U128 :=
  let shifted := shl field destWidth offset
  let cleared := mask (shl (maskOf width) destWidth offset) destWidth
  let kept := and dest ⟨~~~cleared.lo, ~~~cleared.hi⟩
  mask (or kept shifted) destWidth

/-- The mask at `fromWidth` is the extension. -/
def zext (v : U128) (fromWidth _toWidth : Nat) : U128 := mask v fromWidth

def sext (v : U128) (fromWidth toWidth : Nat) : U128 :=
  let v := mask v fromWidth
  if signBit v fromWidth then
    let fill := xor (maskOf fromWidth) (maskOf toWidth)
    mask (or v fill) toWidth
  else v

def clzOf (v : U128) (width : Nat) : Nat :=
  let v := mask v width
  if width > 64 then
    if v.hi ≠ 0#64 then v.hi.clz.toNat - (128 - width)
    else width - 64 + v.lo.clz.toNat
  else countLeadingZeros v.lo width

def ctzOf (v : U128) (width : Nat) : Nat :=
  let v := mask v width
  if v.lo ≠ 0#64 then v.lo.ctz.toNat
  else if v.hi ≠ 0#64 ∧ width > 64 then 64 + v.hi.ctz.toNat
  else width

/-- Number of set bits of the value masked to `width`. -/
def popCountOf (v : U128) (width : Nat) : Nat :=
  let v := mask v width
  v.lo.cpop.toNat + v.hi.cpop.toNat

/-- Byte `index` of a pair. -/
def byteAt (v : U128) (index : Nat) : U64 :=
  if index < 8 then (v.lo >>> (index * 8)) &&& 0xff#64
  else (v.hi >>> ((index - 8) * 8)) &&& 0xff#64

/-- Reverses the order of the `width / 8` bytes. -/
def bswapOf (v : U128) (width : Nat) : U128 :=
  let bytes := width / 8
  let result := (List.range bytes).foldl (fun (result : U128) index =>
    let shift := (bytes - 1 - index) * 8
    let byte := byteAt v index
    if shift < 64 then ⟨result.lo ||| byte <<< shift, result.hi⟩
    else ⟨result.lo, result.hi ||| byte <<< (shift - 64)⟩) zero
  mask result width

/-- Reverses the order of the low `width` bits. -/
def brevOf (v : U128) (width : Nat) : U128 :=
  (List.range width).foldl (fun (result : U128) bit =>
    let set : Bool := if bit < 64 then (v.lo >>> bit) &&& 1#64 ≠ 0#64
      else (v.hi >>> (bit - 64)) &&& 1#64 ≠ 0#64
    if set then
      let target := width - 1 - bit
      if target < 64 then ⟨result.lo ||| 1#64 <<< target, result.hi⟩
      else ⟨result.lo, result.hi ||| 1#64 <<< (target - 64)⟩
    else result) zero

/-! ## The number each operation returns -/

theorem toNat_lt (v : U128) : v.toNat < 2 ^ 128 := by
  have hlo := v.lo.isLt
  have hhi := v.hi.isLt
  unfold toNat
  omega

@[simp] theorem toNat_zero : zero.toNat = 0 := rfl

/-- A pair is determined by the number it denotes. -/
theorem eq_of_toNat_eq {a b : U128} (h : a.toNat = b.toNat) : a = b := by
  have hlo := a.lo.isLt
  have hlo' := b.lo.isLt
  unfold toNat at h
  have hl : a.lo = b.lo := by
    apply BitVec.eq_of_toNat_eq
    omega
  have hh : a.hi = b.hi := by
    apply BitVec.eq_of_toNat_eq
    omega
  cases a
  cases b
  simp_all

theorem toNat_ofNat {n : Nat} (h : n < 2 ^ 128) : (ofNat n).toNat = n := by
  unfold ofNat toNat
  rw [BitVec.toNat_ofNat, BitVec.toNat_ofNat]
  omega

theorem testBit_toNat (v : U128) (i : Nat) :
  v.toNat.testBit i =
    if i < 64 then v.lo.getLsbD i else v.hi.getLsbD (i - 64) := by
  unfold toNat
  rw [Nat.add_comm, Nat.testBit_two_pow_mul_add _ v.lo.isLt]
  rfl

variable {x y width n : Nat} {v a b : U128}

/-- Numbers that agree below bit `w` agree modulo `2 ^ w`. -/
private theorem mod_eq_of_testBit {w : Nat}
  (h : ∀ i, i < w → x.testBit i = y.testBit i) : x % 2 ^ w = y % 2 ^ w := by
  apply Nat.eq_of_testBit_eq
  intro i
  rw [Nat.testBit_mod_two_pow, Nat.testBit_mod_two_pow]
  by_cases hi : i < w
  · simp [hi, h i hi]
  · simp [hi]

@[simp] theorem or_toNat (a b : U128) : (or a b).toNat = a.toNat ||| b.toNat := by
  apply Nat.eq_of_testBit_eq
  intro i
  rw [Nat.testBit_or, testBit_toNat, testBit_toNat, testBit_toNat]
  split <;> simp [or]

@[simp] theorem and_toNat (a b : U128) : (and a b).toNat = a.toNat &&& b.toNat := by
  apply Nat.eq_of_testBit_eq
  intro i
  rw [Nat.testBit_and, testBit_toNat, testBit_toNat, testBit_toNat]
  split <;> simp [and]

@[simp] theorem xor_toNat (a b : U128) : (xor a b).toNat = a.toNat ^^^ b.toNat := by
  apply Nat.eq_of_testBit_eq
  intro i
  rw [Nat.testBit_xor, testBit_toNat, testBit_toNat, testBit_toNat]
  split <;> simp [xor]

theorem maskOf_toNat (width : Nat) :
  (maskOf width).toNat = 2 ^ min width 128 - 1 := by
  have hpos : 0 < 2 ^ width := Nat.two_pow_pos width
  unfold maskOf toNat
  by_cases h1 : width ≤ 64
  · rw [if_pos h1, Nat.min_eq_left (by omega)]
    by_cases h2 : width ≥ 64
    · obtain rfl : width = 64 := by omega
      simp
    · rw [if_neg h2, lowMask_toNat, Nat.min_eq_left h1]
      simp
  · rw [if_neg h1, if_pos (by omega), lowMask_toNat]
    by_cases h2 : width ≤ 128
    · obtain ⟨k, rfl⟩ : ∃ k, width = 64 + k := ⟨width - 64, by omega⟩
      have hk : 0 < 2 ^ k := Nat.two_pow_pos k
      rw [Nat.add_sub_cancel_left, Nat.min_eq_left (by omega), Nat.min_eq_left h2, Nat.pow_add]
      simp only [BitVec.toNat_not, BitVec.toNat_ofNat]
      omega
    · rw [Nat.min_eq_right (by omega), Nat.min_eq_right (by omega)]
      simp

/-- Masking is reduction modulo a power of two. -/
@[simp] theorem mask_toNat (v : U128) (width : Nat) :
  (mask v width).toNat = v.toNat % 2 ^ width := by
  have hand : (mask v width).toNat = v.toNat &&& (maskOf width).toNat :=
    and_toNat v (maskOf width)
  rw [hand, maskOf_toNat, Nat.and_two_pow_sub_one_eq_mod]
  by_cases h : width ≤ 128
  · rw [Nat.min_eq_left h]
  · have hv := v.toNat_lt
    have hw : 2 ^ 128 ≤ 2 ^ width := Nat.pow_le_pow_right (by decide) (by omega)
    rw [Nat.min_eq_right (by omega), Nat.mod_eq_of_lt hv,
      Nat.mod_eq_of_lt (Nat.lt_of_lt_of_le hv hw)]

/-- A value that fits its width is left alone by the mask. -/
theorem mask_of_lt (h : v.toNat < 2 ^ width) :
  mask v width = v :=
  eq_of_toNat_eq (by rw [mask_toNat, Nat.mod_eq_of_lt h])

/-- Reducing modulo `2 ^ 128` first does not change the low `w` bits. -/
private theorem mod_mod_128 {w : Nat} (h : w ≤ 128) (n : Nat) :
  n % 2 ^ 128 % 2 ^ w = n % 2 ^ w :=
  Nat.mod_mod_of_dvd n (Nat.pow_dvd_pow 2 h)

theorem add_toNat (hw : width ≤ 128) :
  (add a b width).1.toNat = (a.toNat + b.toNat) % 2 ^ width := by
  unfold add
  simp only [mask_toNat]
  rw [← mod_mod_128 hw (a.toNat + b.toNat)]
  congr 1
  have hal := a.lo.isLt
  have hbl := b.lo.isLt
  unfold toNat
  simp only [BitVec.lt_def, BitVec.toNat_add]
  split
  · rename_i h
    have h := of_decide_eq_true h
    simp only [BitVec.toNat_ofNat]
    omega
  · rename_i h
    have h := of_decide_eq_false (Bool.not_eq_true _ ▸ h)
    simp only [BitVec.toNat_ofNat]
    omega

theorem sub_toNat (hw : width ≤ 128) :
  (sub a b width).toNat = (a.toNat + (2 ^ 128 - b.toNat)) % 2 ^ width := by
  unfold sub
  rw [mask_toNat, ← mod_mod_128 hw (a.toNat + (2 ^ 128 - b.toNat))]
  congr 1
  have hal := a.lo.isLt
  have hbl := b.lo.isLt
  have hah := a.hi.isLt
  have hbh := b.hi.isLt
  unfold toNat
  simp only [BitVec.lt_def, BitVec.toNat_sub]
  split <;> simp only [BitVec.toNat_ofNat] <;> omega

/-- Subtraction of values that fit the width. -/
theorem sub_toNat_of_lt (hw : width ≤ 128)
  (hb : b.toNat < 2 ^ width) :
  (sub a b width).toNat = (a.toNat + (2 ^ width - b.toNat)) % 2 ^ width := by
  obtain ⟨k, hk⟩ : ∃ k, 128 = width + k := ⟨128 - width, by omega⟩
  rw [sub_toNat hw, hk, Nat.pow_add]
  have hpos : 0 < 2 ^ k := Nat.two_pow_pos k
  obtain ⟨m, hm⟩ : ∃ m, 2 ^ k = m + 1 := ⟨2 ^ k - 1, by omega⟩
  rw [hm, Nat.mul_succ]
  have harith : a.toNat + (2 ^ width * m + 2 ^ width - b.toNat) =
      a.toNat + (2 ^ width - b.toNat) + 2 ^ width * m := by omega
  rw [harith, Nat.add_mul_mod_self_left]

theorem shl_toNat (hw : width ≤ 128) (amount : Nat) :
  (shl v width amount).toNat = v.toNat * 2 ^ amount % 2 ^ width := by
  unfold shl
  split
  · rename_i h
    subst h
    simp
  split
  · rename_i h
    rw [toNat_zero, Nat.mod_eq_zero_of_dvd]
    exact Dvd.dvd.mul_left (Nat.pow_dvd_pow 2 h) _
  split
  · rw [mask_toNat, ← Nat.shiftLeft_eq]
    apply mod_eq_of_testBit
    intro i hi
    rw [testBit_toNat, Nat.testBit_shiftLeft, testBit_toNat]
    by_cases h64 : i < 64
    · have : ¬ amount ≤ i := by omega
      simp [h64, this]
    · have e : i - 64 - (amount - 64) = i - amount := by omega
      have hlt : i - 64 < 64 := by omega
      by_cases hge : amount ≤ i
      · have hn : ¬ i - 64 < amount - 64 := by omega
        have hl : i - amount < 64 := by omega
        simp [h64, hge, hl, hn, hlt, e]
      · have hn : i - 64 < amount - 64 := by omega
        simp [h64, hge, hn]
  · rw [mask_toNat, ← Nat.shiftLeft_eq]
    apply mod_eq_of_testBit
    intro i hi
    rw [testBit_toNat, Nat.testBit_shiftLeft, testBit_toNat]
    by_cases h64 : i < 64
    · have hl : i - amount < 64 := by omega
      by_cases hge : amount ≤ i <;> simp [h64, hge, hl, Nat.not_lt.mpr, Nat.lt_of_not_le]
    · have hge : amount ≤ i := by omega
      have hlt : i - 64 < 64 := by omega
      by_cases hl : i - amount < 64
      · have hn : i - 64 < amount := by omega
        have e : 64 - amount + (i - 64) = i - amount := by omega
        simp [h64, hge, hl, hn, e]
      · have hn : ¬ i - 64 < amount := by omega
        have e : i - 64 - amount = i - amount - 64 := by omega
        have hbig : v.lo.getLsbD (64 - amount + (i - 64)) = false :=
          BitVec.getLsbD_of_ge _ _ (by omega)
        simp only [BitVec.getLsbD_or, BitVec.getLsbD_shiftLeft, BitVec.getLsbD_ushiftRight]
        simp [h64, hge, hl, hn, hlt, e, hbig]

theorem shrU_toNat (hv : v.toNat < 2 ^ width)
  (amount : Nat) : (shrU v width amount).toNat = v.toNat / 2 ^ amount := by
  unfold shrU
  split
  · rename_i h
    subst h
    simp [Nat.mod_eq_of_lt hv]
  split
  · rename_i h
    rw [toNat_zero, Nat.div_eq_of_lt]
    exact Nat.lt_of_lt_of_le hv (Nat.pow_le_pow_right (by decide) h)
  split
  · rw [← Nat.shiftRight_eq_div_pow]
    apply Nat.eq_of_testBit_eq
    intro i
    rw [testBit_toNat, Nat.testBit_shiftRight, testBit_toNat]
    have hn : ¬ amount + i < 64 := by omega
    have e : amount - 64 + i = amount + i - 64 := by omega
    by_cases h64 : i < 64
    · simp [h64, hn, e]
    · have hbig : v.hi.getLsbD (amount + i - 64) = false :=
        BitVec.getLsbD_of_ge _ _ (by omega)
      simp [h64, hn, hbig]
  · rw [← Nat.shiftRight_eq_div_pow]
    apply Nat.eq_of_testBit_eq
    intro i
    rw [testBit_toNat, Nat.testBit_shiftRight, testBit_toNat]
    by_cases h64 : i < 64
    · by_cases hl : amount + i < 64
      · have hn : i < 64 - amount := by omega
        simp [h64, hl, hn]
      · have hn : ¬ i < 64 - amount := by omega
        have e : i - (64 - amount) = amount + i - 64 := by omega
        have hbig : v.lo.getLsbD (amount + i) = false :=
          BitVec.getLsbD_of_ge _ _ (by omega)
        simp only [BitVec.getLsbD_or, BitVec.getLsbD_shiftLeft, BitVec.getLsbD_ushiftRight]
        simp [h64, hl, hn, e, hbig]
    · have hn : ¬ amount + i < 64 := by omega
      have e : amount + (i - 64) = amount + i - 64 := by omega
      simp [h64, hn, e]

theorem word_bit (w : U64) (i : Nat) :
  decide ((w >>> i) &&& 1#64 ≠ 0#64) = w.getLsbD i := by
  have h : (w >>> i) &&& 1#64 = (BitVec.ofBool (w.getLsbD i)).setWidth 64 := by
    apply BitVec.eq_of_getLsbD_eq
    intro j hj
    by_cases h0 : j = 0
    · subst h0
      simp
    · simp [h0]
  rw [h]
  cases w.getLsbD i <;> decide

private theorem testBit_top {k : Nat} (h : n < 2 ^ (k + 1)) :
  n.testBit k = decide (2 ^ k ≤ n) := by
  by_cases hk : 2 ^ k ≤ n
  · rw [Nat.testBit_of_two_pow_le_and_two_pow_add_one_gt hk h]
    simp [hk]
  · rw [Nat.testBit_lt_two_pow (by omega)]
    simp [hk]

theorem signBit_eq (hpos : 0 < width)
  (hv : v.toNat < 2 ^ width) :
  signBit v width = decide (2 ^ (width - 1) ≤ v.toNat) := by
  obtain ⟨k, rfl⟩ : ∃ k, width = k + 1 := ⟨width - 1, by omega⟩
  rw [Nat.add_sub_cancel, ← testBit_top hv, testBit_toNat]
  unfold signBit
  by_cases h : k + 1 > 64
  · rw [if_pos h, if_neg (by omega), word_bit]
    congr 1
  · rw [if_neg h, if_pos (by omega), word_bit]
    rfl

/-- Unsigned comparison of pairs is comparison of numbers. -/
theorem cmpU_eq (a b : U128) : cmpU a b = compare a.toNat b.toNat := by
  have hal := a.lo.isLt
  have hbl := b.lo.isLt
  have hhi : a.hi = b.hi ↔ a.hi.toNat = b.hi.toNat := BitVec.toNat_inj.symm
  have hlo : a.lo = b.lo ↔ a.lo.toNat = b.lo.toNat := BitVec.toNat_inj.symm
  unfold cmpU toNat
  rw [Nat.compare_eq_ite_lt]
  simp only [ne_eq, hhi, hlo, BitVec.lt_def]
  grind

/-- Flipping the sign bit moves a value by half the range. -/
theorem xor_flip_toNat (hpos : 0 < width) (hw : width ≤ 128)
  (ha : a.toNat < 2 ^ width) :
  (xor a (shl ⟨1#64, 0#64⟩ width (width - 1))).toNat =
    (a.toNat + 2 ^ (width - 1)) % 2 ^ width := by
  obtain ⟨k, rfl⟩ : ∃ k, width = k + 1 := ⟨width - 1, by omega⟩
  have hone : (⟨1#64, 0#64⟩ : U128).toNat = 1 := by simp [toNat]
  have hpow : 2 ^ (k + 1) = 2 ^ k + 2 ^ k := by rw [Nat.pow_succ]; omega
  have hk := Nat.two_pow_pos k
  rw [xor_toNat, shl_toNat hw, hone, Nat.one_mul, Nat.add_sub_cancel,
    Nat.mod_eq_of_lt (a := 2 ^ k) (by omega)]
  by_cases h : a.toNat < 2 ^ k
  · rw [NatBits.xor_two_pow_of_lt h, Nat.mod_eq_of_lt (by omega)]
  · rw [NatBits.xor_two_pow_of_ge (by omega) ha, Nat.mod_eq_sub_mod (by omega),
      Nat.mod_eq_of_lt (by omega)]
    omega

/-- Signed comparison orders the values moved by half the range. -/
theorem cmpS_eq (hpos : 0 < width) (hw : width ≤ 128)
  (ha : a.toNat < 2 ^ width) (hb : b.toNat < 2 ^ width) :
  cmpS a b width = compare ((a.toNat + 2 ^ (width - 1)) % 2 ^ width)
    ((b.toNat + 2 ^ (width - 1)) % 2 ^ width) := by
  unfold cmpS
  rw [cmpU_eq, xor_flip_toNat hpos hw ha, xor_flip_toNat hpos hw hb]

private theorem and_low_toNat (x : U64) : (x &&& 0xffffffff#64).toNat = x.toNat % 2 ^ 32 := by
  have hmask : (0xffffffff#64).toNat = 2 ^ 32 - 1 := by simp
  rw [BitVec.toNat_and, hmask, Nat.and_two_pow_sub_one_eq_mod]

private theorem ushiftRight_toNat (x : U64) (n : Nat) : (x >>> n).toNat = x.toNat / 2 ^ n := by
  rw [BitVec.toNat_ushiftRight, Nat.shiftRight_eq_div_pow]

private theorem shiftLeft_toNat (x : U64) (n : Nat) :
  (x <<< n).toNat = x.toNat * 2 ^ n % 2 ^ 64 := by
  rw [BitVec.toNat_shiftLeft, Nat.shiftLeft_eq]

/-- A product of two 32-bit limbs leaves room for two more limbs in a word. -/
private theorem limb_mul_le (hx : x < 2 ^ 32) (hy : y < 2 ^ 32) :
  x * y ≤ 18446744065119617025 := by
  have h := Nat.mul_le_mul (Nat.le_sub_one_of_lt hx) (Nat.le_sub_one_of_lt hy)
  simpa using h

/-- The carry the code tests for after a word addition. -/
private theorem carry_toNat (x y : U64) :
  (if x + y < x then 1#64 else 0#64).toNat =
    if (x.toNat + y.toNat) % 2 ^ 64 < x.toNat then 1 else 0 := by
  have h : x + y < x ↔ (x.toNat + y.toNat) % 2 ^ 64 < x.toNat := by
    rw [BitVec.lt_def, BitVec.toNat_add]
  by_cases hlt : x + y < x
  · rw [if_pos hlt, if_pos (h.mp hlt)]
    simp
  · rw [if_neg hlt, if_neg (mt h.mpr hlt)]
    simp

/-- A word addition and the carry the code tests for recover the sum. -/
private theorem add_carry (hx : x < 2 ^ 64) (hy : y < 2 ^ 64) :
  (x + y) % 2 ^ 64 + 2 ^ 64 * (if (x + y) % 2 ^ 64 < x then 1 else 0) = x + y := by
  split <;> omega

/-- The high word of the limb product, once both carries are accounted for. -/
private theorem limbs_sum {q0 q1 q2 q3 mid lo c1 c2 : Nat}
  (p1 : q1 ≤ 18446744065119617025) (p2 : q2 ≤ 18446744065119617025)
  (p3 : q3 ≤ 18446744065119617025)
  (hmid : mid + 2 ^ 64 * c1 = q1 + q2)
  (hlo : lo + 2 ^ 64 * c2 = q0 + mid * 2 ^ 32 % 2 ^ 64) (hc2 : c2 ≤ 1) :
  lo + 2 ^ 64 * ((((q3 + mid / 2 ^ 32) % 2 ^ 64 + c1 * 2 ^ 32 % 2 ^ 64) % 2 ^ 64 + c2) %
    2 ^ 64) = q0 + 2 ^ 32 * q1 + 2 ^ 32 * q2 + 2 ^ 64 * q3 := by
  have hhi : (((q3 + mid / 2 ^ 32) % 2 ^ 64 + c1 * 2 ^ 32 % 2 ^ 64) % 2 ^ 64 + c2) % 2 ^ 64 =
      q3 + mid / 2 ^ 32 + c1 * 2 ^ 32 + c2 := by omega
  rw [hhi]
  omega

theorem mul64x64_toNat (a b : U64) :
  (mul64x64 a b).2.toNat + 2 ^ 64 * (mul64x64 a b).1.toNat = a.toNat * b.toNat := by
  have ha := a.isLt
  have hb := b.isLt
  obtain ⟨a0, a1, ha0, ha1, hae⟩ : ∃ a0 a1, a.toNat % 2 ^ 32 = a0 ∧
      a.toNat / 2 ^ 32 = a1 ∧ a.toNat = a0 + 2 ^ 32 * a1 :=
    ⟨_, _, rfl, rfl, by omega⟩
  obtain ⟨b0, b1, hb0, hb1, hbe⟩ : ∃ b0 b1, b.toNat % 2 ^ 32 = b0 ∧
      b.toNat / 2 ^ 32 = b1 ∧ b.toNat = b0 + 2 ^ 32 * b1 :=
    ⟨_, _, rfl, rfl, by omega⟩
  have p0 : a0 * b0 ≤ _ := limb_mul_le (by omega) (by omega)
  have p1 : a0 * b1 ≤ _ := limb_mul_le (by omega) (by omega)
  have p2 : a1 * b0 ≤ _ := limb_mul_le (by omega) (by omega)
  have p3 : a1 * b1 ≤ _ := limb_mul_le (by omega) (by omega)
  have hword : ∀ q, q ≤ 18446744065119617025 → q % 2 ^ 64 = q := by
    intro q h
    omega
  have hexpand : a.toNat * b.toNat =
      a0 * b0 + 2 ^ 32 * (a0 * b1) + 2 ^ 32 * (a1 * b0) + 2 ^ 64 * (a1 * b1) := by
    rw [hae, hbe]
    ring
  rw [hexpand]
  unfold mul64x64
  simp only [carry_toNat, BitVec.toNat_add, BitVec.toNat_mul, and_low_toNat,
    ushiftRight_toNat, shiftLeft_toNat, ha0, ha1, hb0, hb1, hword _ p0, hword _ p1,
    hword _ p2, hword _ p3]
  have hmid := add_carry (x := a0 * b1) (y := a1 * b0) (by omega) (by omega)
  have hlo := add_carry (x := a0 * b0)
    (y := (a0 * b1 + a1 * b0) % 2 ^ 64 * 2 ^ 32 % 2 ^ 64) (by omega) (by omega)
  rw [limbs_sum p1 p2 p3 hmid hlo (by split <;> omega)]

/-- The cross terms only reach the high word. -/
private theorem cross_sum {lo hi q1 q2 : Nat} (hlo : lo < 2 ^ 64) :
  lo + 2 ^ 64 * (((hi + q1 % 2 ^ 64) % 2 ^ 64 + q2 % 2 ^ 64) % 2 ^ 64) =
    (lo + 2 ^ 64 * hi + 2 ^ 64 * (q1 + q2)) % 2 ^ 128 := by
  have hword : ((hi + q1 % 2 ^ 64) % 2 ^ 64 + q2 % 2 ^ 64) % 2 ^ 64 =
      (hi + q1 + q2) % 2 ^ 64 := by omega
  have hsum : lo + 2 ^ 64 * hi + 2 ^ 64 * (q1 + q2) = lo + 2 ^ 64 * (hi + q1 + q2) := by
    omega
  rw [hword, hsum]
  generalize hi + q1 + q2 = s
  omega

theorem mulLow_toNat (hw : width ≤ 128) :
  (mulLow a b width).toNat = a.toNat * b.toNat % 2 ^ width := by
  have hp := mul64x64_toNat a.lo b.lo
  have hexpand : a.toNat * b.toNat = a.lo.toNat * b.lo.toNat +
      2 ^ 64 * (a.lo.toNat * b.hi.toNat + a.hi.toNat * b.lo.toNat) +
      2 ^ 128 * (a.hi.toNat * b.hi.toNat) := by
    unfold toNat
    ring
  unfold mulLow
  rw [mask_toNat, ← mod_mod_128 hw (a.toNat * b.toNat), hexpand, Nat.add_mul_mod_self_left,
    ← hp, ← cross_sum (mul64x64 a.lo b.lo).2.isLt]
  unfold toNat
  simp only [BitVec.toNat_add, BitVec.toNat_mul]

theorem extract_toNat {sourceWidth : Nat} (hv : v.toNat < 2 ^ sourceWidth)
  (offset width : Nat) :
  (extract v sourceWidth offset width).toNat = v.toNat / 2 ^ offset % 2 ^ width := by
  unfold extract
  rw [mask_toNat, shrU_toNat hv]

theorem zext_toNat {fromWidth : Nat} (hv : v.toNat < 2 ^ fromWidth)
  (toWidth : Nat) : (zext v fromWidth toWidth).toNat = v.toNat := by
  unfold zext
  rw [mask_toNat, Nat.mod_eq_of_lt hv]

/-- The ones at or above bit `n` below bit `w`, as the sum the fill adds. -/
private theorem mask_shl_toNat (hw : width ≤ 128) (hn : n ≤ width) :
  (shl (maskOf width) width n).toNat = 2 ^ width - 2 ^ n := by
  obtain ⟨k, rfl⟩ : ∃ k, width = k + n := ⟨width - n, by omega⟩
  have hk := Nat.two_pow_pos k
  have hn' := Nat.two_pow_pos n
  rw [shl_toNat hw, maskOf_toNat, Nat.min_eq_left hw, Nat.pow_add]
  have hsplit : (2 ^ k * 2 ^ n - 1) * 2 ^ n =
      (2 ^ k - 1) * 2 ^ n + 2 ^ k * 2 ^ n * (2 ^ n - 1) := by
    obtain ⟨x, hx⟩ : ∃ x, 2 ^ k = x + 1 := ⟨2 ^ k - 1, by omega⟩
    obtain ⟨y, hy⟩ : ∃ y, 2 ^ n = y + 1 := ⟨2 ^ n - 1, by omega⟩
    rw [hx, hy]
    have : (x + 1) * (y + 1) - 1 = x * (y + 1) + y := by
      rw [Nat.add_mul, Nat.one_mul]
      omega
    rw [this, Nat.add_sub_cancel, Nat.add_sub_cancel]
    ring
  have hlt : (2 ^ k - 1) * 2 ^ n < 2 ^ k * 2 ^ n :=
    Nat.mul_lt_mul_of_pos_right (by omega) hn'
  rw [hsplit, Nat.add_mul_mod_self_left, Nat.mod_eq_of_lt hlt, Nat.sub_mul, Nat.one_mul]

/-- A value below `2 ^ n` joined with a multiple of `2 ^ n` is their sum. -/
private theorem or_of_dvd (hx : x < 2 ^ n) (hy : 2 ^ n ∣ y) :
  x ||| y = y + x := by
  obtain ⟨z, rfl⟩ := hy
  rw [Nat.or_comm, NatBits.mul_two_pow_or_of_lt hx]

theorem shrS_toNat (hpos : 0 < width) (hw : width ≤ 128)
  (hv : v.toNat < 2 ^ width) (amount : Nat) :
  (shrS v width amount).toNat =
    if v.toNat < 2 ^ (width - 1) then v.toNat / 2 ^ amount
    else v.toNat / 2 ^ amount + (2 ^ width - 2 ^ (width - amount)) := by
  have hsign := signBit_eq hpos hv
  have hwpos := Nat.two_pow_pos width
  unfold shrS
  simp only [hsign]
  by_cases hbig : amount ≥ width
  · have hdiv : v.toNat / 2 ^ amount = 0 :=
      Nat.div_eq_of_lt (Nat.lt_of_lt_of_le hv (Nat.pow_le_pow_right (by decide) hbig))
    rw [if_pos hbig, hdiv, Nat.sub_eq_zero_of_le hbig]
    by_cases hs : v.toNat < 2 ^ (width - 1)
    · simp [hs, Nat.not_le.mpr hs]
    · simp [hs, Nat.le_of_not_lt hs, maskOf_toNat, Nat.min_eq_left hw]
  · have hlt : v.toNat / 2 ^ amount < 2 ^ (width - amount) := by
      rw [Nat.div_lt_iff_lt_mul (Nat.two_pow_pos amount), ← Nat.pow_add,
        Nat.sub_add_cancel (by omega)]
      exact hv
    have hle : 2 ^ (width - amount) ≤ 2 ^ width := Nat.pow_le_pow_right (by decide) (by omega)
    rw [if_neg hbig, mask_toNat]
    by_cases hs : v.toNat < 2 ^ (width - 1)
    · simp only [Nat.not_le.mpr hs, decide_false, Bool.false_and, Bool.false_eq_true, if_false,
        if_pos hs]
      rw [shrU_toNat hv, Nat.mod_eq_of_lt (by omega)]
    · simp only [Nat.le_of_not_lt hs, decide_true, Bool.true_and, if_neg hs]
      by_cases h0 : amount = 0
      · subst h0
        simp [shrU_toNat hv, Nat.mod_eq_of_lt hv]
      · rw [if_pos (by simp; omega), or_toNat, shrU_toNat hv,
          mask_shl_toNat hw (by omega), or_of_dvd hlt]
        · rw [Nat.mod_eq_of_lt (by omega)]
          omega
        · exact Nat.dvd_sub (Nat.pow_dvd_pow 2 (by omega)) (Nat.dvd_refl _)

/-- Rotation moves the low bits over the high ones. -/
theorem rotR_toNat (hpos : 0 < width) (hw : width ≤ 128)
  (hv : v.toNat < 2 ^ width) (amount : Nat) :
  (rotR v width amount).toNat = v.toNat / 2 ^ (amount % width) +
    v.toNat % 2 ^ (amount % width) * 2 ^ (width - amount % width) := by
  have hn : amount % width < width := Nat.mod_lt _ hpos
  unfold rotR
  generalize amount % width = n at hn
  simp only
  split
  · rename_i h0
    subst h0
    simp [Nat.mod_eq_of_lt hv, Nat.mod_one]
  · have hpow : 2 ^ width = 2 ^ n * 2 ^ (width - n) := by
      rw [← Nat.pow_add, Nat.add_sub_cancel' (Nat.le_of_lt hn)]
    have hlow : v.toNat / 2 ^ n < 2 ^ (width - n) := by
      rw [Nat.div_lt_iff_lt_mul (Nat.two_pow_pos n), Nat.mul_comm, ← hpow]
      exact hv
    have hhigh : v.toNat * 2 ^ (width - n) % 2 ^ width =
        v.toNat % 2 ^ n * 2 ^ (width - n) := by
      rw [hpow, Nat.mul_mod_mul_right]
    have hlt : v.toNat % 2 ^ n * 2 ^ (width - n) + v.toNat / 2 ^ n < 2 ^ width := by
      rw [hpow]
      have hm := Nat.mod_lt v.toNat (Nat.two_pow_pos n)
      calc v.toNat % 2 ^ n * 2 ^ (width - n) + v.toNat / 2 ^ n
          < v.toNat % 2 ^ n * 2 ^ (width - n) + 2 ^ (width - n) := by omega
        _ = (v.toNat % 2 ^ n + 1) * 2 ^ (width - n) := by rw [Nat.add_mul, Nat.one_mul]
        _ ≤ 2 ^ n * 2 ^ (width - n) := Nat.mul_le_mul_right _ hm
    rw [mask_toNat, or_toNat, shrU_toNat hv, shl_toNat hw, hhigh,
      or_of_dvd hlow (Nat.dvd_mul_left _ _), Nat.mod_eq_of_lt hlt, Nat.add_comm]

/-- Sign extension adds the bits between the two widths when the sign is set. -/
theorem sext_toNat {fromWidth toWidth : Nat} (hpos : 0 < fromWidth)
  (hle : fromWidth ≤ toWidth) (hw : toWidth ≤ 128) (hv : v.toNat < 2 ^ fromWidth) :
  (sext v fromWidth toWidth).toNat =
    if v.toNat < 2 ^ (fromWidth - 1) then v.toNat
    else v.toNat + (2 ^ toWidth - 2 ^ fromWidth) := by
  have hpow : 2 ^ fromWidth ≤ 2 ^ toWidth := Nat.pow_le_pow_right (by decide) hle
  have hfrom := Nat.two_pow_pos fromWidth
  unfold sext
  simp only [mask_of_lt hv, signBit_eq hpos hv]
  by_cases hs : v.toNat < 2 ^ (fromWidth - 1)
  · simp [hs, Nat.not_le.mpr hs]
  · have hfill : (xor (maskOf fromWidth) (maskOf toWidth)).toNat = 2 ^ toWidth - 2 ^ fromWidth := by
      have hsum := NatBits.xor_add_two_mul_and (2 ^ fromWidth - 1) (2 ^ toWidth - 1)
      rw [Nat.and_two_pow_sub_one_eq_mod, Nat.mod_eq_of_lt (by omega)] at hsum
      rw [xor_toNat, maskOf_toNat, maskOf_toNat, Nat.min_eq_left (by omega),
        Nat.min_eq_left hw]
      omega
    simp only [Nat.le_of_not_lt hs, decide_true, if_true, if_neg hs]
    rw [mask_toNat, or_toNat, hfill, or_of_dvd hv, Nat.mod_eq_of_lt (by omega)]
    · omega
    · exact Nat.dvd_sub (Nat.pow_dvd_pow 2 hle) (Nat.dvd_refl _)

/-- Joining a low field and a high field that fit their widths. -/
theorem or_shl_toNat {high low : U128} {highWidth lowWidth : Nat}
  (hw : highWidth + lowWidth ≤ 128) (hh : high.toNat < 2 ^ highWidth)
  (hl : low.toNat < 2 ^ lowWidth) :
  (or (shl high (highWidth + lowWidth) lowWidth) low).toNat =
    high.toNat * 2 ^ lowWidth + low.toNat := by
  have hlt : high.toNat * 2 ^ lowWidth < 2 ^ (highWidth + lowWidth) := by
    rw [Nat.pow_add]
    exact Nat.mul_lt_mul_of_pos_right hh (Nat.two_pow_pos _)
  rw [or_toNat, shl_toNat hw, Nat.mod_eq_of_lt hlt, Nat.or_comm,
    or_of_dvd hl (Nat.dvd_mul_left _ _)]

/-- Bit `i` of a value with the bits of another cleared. -/
theorem testBit_and_not (v c : U128) (i : Nat) :
  (and v ⟨~~~c.lo, ~~~c.hi⟩).toNat.testBit i = (v.toNat.testBit i && !c.toNat.testBit i) := by
  rw [and_toNat, Nat.testBit_and, testBit_toNat v, testBit_toNat c, testBit_toNat]
  by_cases h : i < 64
  · simp [h]
  · by_cases h' : i - 64 < 64
    · simp [h, h']
    · have hbig : v.hi.getLsbD (i - 64) = false := BitVec.getLsbD_of_ge _ _ (by omega)
      simp only [if_neg h, hbig, Bool.false_and]

private theorem testBit_cleared {offset destWidth : Nat} (hd : destWidth ≤ 128)
  (hfit : offset + width ≤ destWidth) (i : Nat) :
  (mask (shl (maskOf width) destWidth offset) destWidth).toNat.testBit i =
    decide (offset ≤ i ∧ i < offset + width) := by
  rw [mask_toNat, shl_toNat hd, Nat.mod_mod, maskOf_toNat, Nat.min_eq_left (by omega),
    Nat.testBit_mod_two_pow, ← Nat.shiftLeft_eq, Nat.testBit_shiftLeft,
    Nat.testBit_two_pow_sub_one]
  by_cases h1 : offset ≤ i <;> by_cases h2 : i < offset + width <;> simp [h1, h2] <;> omega

theorem insert_testBit_any {dest field : U128} {offset destWidth : Nat}
  (hd : destWidth ≤ 128) (hfit : offset + width ≤ destWidth) (i : Nat) :
  (insert dest field offset width destWidth).toNat.testBit i =
    (decide (i < destWidth) &&
      ((dest.toNat.testBit i && !decide (offset ≤ i ∧ i < offset + width)) ||
        (decide (offset ≤ i) && field.toNat.testBit (i - offset)))) := by
  unfold insert
  simp only
  rw [mask_toNat, or_toNat, Nat.testBit_mod_two_pow, Nat.testBit_or, testBit_and_not,
    testBit_cleared hd hfit, shl_toNat hd, Nat.testBit_mod_two_pow, ← Nat.shiftLeft_eq,
    Nat.testBit_shiftLeft]
  by_cases hi : i < destWidth
  · simp [hi]
  · simp [hi]

/-- **Field insertion, bit by bit.**  Inside the field the bits of the field,
outside it the bits of the destination. -/
theorem insert_testBit {dest field : U128} {offset width destWidth : Nat}
  (hd : destWidth ≤ 128) (hfit : offset + width ≤ destWidth)
  (hdest : dest.toNat < 2 ^ destWidth) (hfield : field.toNat < 2 ^ width) (i : Nat) :
  (insert dest field offset width destWidth).toNat.testBit i =
    if offset ≤ i ∧ i < offset + width then field.toNat.testBit (i - offset)
    else dest.toNat.testBit i := by
  rw [insert_testBit_any hd hfit]
  by_cases hin : offset ≤ i ∧ i < offset + width
  · have hi : i < destWidth := by omega
    simp [hin, hi]
  · rw [if_neg hin]
    have hfalse : (decide (offset ≤ i) && field.toNat.testBit (i - offset)) = false := by
      by_cases h1 : offset ≤ i
      · rw [Nat.testBit_lt_two_pow (Nat.lt_of_lt_of_le hfield
          (Nat.pow_le_pow_right (by decide) (by omega)))]
        simp
      · simp [h1]
    by_cases hi : i < destWidth
    · simp [hin, hi, hfalse]
    · have hbig : dest.toNat.testBit i = false :=
        Nat.testBit_lt_two_pow (Nat.lt_of_lt_of_le hdest
          (Nat.pow_le_pow_right (by decide) (by omega)))
      simp [hi, hbig]

/-- Inserting a field above a low part that has nothing there joins the two. -/
theorem insert_high {high low : U128} {highWidth lowWidth : Nat}
  (hw : highWidth + lowWidth ≤ 128) (hh : high.toNat < 2 ^ highWidth)
  (hl : low.toNat < 2 ^ lowWidth) :
  insert low high lowWidth highWidth (highWidth + lowWidth) =
    or (shl high (highWidth + lowWidth) lowWidth) low := by
  have hl' : low.toNat < 2 ^ (highWidth + lowWidth) :=
    Nat.lt_of_lt_of_le hl (Nat.pow_le_pow_right (by decide) (by omega))
  apply eq_of_toNat_eq
  apply Nat.eq_of_testBit_eq
  intro i
  rw [insert_testBit hw (by omega) hl' hh, or_shl_toNat hw hh hl, Nat.mul_comm,
    Nat.testBit_two_pow_mul_add _ hl]
  by_cases h1 : i < lowWidth
  · have : ¬ lowWidth ≤ i := by omega
    simp [h1, this]
  · by_cases h2 : i < lowWidth + highWidth
    · simp [h1, h2, Nat.le_of_not_lt h1]
    · have hbig : high.toNat.testBit (i - lowWidth) = false :=
        Nat.testBit_lt_two_pow (Nat.lt_of_lt_of_le hh
          (Nat.pow_le_pow_right (by decide) (by omega)))
      have hbig' : low.toNat.testBit i = false :=
        Nat.testBit_lt_two_pow (Nat.lt_of_lt_of_le hl
          (Nat.pow_le_pow_right (by decide) (by omega)))
      simp [h1, h2, hbig, hbig']

/-! ## Counting operations stay within their width -/

private theorem word_clz_le (x : U64) : x.clz.toNat ≤ 64 := by
  have h := BitVec.clz_le (x := x)
  exact BitVec.le_def.mp h

private theorem word_cpop_le {x : U64} (hn : n ≤ 64) (hx : x.toNat < 2 ^ n) :
  x.cpop.toNat ≤ n := by
  have hback : x = (x.setWidth n).setWidth 64 := by
    apply BitVec.eq_of_toNat_eq
    rw [BitVec.toNat_setWidth, BitVec.toNat_setWidth, Nat.mod_eq_of_lt hx,
      Nat.mod_eq_of_lt x.isLt]
  rw [hback, BitVec.toNat_cpop_setWidth_eq_of_le hn]
  exact BitVec.toNat_cpop_le _

private theorem word_ctz_lt {x : U64} (h0 : x ≠ 0#64) (hx : x.toNat < 2 ^ n) :
  x.ctz.toNat < n := by
  have h := BitVec.two_pow_ctz_le_toNat_of_ne_zero h0
  exact (Nat.pow_lt_pow_iff_right (by decide)).mp (Nat.lt_of_le_of_lt h hx)

private theorem words_lt (hv : v.toNat < 2 ^ width) :
  v.lo.toNat < 2 ^ width ∧ v.hi.toNat < 2 ^ (width - 64) := by
  unfold toNat at hv
  refine ⟨by omega, ?_⟩
  by_cases h : width ≤ 64
  · have hpow : 2 ^ width ≤ 2 ^ 64 := Nat.pow_le_pow_right (by decide) h
    have hpos := Nat.two_pow_pos (width - 64)
    omega
  · obtain ⟨k, rfl⟩ : ∃ k, width = 64 + k := ⟨width - 64, by omega⟩
    rw [Nat.pow_add] at hv
    rw [Nat.add_sub_cancel_left]
    omega

private theorem mask_words_lt (v : U128) (width : Nat) :
  (mask v width).lo.toNat < 2 ^ width ∧ (mask v width).hi.toNat < 2 ^ (width - 64) :=
  words_lt (by rw [mask_toNat]; exact Nat.mod_lt _ (Nat.two_pow_pos width))

theorem clzOf_le (v : U128) (width : Nat) : clzOf v width ≤ width := by
  have hhi := word_clz_le (mask v width).hi
  have hlo := word_clz_le (mask v width).lo
  have hz := word_clz_le (zeroExtend (mask v width).lo width)
  unfold clzOf countLeadingZeros
  grind

theorem ctzOf_le (v : U128) (width : Nat) : ctzOf v width ≤ width := by
  obtain ⟨hlo, hhi⟩ := mask_words_lt v width
  unfold ctzOf
  simp only
  split
  · rename_i h
    exact Nat.le_of_lt (word_ctz_lt h hlo)
  · split
    · rename_i h
      have := word_ctz_lt h.1 hhi
      omega
    · exact Nat.le_refl _

theorem popCountOf_le (hw : width ≤ 128) :
  popCountOf v width ≤ width := by
  obtain ⟨hlo, hhi⟩ := mask_words_lt v width
  have hcl := word_cpop_le (Nat.le_refl 64) (mask v width).lo.isLt
  unfold popCountOf
  simp only
  have hch := word_cpop_le (n := width - 64) (by omega) hhi
  by_cases h : width ≤ 64
  · have := word_cpop_le h hlo
    omega
  · omega

/-- Setting one bit below the width keeps a value within it. -/
private theorem set_bit_lt {r : U128} {target : Nat} (hw : width ≤ 128)
  (hr : r.toNat < 2 ^ width) (ht : target < width) :
  (if target < 64 then (⟨r.lo ||| 1#64 <<< target, r.hi⟩ : U128)
    else ⟨r.lo, r.hi ||| 1#64 <<< (target - 64)⟩).toNat < 2 ^ width := by
  have hbit : ∀ n < 64, (1#64 <<< n).toNat = 2 ^ n := by
    intro n hn
    have hpow : 2 ^ n < 2 ^ 64 := Nat.pow_lt_pow_right (by decide) hn
    rw [shiftLeft_toNat, BitVec.toNat_ofNat]
    omega
  have hset : (if target < 64 then (⟨r.lo ||| 1#64 <<< target, r.hi⟩ : U128)
      else ⟨r.lo, r.hi ||| 1#64 <<< (target - 64)⟩) =
      or r (if target < 64 then ⟨1#64 <<< target, 0#64⟩ else ⟨0#64, 1#64 <<< (target - 64)⟩) := by
    split <;> simp [or]
  have hval : (if target < 64 then (⟨1#64 <<< target, 0#64⟩ : U128)
      else ⟨0#64, 1#64 <<< (target - 64)⟩).toNat = 2 ^ target := by
    split
    · rename_i h
      simp [toNat, hbit _ h]
    · rename_i h
      have hsum : 2 ^ target = 2 ^ 64 * 2 ^ (target - 64) := by
        rw [← Nat.pow_add]
        congr 1
        omega
      rw [hsum]
      unfold toNat
      simp only [hbit _ (show target - 64 < 64 by omega), BitVec.toNat_ofNat]
      omega
  rw [hset, or_toNat, hval]
  exact Nat.or_lt_two_pow hr (Nat.pow_lt_pow_right (by decide) ht)

theorem brevOf_lt (hw : width ≤ 128) :
  (brevOf v width).toNat < 2 ^ width := by
  unfold brevOf
  refine List.foldlRecOn (motive := fun r : U128 => r.toNat < 2 ^ width) _ _ ?_ ?_
  · rw [toNat_zero]
    exact Nat.two_pow_pos width
  · intro r hr bit hbit
    rw [List.mem_range] at hbit
    generalize (if bit < 64 then decide ((v.lo >>> bit) &&& 1#64 ≠ 0#64)
      else decide ((v.hi >>> (bit - 64)) &&& 1#64 ≠ 0#64)) = set
    cases set
    · exact hr
    · exact set_bit_lt hw hr (by omega)

end U128

end Xdec

import Xdec.Value
import Xdec.Ceval

/-!
# U128 arithmetic is bit vector arithmetic

A bit vector of at most 128 bits is held by a pair of words (`U128.ofBitVec`), and the
pairs that fit a width are those.  Each operation on pairs is the operation on bit
vectors.  The interpreter narrows a shift amount to 32 bits and refuses to divide more
than 64 bits, so its operations are the operations on bit vectors exactly where that
changes nothing (`toolkit_exact_iff`).
-/

namespace Xdec

namespace U128

variable {w v : Nat} {a b : BitVec w}

/-- The pair that holds a bit vector. -/
def ofBitVec (x : BitVec w) : U128 := ofNat x.toNat

theorem toNat_ofBitVec (hw : w ≤ 128) (x : BitVec w) : (ofBitVec x).toNat = x.toNat :=
  toNat_ofNat (x.isLt.trans_le (Nat.pow_le_pow_right (by decide) hw))

theorem toNat_ofBitVec_lt (hw : w ≤ 128) (x : BitVec w) : (ofBitVec x).toNat < 2 ^ w := by
  rw [toNat_ofBitVec hw]
  exact x.isLt

theorem eq_ofBitVec (hw : w ≤ 128) {u : U128} {x : BitVec w} (h : u.toNat = x.toNat) :
  u = ofBitVec x :=
  eq_of_toNat_eq (h.trans (toNat_ofBitVec hw x).symm)

theorem ofBitVec_inj (hw : w ≤ 128) : ofBitVec a = ofBitVec b ↔ a = b := by
  constructor
  · intro h
    apply BitVec.eq_of_toNat_eq
    rw [← toNat_ofBitVec hw, h, toNat_ofBitVec hw]
  · rintro rfl
    rfl

/-! ## Sums and products -/

theorem add_ofBitVec (hw : w ≤ 128) (a b : BitVec w) :
  (add (ofBitVec a) (ofBitVec b) w).1 = ofBitVec (a + b) := by
  apply eq_ofBitVec hw
  rw [add_toNat hw, toNat_ofBitVec hw, toNat_ofBitVec hw, BitVec.toNat_add]

theorem sub_ofBitVec (hw : w ≤ 128) (a b : BitVec w) :
  sub (ofBitVec a) (ofBitVec b) w = ofBitVec (a - b) := by
  apply eq_ofBitVec hw
  rw [sub_toNat_of_lt hw (toNat_ofBitVec_lt hw b), toNat_ofBitVec hw, toNat_ofBitVec hw,
    BitVec.toNat_sub, Nat.add_comm]

theorem mulLow_ofBitVec (hw : w ≤ 128) (a b : BitVec w) :
  mulLow (ofBitVec a) (ofBitVec b) w = ofBitVec (a * b) := by
  apply eq_ofBitVec hw
  rw [mulLow_toNat hw, toNat_ofBitVec hw, toNat_ofBitVec hw, BitVec.toNat_mul]

/-! ## Shifts and rotations -/

theorem shl_ofBitVec (hw : w ≤ 128) (a : BitVec w) (amount : Nat) :
  shl (ofBitVec a) w amount = ofBitVec (a <<< amount) := by
  apply eq_ofBitVec hw
  rw [shl_toNat hw, toNat_ofBitVec hw, BitVec.toNat_shiftLeft, Nat.shiftLeft_eq]

theorem shrU_ofBitVec (hw : w ≤ 128) (a : BitVec w) (amount : Nat) :
  shrU (ofBitVec a) w amount = ofBitVec (a >>> amount) := by
  apply eq_ofBitVec hw
  rw [shrU_toNat (toNat_ofBitVec_lt hw a), toNat_ofBitVec hw, BitVec.toNat_ushiftRight,
    Nat.shiftRight_eq_div_pow]

/-- The top bit is set in the upper half. -/
theorem msb_iff (a : BitVec w) : a.msb = true ↔ ¬ a.toNat < 2 ^ (w - 1) := by
  rw [BitVec.msb_eq_decide, decide_eq_true_iff, Nat.not_lt]

theorem shifted_complement {n r x : Nat} (hx : x < 2 ^ n) :
  2 ^ n - 1 - (2 ^ n - 1 - x) / 2 ^ r = x / 2 ^ r + (2 ^ n - 2 ^ (n - r)) := by
  have hr := Nat.two_pow_pos r
  by_cases hle : r ≤ n
  · obtain ⟨k, rfl⟩ : ∃ k, n = k + r := ⟨n - r, (Nat.sub_add_cancel hle).symm⟩
    have hk := Nat.two_pow_pos k
    have hq : x / 2 ^ r < 2 ^ k := by
      rw [Nat.div_lt_iff_lt_mul hr, ← Nat.pow_add]
      exact hx
    have hdiv : (2 ^ (k + r) - 1 - x) / 2 ^ r = 2 ^ k - 1 - x / 2 ^ r := by
      rw [Nat.pow_add, Nat.sub_sub, Nat.add_comm 1 x]
      have h := Nat.mul_sub_div x (2 ^ r) (2 ^ k) (by rwa [Nat.pow_add, Nat.mul_comm] at hx)
      rw [Nat.mul_comm, h]
      omega
    have hpow : 2 ^ k ≤ 2 ^ (k + r) := Nat.pow_le_pow_right (by decide) (Nat.le_add_right k r)
    rw [hdiv, Nat.add_sub_cancel]
    generalize x / 2 ^ r = q at hq
    omega
  · have hpow : 2 ^ n < 2 ^ r := Nat.pow_lt_pow_right (by decide) (by omega)
    have hnone : n - r = 0 := by omega
    rw [Nat.div_eq_of_lt (by omega), Nat.div_eq_of_lt (hx.trans hpow), hnone]
    omega

theorem shrS_ofBitVec (hpos : 0 < w) (hw : w ≤ 128) (a : BitVec w) (amount : Nat) :
  shrS (ofBitVec a) w amount = ofBitVec (a.sshiftRight amount) := by
  apply eq_ofBitVec hw
  rw [shrS_toNat hpos hw (toNat_ofBitVec_lt hw a), toNat_ofBitVec hw, BitVec.toNat_sshiftRight]
  by_cases hsign : a.msb = true
  · rw [if_pos hsign, if_neg ((msb_iff a).mp hsign), Nat.shiftRight_eq_div_pow,
      shifted_complement a.isLt]
  · rw [if_neg hsign, if_pos (not_not.mp ((msb_iff a).not.mp hsign)),
      Nat.shiftRight_eq_div_pow]

theorem rotR_ofBitVec (hpos : 0 < w) (hw : w ≤ 128) (a : BitVec w) (amount : Nat) :
  rotR (ofBitVec a) w amount = ofBitVec (a.rotateRight amount) := by
  apply eq_ofBitVec hw
  have hk : amount % w < w := Nat.mod_lt _ hpos
  rw [rotR_toNat hpos hw (toNat_ofBitVec_lt hw a), toNat_ofBitVec hw, BitVec.toNat_rotateRight]
  generalize amount % w = k at hk
  have hlt : a.toNat / 2 ^ k < 2 ^ (w - k) := by
    rw [Nat.div_lt_iff_lt_mul (Nat.two_pow_pos k), ← Nat.pow_add, Nat.sub_add_cancel hk.le]
    exact a.isLt
  have hhigh : a.toNat <<< (w - k) % 2 ^ w = 2 ^ (w - k) * (a.toNat % 2 ^ k) := by
    rw [Nat.shiftLeft_eq, ← Nat.mul_mod_mul_left, ← Nat.pow_add, Nat.sub_add_cancel hk.le,
      Nat.mul_comm]
  rw [hhigh, Nat.shiftRight_eq_div_pow, Nat.or_comm, ← Nat.two_pow_add_eq_or_of_lt hlt,
    Nat.add_comm, Nat.mul_comm]

theorem getLsbD_rotateRight {i : Nat} (hi : i < w) (amount : Nat) :
  (a.rotateRight amount).getLsbD i = a.getLsbD ((i + amount) % w) := by
  have hk : amount % w < w := Nat.mod_lt _ (Nat.zero_lt_of_lt hi)
  rw [BitVec.getLsbD_rotateRight, ← Nat.add_mod_mod]
  generalize amount % w = k at hk
  by_cases h : i < w - k
  · rw [decide_eq_true h, Nat.mod_eq_of_lt (by omega), Nat.add_comm]
    rfl
  · rw [decide_eq_false h, decide_eq_true hi, Nat.mod_eq_sub_mod (by omega),
      Nat.mod_eq_of_lt (by omega), Bool.cond_false, Bool.true_and]
    congr 1
    omega

theorem rotateLeft_eq (hpos : 0 < w) (amount : Nat) :
  a.rotateRight (w - amount % w) = a.rotateLeft amount := by
  have hk : amount % w < w := Nat.mod_lt _ hpos
  apply BitVec.eq_of_getLsbD_eq
  intro i hi
  rw [getLsbD_rotateRight hi, BitVec.getLsbD_rotateLeft]
  generalize amount % w = k at hk
  by_cases h : i < k
  · rw [decide_eq_true h, Nat.mod_eq_of_lt (by omega), Nat.add_comm]
    rfl
  · rw [decide_eq_false h, decide_eq_true hi, Nat.mod_eq_sub_mod (by omega),
      Nat.mod_eq_of_lt (by omega), Bool.cond_false, Bool.true_and]
    congr 1
    omega

theorem rotL_ofBitVec (hpos : 0 < w) (hw : w ≤ 128) (a : BitVec w) (amount : Nat) :
  rotL (ofBitVec a) w amount = ofBitVec (a.rotateLeft amount) := by
  unfold rotL
  rw [rotR_ofBitVec hpos hw, rotateLeft_eq hpos]

theorem rotateRight_rotateRight (m n : Nat) :
  (a.rotateRight m).rotateRight n = a.rotateRight (m + n) := by
  apply BitVec.eq_of_getLsbD_eq
  intro i hi
  have hj : (i + n) % w < w := Nat.mod_lt _ (Nat.zero_lt_of_lt hi)
  rw [getLsbD_rotateRight hi, getLsbD_rotateRight hj, getLsbD_rotateRight hi, Nat.mod_add_mod,
    Nat.add_assoc, Nat.add_comm n]

theorem rotateLeft_rotateRight (hpos : 0 < w) (n : Nat) :
  (a.rotateLeft n).rotateRight n = a := by
  rw [← rotateLeft_eq hpos, rotateRight_rotateRight]
  apply BitVec.eq_of_getLsbD_eq
  intro i hi
  have hn : n % w < w := Nat.mod_lt _ hpos
  have hround : w - n % w + n % w = w := Nat.sub_add_cancel hn.le
  rw [getLsbD_rotateRight hi, ← Nat.add_assoc, ← Nat.add_mod_mod, Nat.add_assoc, hround,
    Nat.add_mod_right, Nat.mod_eq_of_lt hi]

theorem rotateRight_injective (hpos : 0 < w) (n : Nat) :
  Function.Injective fun x : BitVec w => x.rotateRight n := by
  have hback : Function.LeftInverse (fun x : BitVec w => x.rotateRight (w - n % w))
      fun x => x.rotateRight n := by
    intro x
    show (x.rotateRight n).rotateRight (w - n % w) = x
    rw [rotateRight_rotateRight, Nat.add_comm, ← rotateRight_rotateRight, rotateLeft_eq hpos,
      rotateLeft_rotateRight hpos]
  exact hback.injective

theorem rotateRight_eq_iff (hpos : 0 < w) (m n : Nat) :
  a.rotateRight m = a.rotateRight (m + n) ↔ a.rotateRight n = a := by
  rw [Nat.add_comm, ← rotateRight_rotateRight, (rotateRight_injective hpos m).eq_iff, eq_comm]

theorem rotateLeft_eq_iff (hpos : 0 < w) (m n : Nat) :
  a.rotateLeft m = a.rotateLeft (m + n) ↔ a.rotateRight n = a := by
  rw [← (rotateRight_injective hpos (m + n)).eq_iff]
  rw [rotateLeft_rotateRight hpos, ← rotateRight_rotateRight, rotateLeft_rotateRight hpos]

/-! ## Fields and extensions -/

theorem extract_ofBitVec (hw : w ≤ 128) (hv : v ≤ 128) (a : BitVec w) (offset : Nat) :
  extract (ofBitVec a) w offset v = ofBitVec (a.extractLsb' offset v) := by
  apply eq_ofBitVec hv
  rw [extract_toNat (toNat_ofBitVec_lt hw a), toNat_ofBitVec hw, BitVec.extractLsb'_toNat,
    Nat.shiftRight_eq_div_pow]

theorem zext_ofBitVec (hle : w ≤ v) (hv : v ≤ 128) (a : BitVec w) :
  zext (ofBitVec a) w v = ofBitVec (a.setWidth v) := by
  apply eq_ofBitVec hv
  rw [zext_toNat (toNat_ofBitVec_lt (hle.trans hv) a), toNat_ofBitVec (hle.trans hv),
    BitVec.toNat_setWidth_of_le hle]

theorem sext_ofBitVec (hpos : 0 < w) (hle : w ≤ v) (hv : v ≤ 128) (a : BitVec w) :
  sext (ofBitVec a) w v = ofBitVec (a.signExtend v) := by
  apply eq_ofBitVec hv
  rw [sext_toNat hpos hle hv (toNat_ofBitVec_lt (hle.trans hv) a), toNat_ofBitVec (hle.trans hv),
    BitVec.toNat_signExtend, BitVec.toNat_setWidth_of_le hle]
  by_cases hsign : a.msb = true
  · rw [if_pos hsign, if_neg ((msb_iff a).mp hsign)]
  · rw [if_neg hsign, if_pos (not_not.mp ((msb_iff a).not.mp hsign)), Nat.add_zero]

/-- The vector with a field put over the bits from `offset` on. -/
def insertField (dest : BitVec w) (offset : Nat) (field : BitVec v) : BitVec w :=
  (dest &&& ~~~((BitVec.allOnes v).setWidth w <<< offset)) ||| (field.setWidth w <<< offset)

theorem testBit_shl (hw : w ≤ 128) (u : U128) (offset i : Nat) :
  (shl u w offset).toNat.testBit i =
    (decide (i < w) && (decide (offset ≤ i) && u.toNat.testBit (i - offset))) := by
  rw [shl_toNat hw, Nat.testBit_mod_two_pow, ← Nat.shiftLeft_eq, Nat.testBit_shiftLeft]

theorem insert_ofBitVec (hw : w ≤ 128) (hv : v ≤ 128) (dest : BitVec w) (offset : Nat)
  (field : BitVec v) :
  insert (ofBitVec dest) (ofBitVec field) offset v w =
    ofBitVec (insertField dest offset field) := by
  apply eq_ofBitVec hw
  apply Nat.eq_of_testBit_eq
  intro i
  unfold insert
  simp only
  rw [mask_toNat, Nat.testBit_mod_two_pow, or_toNat, Nat.testBit_or, testBit_and_not, mask_toNat,
    Nat.testBit_mod_two_pow, testBit_shl hw, testBit_shl hw, toNat_ofBitVec hw, toNat_ofBitVec hv,
    maskOf_toNat, Nat.min_eq_left hv, Nat.testBit_two_pow_sub_one]
  simp only [insertField, BitVec.testBit_toNat, BitVec.getLsbD_or, BitVec.getLsbD_and,
    BitVec.getLsbD_not, BitVec.getLsbD_shiftLeft, BitVec.getLsbD_setWidth, BitVec.getLsbD_allOnes]
  by_cases hi : i < w
  · have hdown : i - offset < w := by omega
    by_cases ho : i < offset
    · simp [hi, hdown, ho, Nat.not_le.mpr ho]
    · simp [hi, hdown, ho, Nat.le_of_not_lt ho]
  · have hout : dest.getLsbD i = false := BitVec.getLsbD_of_ge _ _ (by omega)
    simp [hi, hout]

/-! ## Comparisons -/

theorem cmpU_ofBitVec (hw : w ≤ 128) (a b : BitVec w) :
  cmpU (ofBitVec a) (ofBitVec b) = compare a.toNat b.toNat := by
  rw [cmpU_eq, toNat_ofBitVec hw, toNat_ofBitVec hw]

/-- Moving by half the range orders like the signed reading. -/
theorem biased_toInt (hpos : 0 < w) (a : BitVec w) :
  (((a.toNat + 2 ^ (w - 1)) % 2 ^ w : Nat) : Int) = a.toInt + 2 ^ (w - 1) := by
  obtain ⟨k, rfl⟩ : ∃ k, w = k + 1 := ⟨w - 1, by omega⟩
  have hlt := a.isLt
  have hdouble : 2 ^ (k + 1) = 2 * 2 ^ k := by rw [Nat.pow_succ, Nat.mul_comm]
  have hcast : ((2 : Int) ^ k) = ((2 ^ k : Nat) : Int) := by push_cast; rfl
  rw [BitVec.toInt_eq_toNat_cond, Nat.add_sub_cancel, hcast]
  rw [hdouble] at hlt ⊢
  generalize 2 ^ k = half at *
  generalize a.toNat = x at *
  by_cases hx : x < half
  · rw [if_pos (by omega), Nat.mod_eq_of_lt (by omega)]
    omega
  · rw [if_neg (by omega), Nat.mod_eq_sub_mod (by omega), Nat.mod_eq_of_lt (by omega)]
    omega

theorem cmpS_ofBitVec (hpos : 0 < w) (hw : w ≤ 128) (a b : BitVec w) :
  cmpS (ofBitVec a) (ofBitVec b) w = compare a.toInt b.toInt := by
  rw [cmpS_eq hpos hw (toNat_ofBitVec_lt hw a) (toNat_ofBitVec_lt hw b), toNat_ofBitVec hw,
    toNat_ofBitVec hw]
  have ha := biased_toInt hpos a
  have hb := biased_toInt hpos b
  rcases Int.lt_trichotomy a.toInt b.toInt with h | h | h
  · rw [compare_lt_iff_lt.mpr h]
    exact compare_lt_iff_lt.mpr (by omega)
  · rw [compare_eq_iff_eq.mpr h]
    exact compare_eq_iff_eq.mpr (by omega)
  · rw [compare_gt_iff_gt.mpr h]
    exact compare_gt_iff_gt.mpr (by omega)

/-! ## Divisions of at most a word -/

theorem lo_ofBitVec (a : BitVec w) : (ofBitVec a).lo = a.setWidth 64 := by
  apply BitVec.eq_of_toNat_eq
  rw [BitVec.toNat_setWidth]
  rfl

theorem ofBitVec_zero : ofBitVec 0#w = zero := by
  rw [ofBitVec, BitVec.toNat_ofNat, Nat.zero_mod]
  rfl

theorem mask_word_eq (hw : w ≤ 64) (x : U64) : mask (word x) w = ofBitVec (x.setWidth w) := by
  apply eq_ofBitVec (hw.trans (by decide))
  rw [mask_toNat, word_toNat, BitVec.toNat_setWidth]

theorem sext_lo_ofBitVec (hpos : 0 < w) (hw : w ≤ 64) (a : BitVec w) :
  (sext (ofBitVec a) w 64).lo = a.signExtend 64 := by
  rw [sext_ofBitVec hpos hw (by decide), lo_ofBitVec, BitVec.setWidth_eq]

theorem setWidth_udiv (hw : w ≤ 64) (a b : BitVec w) :
  (a.setWidth 64 / b.setWidth 64).setWidth w = a / b := by
  apply BitVec.eq_of_toNat_eq
  rw [BitVec.toNat_setWidth, BitVec.toNat_udiv, BitVec.toNat_setWidth_of_le hw,
    BitVec.toNat_setWidth_of_le hw, BitVec.toNat_udiv, Nat.mod_eq_of_lt]
  exact (Nat.div_le_self _ _).trans_lt a.isLt

theorem setWidth_umod (hw : w ≤ 64) (a b : BitVec w) :
  (a.setWidth 64 % b.setWidth 64).setWidth w = a % b := by
  apply BitVec.eq_of_toNat_eq
  rw [BitVec.toNat_setWidth, BitVec.toNat_umod, BitVec.toNat_setWidth_of_le hw,
    BitVec.toNat_setWidth_of_le hw, BitVec.toNat_umod, Nat.mod_eq_of_lt]
  exact (Nat.mod_le _ _).trans_lt a.isLt

/-- Cutting down keeps the low part of the signed reading. -/
theorem toInt_setWidth_of_le (hw : w ≤ 64) (x : U64) :
  (x.setWidth w).toInt = x.toInt.bmod (2 ^ w) := by
  rw [BitVec.toInt_setWidth, BitVec.toInt_eq_toNat_bmod,
    Int.bmod_bmod_of_dvd (Nat.pow_dvd_pow 2 hw)]

theorem setWidth_sdiv (hw : w ≤ 64) (a b : BitVec w) :
  ((a.signExtend 64).sdiv (b.signExtend 64)).setWidth w = a.sdiv b := by
  apply BitVec.eq_of_toInt_eq
  rw [toInt_setWidth_of_le hw, BitVec.toInt_sdiv, BitVec.toInt_sdiv,
    Int.bmod_bmod_of_dvd (Nat.pow_dvd_pow 2 hw), BitVec.toInt_signExtend_of_le hw,
    BitVec.toInt_signExtend_of_le hw]

theorem setWidth_srem (hw : w ≤ 64) (a b : BitVec w) :
  ((a.signExtend 64).srem (b.signExtend 64)).setWidth w = a.srem b := by
  apply BitVec.eq_of_toInt_eq
  rw [toInt_setWidth_of_le hw, BitVec.toInt_srem, BitVec.toInt_signExtend_of_le hw,
    BitVec.toInt_signExtend_of_le hw, ← BitVec.toInt_srem, BitVec.toInt_bmod_cancel]

end U128

/-! ## The evaluators -/

section Evaluators

open U128

variable {w : Nat} (env : Env)

/-- A node of two operands of a width. -/
def widthNode (op : ExprOp) (w : Nat) : Expr :=
  .binary op (Ty.integer w) 0#64 (Expr.undefined (Ty.integer w)) (Expr.undefined (Ty.integer w))

@[simp] theorem widthNode_bits (op : ExprOp) (w : Nat) : (widthNode op w).bits = w :=
  Nat.mul_one w

@[simp] theorem widthNode_op (op : ExprOp) (w : Nat) : (widthNode op w).op = op := rfl

theorem setWidth_eq_zero_iff (hw : w ≤ 64) {b : BitVec w} : b.setWidth 64 = 0#64 ↔ b = 0#w := by
  rw [← BitVec.toNat_inj, ← BitVec.toNat_inj, BitVec.toNat_setWidth_of_le hw, BitVec.toNat_ofNat,
    BitVec.toNat_ofNat, Nat.zero_mod, Nat.zero_mod]

theorem signExtend_eq_zero_iff (hw : w ≤ 64) {b : BitVec w} :
  b.signExtend 64 = 0#64 ↔ b = 0#w := by
  rw [← BitVec.toInt_inj, ← BitVec.toInt_inj, BitVec.toInt_signExtend_of_le hw, BitVec.toInt_zero,
    BitVec.toInt_zero]

/-- **Unsigned division.**  By zero it gives zero, as for bit vectors. -/
theorem applyOp_divU (hw : w ≤ 64) (a b : BitVec w) :
  applyOp env (widthNode .divU w) [ofBitVec a, ofBitVec b] = .ok (ofBitVec (a / b)) := by
  simp only [applyOp, widthNode_op, widthNode_bits, if_neg (Nat.not_lt.mpr hw),
    List.getD_cons_zero, List.getD_cons_succ, lo_ofBitVec, setWidth_eq_zero_iff hw]
  split
  · rename_i hb
    rw [hb, BitVec.udiv_zero, ofBitVec_zero]
  · rw [mask_word_eq hw, setWidth_udiv hw]

theorem applyOp_remU (hw : w ≤ 64) (a b : BitVec w) :
  applyOp env (widthNode .remU w) [ofBitVec a, ofBitVec b] = .ok (ofBitVec (a % b)) := by
  simp only [applyOp, widthNode_op, widthNode_bits, if_neg (Nat.not_lt.mpr hw),
    List.getD_cons_zero, List.getD_cons_succ, lo_ofBitVec, setWidth_eq_zero_iff hw]
  split
  · rename_i hb
    rw [hb, BitVec.umod_zero, mask_of_lt (toNat_ofBitVec_lt (hw.trans (by decide)) a)]
  · rw [mask_word_eq hw, setWidth_umod hw]

/-- **Signed division.**  The quotient of the least number by -1 wraps. -/
theorem applyOp_divS (hpos : 0 < w) (hw : w ≤ 64) (a b : BitVec w) :
  applyOp env (widthNode .divS w) [ofBitVec a, ofBitVec b] = .ok (ofBitVec (a.sdiv b)) := by
  simp only [applyOp, widthNode_op, widthNode_bits, if_neg (Nat.not_lt.mpr hw),
    List.getD_cons_zero, List.getD_cons_succ, sext_lo_ofBitVec hpos hw, signExtend_eq_zero_iff hw]
  split
  · rename_i hb
    rw [hb, BitVec.sdiv_zero, ofBitVec_zero]
  · have hquotient : (if b.signExtend 64 = -1#64 then -a.signExtend 64
        else (a.signExtend 64).sdiv (b.signExtend 64)) =
        (a.signExtend 64).sdiv (b.signExtend 64) := by
      split
      · rename_i hminus
        rw [hminus]
        apply BitVec.eq_of_toInt_eq
        rw [BitVec.toInt_sdiv, BitVec.toInt_neg]
        exact congrArg (Int.bmod · (2 ^ 64)) ((Int.tdiv_neg _ 1).trans
          (congrArg Neg.neg (Int.tdiv_one _))).symm
      · rfl
    rw [hquotient, mask_word_eq hw, setWidth_sdiv hw]

theorem applyOp_remS (hpos : 0 < w) (hw : w ≤ 64) (a b : BitVec w) :
  applyOp env (widthNode .remS w) [ofBitVec a, ofBitVec b] = .ok (ofBitVec (a.srem b)) := by
  simp only [applyOp, widthNode_op, widthNode_bits, if_neg (Nat.not_lt.mpr hw),
    List.getD_cons_zero, List.getD_cons_succ, sext_lo_ofBitVec hpos hw, signExtend_eq_zero_iff hw]
  split
  · rename_i hb
    rw [hb, BitVec.srem_zero, mask_of_lt (toNat_ofBitVec_lt (hw.trans (by decide)) a)]
  · have hremainder : (if b.signExtend 64 = -1#64 then 0#64
        else (a.signExtend 64).srem (b.signExtend 64)) =
        (a.signExtend 64).srem (b.signExtend 64) := by
      split
      · rename_i hminus
        rw [hminus]
        apply BitVec.eq_of_toInt_eq
        rw [BitVec.toInt_srem]
        exact (Int.tmod_neg _ 1).trans (Int.tmod_one _) |>.symm
      · rfl
    rw [hremainder, mask_word_eq hw, setWidth_srem hw]

end Evaluators

/-! ## The toolkit -/

/-- What an operation gives. -/
inductive Answer where
  | value (v : U128)
  | order (o : Ordering)
deriving DecidableEq

/-- The operations on values of a width, with their other widths and fields. -/
inductive WordOp where
  | add | sub | mul
  | divU | divS | remU | remS
  | shl | shrU | shrS | rotR | rotL
  | extract (offset width : Nat)
  | insert (offset : Nat) {width : Nat} (field : BitVec width)
  | zext (width : Nat) | sext (width : Nat)
  | cmpU | cmpS

namespace WordOp

open U128

variable {w : Nat}

/-- Extensions do not narrow, and no width is above 128. -/
def Fits (w : Nat) : WordOp → Prop
  | extract _ width => width ≤ 128
  | @insert _ width _ => width ≤ 128
  | zext width | sext width => w ≤ width ∧ width ≤ 128
  | _ => True

/-- The operation on pairs, where the interpreter's switch takes the amount or divides. -/
def run (env : Env) (w : Nat) (a b : U128) (amount : U64) : WordOp → Except Diag Answer
  | add => .ok (.value (U128.add a b w).1)
  | sub => .ok (.value (U128.sub a b w))
  | mul => .ok (.value (U128.mulLow a b w))
  | divU => (applyOp env (widthNode .divU w) [a, b]).map .value
  | divS => (applyOp env (widthNode .divS w) [a, b]).map .value
  | remU => (applyOp env (widthNode .remU w) [a, b]).map .value
  | remS => (applyOp env (widthNode .remS w) [a, b]).map .value
  | shl => (applyOp env (widthNode .shl w) [a, word amount]).map .value
  | shrU => (applyOp env (widthNode .shrU w) [a, word amount]).map .value
  | shrS => (applyOp env (widthNode .shrS w) [a, word amount]).map .value
  | rotR => (applyOp env (widthNode .rotR w) [a, word amount]).map .value
  | rotL => (applyOp env (widthNode .rotL w) [a, word amount]).map .value
  | extract offset width => .ok (.value (U128.extract a w offset width))
  | @insert offset width field => .ok (.value (U128.insert a (ofBitVec field) offset width w))
  | zext width => .ok (.value (U128.zext a w width))
  | sext width => .ok (.value (U128.sext a w width))
  | cmpU => .ok (.order (U128.cmpU a b))
  | cmpS => .ok (.order (U128.cmpS a b w))

/-- The operation on bit vectors. -/
def meaning (a b : BitVec w) (amount : U64) : WordOp → Answer
  | add => .value (ofBitVec (a + b))
  | sub => .value (ofBitVec (a - b))
  | mul => .value (ofBitVec (a * b))
  | divU => .value (ofBitVec (a / b))
  | divS => .value (ofBitVec (a.sdiv b))
  | remU => .value (ofBitVec (a % b))
  | remS => .value (ofBitVec (a.srem b))
  | shl => .value (ofBitVec (a <<< amount.toNat))
  | shrU => .value (ofBitVec (a >>> amount.toNat))
  | shrS => .value (ofBitVec (a.sshiftRight amount.toNat))
  | rotR => .value (ofBitVec (a.rotateRight amount.toNat))
  | rotL => .value (ofBitVec (a.rotateLeft amount.toNat))
  | extract offset width => .value (ofBitVec (a.extractLsb' offset width))
  | insert offset field => .value (ofBitVec (insertField a offset field))
  | zext width => .value (ofBitVec (a.setWidth width))
  | sext width => .value (ofBitVec (a.signExtend width))
  | cmpU => .order (compare a.toNat b.toNat)
  | cmpS => .order (compare a.toInt b.toInt)

/-- What is left of an amount in an `unsigned`. -/
def narrowed (amount : U64) : Nat := amount.toNat % 2 ^ 32

/-- Where the narrowing of an amount and the limit of a division do no harm: the narrowed
shift moves every bit that is set, or every bit that is not a copy of the sign, out, and
the rotation by what is cut off changes nothing. -/
def Unharmed (a : BitVec w) (amount : U64) : WordOp → Prop
  | divU | divS | remU | remS => w ≤ 64
  | shl => amount.toNat < 2 ^ 32 ∨ 2 ^ w ∣ a.toNat * 2 ^ narrowed amount
  | shrU => amount.toNat < 2 ^ 32 ∨ a.toNat < 2 ^ narrowed amount
  | shrS =>
    amount.toNat < 2 ^ 32 ∨
      -2 ^ narrowed amount ≤ a.toInt ∧ a.toInt < 2 ^ narrowed amount
  | rotR | rotL => a.rotateRight (amount.toNat - narrowed amount) = a
  | _ => True

section Amounts

variable {amount : U64}

theorem shiftAmount_word (amount : U64) : shiftAmount (word amount) = narrowed amount := rfl

theorem narrowed_of_lt (h : amount.toNat < 2 ^ 32) : narrowed amount = amount.toNat :=
  Nat.mod_eq_of_lt h

/-- An amount of more than 32 bits is above every width. -/
theorem width_le_of_wide (hw : w ≤ 128) (h : ¬ amount.toNat < 2 ^ 32) : w ≤ amount.toNat := by
  omega

theorem shl_narrowed_iff (hw : w ≤ 128) (a : BitVec w) (amount : U64) :
  a <<< narrowed amount = a <<< amount.toNat ↔
    amount.toNat < 2 ^ 32 ∨ 2 ^ w ∣ a.toNat * 2 ^ narrowed amount := by
  by_cases hsmall : amount.toNat < 2 ^ 32
  · rw [narrowed_of_lt hsmall]
    exact iff_of_true rfl (.inl hsmall)
  · rw [BitVec.shiftLeft_eq_zero (width_le_of_wide hw hsmall), or_iff_right hsmall,
      ← BitVec.toNat_inj, BitVec.toNat_shiftLeft, BitVec.toNat_ofNat, Nat.zero_mod,
      Nat.shiftLeft_eq]
    exact (Nat.dvd_iff_mod_eq_zero).symm

theorem shrU_narrowed_iff (hw : w ≤ 128) (a : BitVec w) (amount : U64) :
  a >>> narrowed amount = a >>> amount.toNat ↔
    amount.toNat < 2 ^ 32 ∨ a.toNat < 2 ^ narrowed amount := by
  by_cases hsmall : amount.toNat < 2 ^ 32
  · rw [narrowed_of_lt hsmall]
    exact iff_of_true rfl (.inl hsmall)
  · rw [BitVec.ushiftRight_eq_zero (width_le_of_wide hw hsmall), or_iff_right hsmall,
      ← BitVec.toNat_inj, BitVec.toNat_ushiftRight, BitVec.toNat_ofNat, Nat.zero_mod,
      Nat.shiftRight_eq_div_pow, Nat.div_eq_zero_iff]
    exact or_iff_right (Nat.two_pow_pos _).ne'

theorem shiftRight_eq_sign_iff {x : Int} {n : Nat} :
  x >>> n = (if 0 ≤ x then 0 else -1) ↔ -2 ^ n ≤ x ∧ x < 2 ^ n := by
  have hpos : (0 : Int) < 2 ^ n := Int.pow_pos (by decide)
  rw [Int.shiftRight_eq_div_pow]
  push_cast
  generalize (2 : Int) ^ n = p at *
  split
  · rw [Int.ediv_eq_iff_of_pos hpos]
    omega
  · rw [Int.ediv_eq_iff_of_pos hpos]
    omega

theorem shrS_narrowed_iff (hw : w ≤ 128) (a : BitVec w) (amount : U64) :
  a.sshiftRight (narrowed amount) = a.sshiftRight amount.toNat ↔
    amount.toNat < 2 ^ 32 ∨
      -2 ^ narrowed amount ≤ a.toInt ∧ a.toInt < 2 ^ narrowed amount := by
  by_cases hsmall : amount.toNat < 2 ^ 32
  · rw [narrowed_of_lt hsmall]
    exact iff_of_true rfl (.inl hsmall)
  · have hwide := width_le_of_wide hw hsmall
    have hpow : (2 : Int) ^ w ≤ 2 ^ amount.toNat := by
      exact_mod_cast Nat.pow_le_pow_right (by decide : 0 < 2) hwide
    have hlow := BitVec.le_two_mul_toInt (x := a)
    have hhigh := BitVec.two_mul_toInt_lt (x := a)
    have hsign : a.toInt >>> amount.toNat = if 0 ≤ a.toInt then 0 else -1 :=
      shiftRight_eq_sign_iff.mpr (by omega)
    rw [← BitVec.toInt_inj, BitVec.toInt_sshiftRight, BitVec.toInt_sshiftRight, hsign,
      shiftRight_eq_sign_iff, or_iff_right hsmall]

/-- What the narrowing cuts off is what the two amounts differ by. -/
theorem narrowed_add (amount : U64) :
  narrowed amount + (amount.toNat - narrowed amount) = amount.toNat :=
  Nat.add_sub_cancel' (Nat.mod_le _ _)

theorem rotR_narrowed_iff (hpos : 0 < w) (a : BitVec w) (amount : U64) :
  a.rotateRight (narrowed amount) = a.rotateRight amount.toNat ↔
    a.rotateRight (amount.toNat - narrowed amount) = a := by
  rw [← rotateRight_eq_iff hpos (narrowed amount), narrowed_add]

theorem rotL_narrowed_iff (hpos : 0 < w) (a : BitVec w) (amount : U64) :
  a.rotateLeft (narrowed amount) = a.rotateLeft amount.toNat ↔
    a.rotateRight (amount.toNat - narrowed amount) = a := by
  rw [← rotateLeft_eq_iff hpos (narrowed amount), narrowed_add]

end Amounts

/-! ## The result -/

section Exact

variable {env : Env} {a b : BitVec w} {amount : U64}

/-- Answers that hold bit vectors are equal where the vectors are. -/
theorem value_eq_iff (hw : w ≤ 128) {x y : BitVec w} :
  (Except.ok (.value (ofBitVec x)) : Except Diag Answer) = .ok (.value (ofBitVec y)) ↔
    x = y := by
  rw [Except.ok.injEq, Answer.value.injEq, ofBitVec_inj hw]

variable {op : ExprOp} {f : U128 → Nat → Nat → U128}

theorem divides_iff {x y z : U128} {diag : Diag}
  (hok : w ≤ 64 → applyOp env (widthNode op w) [x, y] = .ok z)
  (hrefused : ¬ w ≤ 64 → applyOp env (widthNode op w) [x, y] = .error diag) :
  (applyOp env (widthNode op w) [x, y]).map .value = .ok (Answer.value z) ↔ w ≤ 64 := by
  by_cases h : w ≤ 64
  · rw [hok h]
    exact iff_of_true rfl h
  · rw [hrefused h]
    exact iff_of_false nofun h

/-- The operations that take an amount. -/
def takesAmount : ExprOp → Option (U128 → Nat → Nat → U128)
  | .shl => some U128.shl
  | .shrU => some U128.shrU
  | .shrS => some U128.shrS
  | .rotR => some U128.rotR
  | .rotL => some U128.rotL
  | _ => none

theorem applyOp_amount (h : takesAmount op = some f)
  (env : Env) (w : Nat) (x : U128) (amount : U64) :
  applyOp env (widthNode op w) [x, word amount] = .ok (f x w (narrowed amount)) := by
  unfold takesAmount at h
  split at h <;> cases h <;>
    simp only [applyOp, widthNode_op, widthNode_bits, List.getD_cons_zero, List.getD_cons_succ,
      shiftAmount_word]

theorem foldOp_amount (h : takesAmount op = some f)
  (hpos : 0 < w) (hw : w ≤ 128) (x : U128) (amount : U64) :
  foldOp (widthNode op w) [x, word amount] = some (f x w (narrowed amount)) := by
  have hflags : (widthNode op w).type.isFlags = false := rfl
  have hwidth : ¬ (w = 0 ∨ w > 128) := by omega
  unfold takesAmount at h
  split at h <;> cases h <;>
    simp only [foldOp, hflags, widthNode_op, widthNode_bits, if_neg hwidth, Bool.false_eq_true,
      if_false, List.getD_cons_zero, List.getD_cons_succ, shiftAmount_word]

theorem amount_iff (env : Env)
  (h : takesAmount op = some f) (hw : w ≤ 128) {x y : BitVec w} (hx : f (ofBitVec a) w (narrowed amount) = ofBitVec x) :
  (applyOp env (widthNode op w) [ofBitVec a, word amount]).map .value =
    .ok (Answer.value (ofBitVec y)) ↔ x = y := by
  rw [applyOp_amount h, hx]
  exact value_eq_iff hw

end Exact

/-- Each operation, one after the other. -/
theorem run_iff (env : Env) {w : Nat} (hpos : 0 < w) (hw : w ≤ 128) (a b : BitVec w)
  (amount : U64) (op : WordOp) (hop : op.Fits w) :
  op.run env w (U128.ofBitVec a) (U128.ofBitVec b) amount = .ok (op.meaning a b amount) ↔
    op.Unharmed a amount := by
  have hvalue : ∀ {u v : U128}, u = v → (Except.ok (.value u) : Except Diag Answer) =
      .ok (.value v) := by
    rintro u _ rfl
    rfl
  cases op with
  | add => exact iff_of_true (hvalue (U128.add_ofBitVec hw a b)) trivial
  | sub => exact iff_of_true (hvalue (U128.sub_ofBitVec hw a b)) trivial
  | mul => exact iff_of_true (hvalue (U128.mulLow_ofBitVec hw a b)) trivial
  | divU => exact divides_iff (applyOp_divU env · a b) fun h => if_pos (by simpa using h)
  | divS => exact divides_iff (applyOp_divS env hpos · a b) fun h => if_pos (by simpa using h)
  | remU => exact divides_iff (applyOp_remU env · a b) fun h => if_pos (by simpa using h)
  | remS => exact divides_iff (applyOp_remS env hpos · a b) fun h => if_pos (by simpa using h)
  | shl =>
    have hrun := U128.shl_ofBitVec hw a (narrowed amount)
    exact (amount_iff env (show takesAmount .shl = _ from rfl) hw hrun).trans
      (shl_narrowed_iff hw a amount)
  | shrU =>
    have hrun := U128.shrU_ofBitVec hw a (narrowed amount)
    exact (amount_iff env (show takesAmount .shrU = _ from rfl) hw hrun).trans
      (shrU_narrowed_iff hw a amount)
  | shrS =>
    have hrun := U128.shrS_ofBitVec hpos hw a (narrowed amount)
    exact (amount_iff env (show takesAmount .shrS = _ from rfl) hw hrun).trans
      (shrS_narrowed_iff hw a amount)
  | rotR =>
    have hrun := U128.rotR_ofBitVec hpos hw a (narrowed amount)
    exact (amount_iff env (show takesAmount .rotR = _ from rfl) hw hrun).trans
      (rotR_narrowed_iff hpos a amount)
  | rotL =>
    have hrun := U128.rotL_ofBitVec hpos hw a (narrowed amount)
    exact (amount_iff env (show takesAmount .rotL = _ from rfl) hw hrun).trans
      (rotL_narrowed_iff hpos a amount)
  | extract offset width =>
    exact iff_of_true (hvalue (U128.extract_ofBitVec hw hop a offset)) trivial
  | insert offset field =>
    exact iff_of_true (hvalue (U128.insert_ofBitVec hw hop a offset field)) trivial
  | zext width => exact iff_of_true (hvalue (U128.zext_ofBitVec hop.1 hop.2 a)) trivial
  | sext width => exact iff_of_true (hvalue (U128.sext_ofBitVec hpos hop.1 hop.2 a)) trivial
  | cmpU => exact iff_of_true (congrArg _ (congrArg _ (U128.cmpU_ofBitVec hw a b))) trivial
  | cmpS => exact iff_of_true (congrArg _ (congrArg _ (U128.cmpS_ofBitVec hpos hw a b))) trivial

end WordOp

open WordOp in
/-- **The toolkit is bit vector arithmetic**, but for the amounts that the interpreter
narrows and the divisions that it refuses.  The constant folder gives what the
interpreter gives. -/
theorem toolkit_exact_iff (env : Env) {w : Nat} (hpos : 0 < w) (hw : w ≤ 128) (a b : BitVec w)
    (amount : U64) (op : WordOp) (hop : op.Fits w) :
    (op.run env w (U128.ofBitVec a) (U128.ofBitVec b) amount = .ok (op.meaning a b amount) ↔
        op.Unharmed a amount) ∧
      ∀ node f, takesAmount node = some f →
        foldOp (widthNode node w) [U128.ofBitVec a, word amount] =
          (applyOp env (widthNode node w) [U128.ofBitVec a, word amount]).toOption := by
  refine ⟨run_iff env hpos hw a b amount op hop, ?_⟩
  intro node f hf
  rw [foldOp_amount hf hpos hw, applyOp_amount hf]
  rfl

/-- A byte shifted by three, as both evaluators do. -/
theorem byte_shifted_by_three :
    WordOp.shl.run Env.idle 8 (U128.ofBitVec 5#8) (U128.ofBitVec 0#8) 3#64 =
        .ok (.value (U128.ofBitVec 40#8)) ∧
      foldOp (widthNode .shl 8) [U128.ofBitVec 5#8, word 3#64] = some (U128.ofBitVec 40#8) := by
  obtain ⟨hrun, hfold⟩ :=
    toolkit_exact_iff Env.idle (by decide) (by decide) 5#8 0#8 3#64 .shl trivial
  exact ⟨hrun.mpr (.inl (by decide)), hfold .shl _ rfl⟩

/-- One shifted by 2 ^ 32 stays one. -/
theorem shift_by_wide_amount :
    WordOp.shl.run Env.idle 64 (U128.ofBitVec 1#64) (U128.ofBitVec 0#64) (2#64 ^ 32) ≠
      .ok (WordOp.shl.meaning 1#64 0#64 (2#64 ^ 32)) := by
  have hharmed : ¬ (WordOp.shl).Unharmed 1#64 (2#64 ^ 32) := not_or.mpr ⟨by decide, by decide⟩
  exact (WordOp.run_iff Env.idle (by decide) (by decide) 1#64 0#64 (2#64 ^ 32) .shl trivial).not.mpr
    hharmed

end Xdec

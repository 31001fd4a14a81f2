import Xdec.SpecBlob
import Xdec.SpecEngine

/-!
# The integers of a spec

Seven opcodes of a body compute an integer from integers: the unary and binary
operators, and five functions on widths.  Each has a mathematical definition in the
numbers its operands denote, and its result should be that number modulo `2 ^ 64`.

Two of them can leave the host's arithmetic: the signed quotient that overflows, and a
pattern repeated beyond the word.  And widths and amounts are narrowed to 32 bits, which
a rotation notices unless the pattern repeats.  `executeInsn_exact` says exactly when an
executed instruction is right.
-/

namespace Xdec

/-- An instruction that computes an integer. -/
inductive IntegerInsn where
  | unary (op : Option IntOp)
  | binary (op : Option IntOp)
  | sExtInt | onesInt | highestBitInt | rorInt | replicateInt
deriving DecidableEq

namespace IntegerInsn

def ofInsn (insn : Insn) : Option IntegerInsn :=
  match insn.op with
  | .intUnary => some (.unary (IntOp.ofCode insn.aux))
  | .intBinary => some (.binary (IntOp.ofCode insn.aux))
  | .sExtInt => some .sExtInt
  | .onesInt => some .onesInt
  | .highestBitInt => some .highestBitInt
  | .rorInt => some .rorInt
  | .replicateInt => some .replicateInt
  | _ => none

/-- The operands, in the order they are read. -/
def reads (insn : Insn) : IntegerInsn → List U16
  | .unary _ | .onesInt | .highestBitInt => [insn.a]
  | .binary _ => [insn.a, insn.b]
  | .sExtInt => [insn.b, insn.a]
  | .rorInt | .replicateInt => [insn.a, insn.b, insn.c]

/-- What is computed of three operands. -/
def value (a b c : U64) : IntegerInsn → Option U64
  | .unary op => some (applyIntUnary op a)
  | .binary op => applyIntBinary op a b
  | .sExtInt => some (signExtend a (asUnsigned b))
  | .onesInt => some (lowMask (asUnsigned a))
  | .highestBitInt =>
    some (if a = 0#64 then ~~~0#64 else BitVec.ofNat 64 (63 - countLeadingZeros a 64))
  | .rorInt =>
    some (if asUnsigned c = 0 ∨ 64 < asUnsigned c then a
      else rotateRight a (asUnsigned c) (asUnsigned b))
  | .replicateInt => replicate a (asUnsigned b) (asUnsigned c)

/-! ## The definitions -/

def asNumber (p : Prop) [Decidable p] : Int := if p then 1 else 0

def unaryDefinition (a : U64) : Option IntOp → Option Int
  | some .negate => some (-a.toNat)
  | some .not => some (-a.toNat - 1)
  | some .logicalNot => some (asNumber (a.toNat = 0))
  | _ => none

/-- Signed quotients are cut towards zero, and a quotient by zero is zero. -/
def binaryDefinition (a b : U64) : Option IntOp → Option Int
  | some .add => some (a.toNat + b.toNat)
  | some .sub => some (a.toNat - b.toNat)
  | some .mul => some (a.toNat * b.toNat)
  | some .divU => some ((a.toNat / b.toNat : Nat) : Int)
  | some .divS => some (a.toInt.tdiv b.toInt)
  | some .remU => some (if b.toNat = 0 then 0 else ((a.toNat % b.toNat : Nat) : Int))
  | some .remS => some (if b.toInt = 0 then 0 else a.toInt.tmod b.toInt)
  | some .and => some ((a.toNat &&& b.toNat : Nat) : Int)
  | some .or => some ((a.toNat ||| b.toNat : Nat) : Int)
  | some .xor => some ((a.toNat ^^^ b.toNat : Nat) : Int)
  | some .shl => some (a.toNat * 2 ^ b.toNat)
  | some .shrU => some ((a.toNat / 2 ^ b.toNat : Nat) : Int)
  | some .shrS => some (a.toInt / 2 ^ b.toNat)
  | some .equal => some (asNumber (a.toNat = b.toNat))
  | some .notEqual => some (asNumber (a.toNat ≠ b.toNat))
  | some .lessU => some (asNumber (a.toNat < b.toNat))
  | some .lessEqualU => some (asNumber (a.toNat ≤ b.toNat))
  | some .lessS => some (asNumber (a.toInt < b.toInt))
  | some .lessEqualS => some (asNumber (a.toInt ≤ b.toInt))
  | some .greaterU => some (asNumber (b.toNat < a.toNat))
  | some .greaterEqualU => some (asNumber (b.toNat ≤ a.toNat))
  | some .greaterS => some (asNumber (b.toInt < a.toInt))
  | some .greaterEqualS => some (asNumber (b.toInt ≤ a.toInt))
  | some .logicalAnd => some (asNumber (a.toNat ≠ 0 ∧ b.toNat ≠ 0))
  | some .logicalOr => some (asNumber (a.toNat ≠ 0 ∨ b.toNat ≠ 0))
  | _ => none

/-- The number an instruction is defined to compute.  There is none for a byte that names
no operator, for a sign extension from no bits, and for an element or a rotation of no
bits or of more than a word. -/
def definition (a b c : U64) : IntegerInsn → Option Int
  | .unary op => unaryDefinition a op
  | .binary op => binaryDefinition a b op
  | .sExtInt => if b.toNat = 0 then none else some (a.setWidth b.toNat).toInt
  | .onesInt => some (2 ^ a.toNat - 1)
  | .highestBitInt => some (if a.toNat = 0 then -1 else (Nat.log2 a.toNat : Int))
  | .rorInt =>
    if c.toNat = 0 ∨ 64 < c.toNat then none
    else some (((a.setWidth c.toNat).rotateRight b.toNat).toNat : Int)
  | .replicateInt =>
    if b.toNat = 0 ∨ 64 < b.toNat then none
    else
      let copies := (c.toNat + b.toNat - 1) / b.toNat
      some ((((a.setWidth b.toNat).replicate copies).setWidth c.toNat).toNat : Int)

/-! ## When they are met -/

/-- The operation stays in the host's arithmetic. -/
def Defined (a b c : U64) : IntegerInsn → Prop
  | .binary (some .divS) | .binary (some .remS) =>
    ¬ (a.toInt = -2 ^ 63 ∧ b.toInt = -1)
  | .replicateInt =>
    asUnsigned b = 0 ∨ 64 < asUnsigned b ∨ (asUnsigned c - 1) / asUnsigned b * asUnsigned b < 64
  | _ => True

/-- The narrowing of a width or of an amount is not noticed. -/
def Narrows (a b c : U64) : IntegerInsn → Prop
  | .sExtInt =>
    b.toNat < 2 ^ 32 ∨ asUnsigned b = 0 ∨ 64 ≤ asUnsigned b ∨
      -2 ^ (asUnsigned b - 1) ≤ a.toInt ∧ a.toInt < 2 ^ (asUnsigned b - 1)
  | .onesInt => a.toNat < 64 ∨ 64 ≤ asUnsigned a
  | .rorInt =>
    c.toNat = 0 ∨ 64 < c.toNat ∨
      ∀ i < c.toNat, a.getLsbD i = a.getLsbD ((i + (b.toNat - asUnsigned b)) % c.toNat)
  | .replicateInt =>
    b.toNat = 0 ∨ 64 < b.toNat ∨
      ∀ i < 64, asUnsigned c ≤ i → i < c.toNat → a.getLsbD (i % b.toNat) = false
  | _ => True

/-- A value is the number defined, modulo `2 ^ 64`. -/
def Meets (a b c : U64) (i : IntegerInsn) (v : U64) : Prop :=
  ∀ n, i.definition a b c = some n → v = BitVec.ofInt 64 n

variable {a b c v : U64}

theorem asUnsigned_eq (a : U64) : asUnsigned a = a.toNat % 2 ^ 32 := BitVec.toNat_setWidth ..

theorem asUnsigned_of_lt (h : a.toNat < 2 ^ 32) : asUnsigned a = a.toNat := by
  rw [asUnsigned_eq, Nat.mod_eq_of_lt h]

theorem asInteger_eq {p : Prop} [Decidable p] {d : Bool} (h : d = true ↔ p) :
  asInteger d = BitVec.ofInt 64 (asNumber p) := by
  unfold asInteger asNumber
  by_cases hp : p
  · rw [if_pos hp, if_pos (h.mpr hp)]
    rfl
  · rw [if_neg hp, if_neg (fun hd => hp (h.mp hd))]
    rfl

theorem ofInt_toNat (v : U64) : BitVec.ofInt 64 (v.toNat : Int) = v := by
  rw [BitVec.ofInt_natCast, BitVec.ofNat_toNat, BitVec.setWidth_eq]

variable {n w i total : Nat}

theorem eq_ofInt_of_toNat (h : v.toNat = n) : v = BitVec.ofInt 64 (n : Int) := by
  rw [← h, ofInt_toNat]

theorem eq_ofInt_of_toInt {n : Int} (h : v.toInt = n) : v = BitVec.ofInt 64 n := by
  rw [← h, BitVec.ofInt_toInt]

theorem eq_ofInt_of_toInt_bmod {n : Int} (h : n.bmod (2 ^ 64) = v.toInt) :
  v = BitVec.ofInt 64 n := by
  refine BitVec.eq_of_toInt_eq ?_
  rw [BitVec.toInt_ofInt, h]

/-! ## Operators -/

theorem meets_unary (a b c : U64) (op : Option IntOp) :
  (IntegerInsn.unary op).Meets a b c (applyIntUnary op a) := by
  intro n hn
  rcases op with _ | op
  · cases hn
  cases op
  case negate =>
    obtain rfl := Option.some.inj hn
    rw [applyIntUnary, BitVec.ofInt_neg, ofInt_toNat, BitVec.neg_eq_not_add]
  case not =>
    obtain rfl := Option.some.inj hn
    rw [applyIntUnary, Int.sub_eq_add_neg, BitVec.ofInt_add, BitVec.ofInt_neg, ofInt_toNat,
      BitVec.neg_eq_not_add, BitVec.add_assoc]
    exact (BitVec.add_zero _).symm
  case logicalNot =>
    obtain rfl := Option.some.inj hn
    rw [← asInteger_eq (d := decide (a = 0#64)) (by rw [decide_eq_true_iff, BitVec.toNat_eq]; rfl)]
    simp only [applyIntUnary, asInteger, decide_eq_true_eq]
  all_goals cases hn

theorem overflows_iff :
  (a = 0x8000000000000000#64 ∧ b = ~~~0#64) ↔ a.toInt = -2 ^ 63 ∧ b.toInt = -1 := by
  rw [← BitVec.toInt_inj, ← BitVec.toInt_inj]
  rfl

theorem applyIntBinary_isSome_iff (a b c : U64) (op : Option IntOp) :
  (applyIntBinary op a b).isSome = true ↔ (IntegerInsn.binary op).Defined a b c := by
  rcases op with _ | op
  · exact iff_of_true rfl trivial
  cases op
  case divS | remS =>
    simp only [applyIntBinary, Defined, overflows_iff]
    by_cases hzero : b = 0#64
    · rw [if_pos hzero, hzero]
      exact iff_of_true rfl fun h => absurd h.2 (by decide)
    · rw [if_neg hzero]
      split
      · rename_i h
        exact iff_of_false (by decide) (not_not_intro h)
      · rename_i h
        exact iff_of_true rfl h
  all_goals exact iff_of_true rfl trivial

theorem toInt_eq_zero_iff : b.toInt = 0 ↔ b = 0#64 := by
  rw [← BitVec.toInt_inj, BitVec.toInt_zero]

theorem toNat_eq_zero_iff : b.toNat = 0 ↔ b = 0#64 := by
  rw [BitVec.toNat_eq, BitVec.toNat_ofNat]

theorem meets_divS (h : applyIntBinary (some .divS) a b = some v) :
  v = BitVec.ofInt 64 (a.toInt.tdiv b.toInt) := by
  simp only [applyIntBinary] at h
  split at h
  · rename_i hzero
    obtain rfl := Option.some.inj h
    rw [hzero, BitVec.toInt_zero, Int.tdiv_zero]
    rfl
  · split at h
    · cases h
    · rename_i hover
      obtain rfl := Option.some.inj h
      refine eq_ofInt_of_toInt (BitVec.toInt_sdiv_of_ne_or_ne a b ?_)
      exact not_and_or.mp hover

theorem meets_remS (h : applyIntBinary (some .remS) a b = some v) :
  v = BitVec.ofInt 64 (if b.toInt = 0 then 0 else a.toInt.tmod b.toInt) := by
  simp only [applyIntBinary] at h
  split at h
  · rename_i hzero
    obtain rfl := Option.some.inj h
    rw [if_pos (toInt_eq_zero_iff.mpr hzero)]
    rfl
  · rename_i hzero
    split at h
    · cases h
    · obtain rfl := Option.some.inj h
      rw [if_neg (fun hb => hzero (toInt_eq_zero_iff.mp hb))]
      exact eq_ofInt_of_toInt (BitVec.toInt_srem a b)

/-- A shift by a word or more leaves nothing. -/
theorem meets_shl :
  (if 64#64 ≤ b then 0#64 else a <<< b.toNat) = BitVec.ofInt 64 (a.toNat * 2 ^ b.toNat) := by
  have hcast : ((a.toNat : Int) * 2 ^ b.toNat) = ((a.toNat * 2 ^ b.toNat : Nat) : Int) := by
    push_cast
    rfl
  rw [hcast, BitVec.ofInt_natCast]
  refine BitVec.eq_of_toNat_eq ?_
  rw [BitVec.toNat_ofNat]
  split
  · rename_i h
    have hle : 64 ≤ b.toNat := h
    rw [Nat.mod_eq_zero_of_dvd (Dvd.dvd.mul_left (pow_dvd_pow 2 hle) _)]
    rfl
  · rw [BitVec.toNat_shiftLeft, Nat.shiftLeft_eq]

theorem meets_shrU :
  (if 64#64 ≤ b then 0#64 else a >>> b.toNat) =
    BitVec.ofInt 64 ((a.toNat / 2 ^ b.toNat : Nat) : Int) := by
  refine eq_ofInt_of_toNat ?_
  split
  · rename_i h
    have hle : 2 ^ 64 ≤ 2 ^ b.toNat := Nat.pow_le_pow_right (by decide) h
    rw [Nat.div_eq_of_lt (Nat.lt_of_lt_of_le a.isLt hle)]
    rfl
  · rw [BitVec.toNat_ushiftRight, Nat.shiftRight_eq_div_pow]

theorem meets_shrS :
  (if 64#64 ≤ b then (if a.msb then ~~~0#64 else 0#64) else a.sshiftRight b.toNat) =
    BitVec.ofInt 64 (a.toInt / 2 ^ b.toNat) := by
  have hshift : a.toInt / 2 ^ b.toNat = a.toInt >>> b.toNat := by
    rw [Int.shiftRight_eq_div_pow]
    push_cast
    rfl
  rw [hshift, ← BitVec.sshiftRight_eq]
  split
  · rename_i h
    have hle : 64 ≤ b.toNat := h
    refine BitVec.eq_of_getLsbD_eq fun i hi => ?_
    have hout : ¬ b.toNat + i < 64 := by omega
    have hin : ¬ 64 ≤ i := by omega
    rw [BitVec.getLsbD_sshiftRight, if_neg hout, decide_eq_false hin]
    cases a.msb
    · exact BitVec.getLsbD_zero
    · rw [if_pos rfl, BitVec.getLsbD_not, BitVec.getLsbD_zero, decide_eq_true hi]
      rfl
  · rfl

theorem meets_binary {op : Option IntOp} (h : applyIntBinary op a b = some v) :
  (IntegerInsn.binary op).Meets a b c v := by
  intro n hn
  rcases op with _ | op
  · cases hn
  cases op
  case divS =>
    obtain rfl := Option.some.inj hn
    exact meets_divS h
  case remS =>
    obtain rfl := Option.some.inj hn
    exact meets_remS h
  case negate | not | logicalNot => cases hn
  all_goals
    obtain rfl := Option.some.inj hn
    obtain rfl := Option.some.inj h
  case add => rw [BitVec.ofInt_add, ofInt_toNat, ofInt_toNat]
  case sub => rw [Int.sub_eq_add_neg, BitVec.ofInt_add, BitVec.ofInt_neg, ofInt_toNat,
    ofInt_toNat, BitVec.sub_eq_add_neg]
  case mul => rw [BitVec.ofInt_mul, ofInt_toNat, ofInt_toNat]
  case divU =>
    refine eq_ofInt_of_toNat ?_
    split
    · rename_i hzero
      rw [hzero, BitVec.toNat_zero, Nat.div_zero]
    · exact BitVec.toNat_udiv
  case remU =>
    split
    · rename_i hzero
      rw [if_pos (toNat_eq_zero_iff.mpr hzero)]
      rfl
    · rename_i hzero
      rw [if_neg (fun hb => hzero (toNat_eq_zero_iff.mp hb))]
      exact eq_ofInt_of_toNat BitVec.toNat_umod
  case and => exact eq_ofInt_of_toNat (BitVec.toNat_and ..)
  case or => exact eq_ofInt_of_toNat (BitVec.toNat_or ..)
  case xor => exact eq_ofInt_of_toNat (BitVec.toNat_xor ..)
  case shl => exact meets_shl
  case shrU => exact meets_shrU
  case shrS => exact meets_shrS
  all_goals refine asInteger_eq ?_
  case equal => rw [beq_iff_eq, BitVec.toNat_eq]
  case notEqual => rw [bne_iff_ne, ne_eq, BitVec.toNat_eq]
  case lessU | greaterU => exact BitVec.ult_iff_lt
  case lessEqualU | greaterEqualU => exact BitVec.ule_iff_le
  case lessS | greaterS => exact BitVec.slt_iff_toInt_lt
  case lessEqualS | greaterEqualS => exact BitVec.sle_iff_toInt_le
  case logicalAnd =>
    rw [Bool.and_eq_true, bne_iff_ne, bne_iff_ne, ne_eq, ne_eq, ne_eq, ne_eq, toNat_eq_zero_iff,
      toNat_eq_zero_iff]
  case logicalOr =>
    rw [Bool.or_eq_true, bne_iff_ne, bne_iff_ne, ne_eq, ne_eq, ne_eq, ne_eq, toNat_eq_zero_iff,
      toNat_eq_zero_iff]

/-! ## Functions on widths -/

theorem signExtend_eq (a : U64) (hw : 0 < w) :
  signExtend a w = BitVec.ofInt 64 (a.setWidth w).toInt := by
  rw [BitVec.toInt_setWidth]
  by_cases hwide : 64 ≤ w
  · have hdvd : 2 ^ 64 ∣ 2 ^ w := pow_dvd_pow 2 hwide
    rw [signExtend, if_pos (.inr hwide)]
    refine eq_ofInt_of_toInt_bmod ?_
    rw [Int.bmod_bmod_of_dvd hdvd, BitVec.toInt_eq_toNat_bmod]
  · obtain ⟨k, rfl⟩ : ∃ k, w = k + 1 := ⟨w - 1, by omega⟩
    have hnarrow : ¬ (k + 1 = 0 ∨ k + 1 ≥ 64) := by omega
    have hmask : signExtend a (k + 1) = signExtend (zeroExtend a (k + 1)) (k + 1) := by
      simp only [signExtend, zeroExtend, if_neg hnarrow, BitVec.and_assoc, BitVec.and_self]
    have hvalue := zeroExtend_toNat a (k + 1)
    have hlt := Nat.mod_lt a.toNat (Nat.two_pow_pos (k + 1))
    have hpow : 2 ^ (k + 1) ≤ 2 ^ 63 := Nat.pow_le_pow_right (by decide) (by omega)
    have hdouble : 2 ^ (k + 1) = 2 * 2 ^ k := by rw [Nat.pow_succ, Nat.mul_comm]
    refine BitVec.eq_of_toNat_eq ?_
    rw [hmask, signExtend_toNat (by omega) (by omega) (by rw [hvalue]; exact hlt), hvalue,
      BitVec.toNat_ofInt, Int.bmod_def, Nat.add_sub_cancel]
    generalize hr : a.toNat % 2 ^ (k + 1) = r at hlt ⊢
    have hcast : (a.toNat : Int) % ((2 ^ (k + 1) : Nat) : Int) = r := by
      rw [← Int.natCast_emod, hr]
    rw [hcast, hdouble]
    generalize 2 ^ k = half at *
    split <;> split <;> omega

/-- Extending from a word or more changes nothing. -/
theorem ofInt_setWidth_of_le (hw : 64 ≤ w) :
  BitVec.ofInt 64 (a.setWidth w).toInt = a := by
  rw [← signExtend_eq a (by omega), signExtend, if_pos (.inr hw)]

/-- A number that fits in fewer bits is extended from them. -/
theorem ofInt_setWidth_eq_iff (hpos : 0 < w) (hw : w < 64) :
  BitVec.ofInt 64 (a.setWidth w).toInt = a ↔
    -2 ^ (w - 1) ≤ a.toInt ∧ a.toInt < 2 ^ (w - 1) := by
  obtain ⟨k, rfl⟩ : ∃ k, w = k + 1 := ⟨w - 1, by omega⟩
  have hpow : 2 ^ (k + 1) ≤ 2 ^ 63 := Nat.pow_le_pow_right (by decide) (by omega)
  have hdouble : 2 ^ (k + 1) = 2 * 2 ^ k := by rw [Nat.pow_succ, Nat.mul_comm]
  have hdvd : 2 ^ (k + 1) ∣ 2 ^ 64 := pow_dvd_pow 2 (by omega)
  have hcut : (a.setWidth (k + 1)).toInt = a.toInt.bmod (2 ^ (k + 1)) := by
    rw [BitVec.toInt_setWidth, BitVec.toInt_eq_toNat_bmod, Int.bmod_bmod_of_dvd hdvd]
  have hlow := Int.le_bmod (x := a.toInt) (Nat.two_pow_pos (k + 1))
  have hhigh := Int.bmod_lt (x := a.toInt) (Nat.two_pow_pos (k + 1))
  have hcast : ((2 ^ (k + 1) : Nat) : Int) = 2 * 2 ^ k := by
    rw [hdouble]
    push_cast
    rfl
  have hsmall : (a.toInt.bmod (2 ^ (k + 1))).bmod (2 ^ 64) = a.toInt.bmod (2 ^ (k + 1)) := by
    refine Int.bmod_eq_of_le ?_ ?_ <;> omega
  rw [← BitVec.toInt_inj, BitVec.toInt_ofInt, hcut, hsmall, Nat.add_sub_cancel]
  constructor
  · intro h
    rw [h, hcast] at hlow hhigh
    omega
  · rintro ⟨hge, hlt⟩
    refine Int.bmod_eq_of_le ?_ ?_ <;> rw [hcast] <;> omega

theorem meets_sExtInt (a b c : U64) :
  IntegerInsn.sExtInt.Meets a b c (signExtend a (asUnsigned b)) ↔
    IntegerInsn.sExtInt.Narrows a b c := by
  have hmeets : IntegerInsn.sExtInt.Meets a b c (signExtend a (asUnsigned b)) ↔
      (b.toNat ≠ 0 → signExtend a (asUnsigned b) = BitVec.ofInt 64 (a.setWidth b.toNat).toInt) := by
    unfold Meets definition
    by_cases hzero : b.toNat = 0
    · simp [hzero]
    · simp [hzero]
  rw [hmeets, Narrows]
  by_cases hsmall : b.toNat < 2 ^ 32
  · refine iff_of_true (fun hpos => ?_) (.inl hsmall)
    rw [asUnsigned_of_lt hsmall, signExtend_eq a (Nat.pos_of_ne_zero hpos)]
  · have hfull : BitVec.ofInt 64 (a.setWidth b.toNat).toInt = a := ofInt_setWidth_of_le (by omega)
    have hpos : b.toNat ≠ 0 := by omega
    rw [hfull]
    by_cases hguard : asUnsigned b = 0 ∨ 64 ≤ asUnsigned b
    · refine iff_of_true (fun _ => if_pos hguard) (.inr ?_)
      tauto
    · obtain ⟨hnonzero, hlt⟩ := not_or.mp hguard
      rw [signExtend_eq a (Nat.pos_of_ne_zero hnonzero),
        ofInt_setWidth_eq_iff (Nat.pos_of_ne_zero hnonzero) (Nat.lt_of_not_le hlt)]
      tauto

theorem meets_onesInt (a b c : U64) :
  IntegerInsn.onesInt.Meets a b c (lowMask (asUnsigned a)) ↔
    IntegerInsn.onesInt.Narrows a b c := by
  have hcast : ((2 : Int) ^ a.toNat - 1) = ((2 ^ a.toNat - 1 : Nat) : Int) := by
    rw [Nat.cast_sub (Nat.two_pow_pos a.toNat)]
    push_cast
    rfl
  have hmeets : IntegerInsn.onesInt.Meets a b c (lowMask (asUnsigned a)) ↔
      2 ^ min (asUnsigned a) 64 - 1 = (2 ^ a.toNat - 1) % 2 ^ 64 := by
    unfold Meets definition
    simp only [Option.some.injEq, forall_eq']
    rw [hcast, BitVec.ofInt_natCast, ← BitVec.toNat_inj, lowMask_toNat, BitVec.toNat_ofNat]
  rw [hmeets, Narrows]
  by_cases hsmall : a.toNat < 64
  · refine iff_of_true ?_ (.inl hsmall)
    have hlt : 2 ^ a.toNat < 2 ^ 64 := Nat.pow_lt_pow_right (by decide) hsmall
    rw [asUnsigned_of_lt (by omega), Nat.min_eq_left (by omega), Nat.mod_eq_of_lt (by omega)]
  · have hfull : (2 ^ a.toNat - 1) % 2 ^ 64 = 2 ^ 64 - 1 := by
      obtain ⟨k, hk⟩ := pow_dvd_pow 2 (show 64 ≤ a.toNat by omega)
      have hpos := Nat.two_pow_pos a.toNat
      omega
    rw [hfull]
    by_cases hlarge : 64 ≤ asUnsigned a
    · rw [Nat.min_eq_right hlarge]
      exact iff_of_true rfl (.inr hlarge)
    · have hlt : 2 ^ asUnsigned a < 2 ^ 64 := Nat.pow_lt_pow_right (by decide) (by omega)
      have hpos := Nat.two_pow_pos (asUnsigned a)
      rw [Nat.min_eq_left (by omega)]
      refine iff_of_false (by omega) ?_
      tauto

theorem meets_highestBitInt (a b c : U64) :
  IntegerInsn.highestBitInt.Meets a b c
    (if a = 0#64 then ~~~0#64 else BitVec.ofNat 64 (63 - countLeadingZeros a 64)) := by
  intro n hn
  obtain rfl := Option.some.inj hn
  by_cases hzero : a = 0#64
  · rw [if_pos hzero, if_pos (toNat_eq_zero_iff.mpr hzero)]
    rfl
  · have hfull : zeroExtend a 64 = a := zeroExtend_of_le a.isLt
    have hcount : countLeadingZeros a 64 = a.clz.toNat := by
      rw [countLeadingZeros, if_neg (by decide), hfull]
      exact if_neg hzero
    have hlow := BitVec.two_pow_sub_clz_le_toNat_of_ne_zero (by decide) hzero
    have hhigh := BitVec.toNat_lt_two_pow_sub_clz (x := a)
    have hlt : a.clz.toNat < 64 := BitVec.clz_lt_iff_ne_zero.mpr hzero
    have hlog : Nat.log2 a.toNat = 63 - a.clz.toNat := by
      refine (Nat.log2_eq_iff (fun h => hzero (toNat_eq_zero_iff.mp h))).mpr ⟨hlow, ?_⟩
      rwa [show 63 - a.clz.toNat + 1 = 64 - a.clz.toNat by omega]
    rw [if_neg hzero, if_neg (fun h => hzero (toNat_eq_zero_iff.mp h)), hcount, hlog]
    rfl

/-! ## Rotations -/

theorem add_mod_of_lt (hi : i < w) :
  (i + n) % w = if i < w - n % w then n % w + i else i - (w - n % w) := by
  have hlt := Nat.mod_lt n (Nat.zero_lt_of_lt hi)
  rw [Nat.add_mod, Nat.mod_eq_of_lt hi]
  split
  · rw [Nat.mod_eq_of_lt (by omega), Nat.add_comm]
  · rw [Nat.mod_eq_sub_mod (by omega), Nat.mod_eq_of_lt (by omega)]
    omega

theorem getLsbD_rotateRight_setWidth (hi : i < w) :
  ((a.setWidth w).rotateRight n).getLsbD i = a.getLsbD ((i + n) % w) := by
  have hlt := Nat.mod_lt n (Nat.zero_lt_of_lt hi)
  rw [BitVec.getLsbD_rotateRight, add_mod_of_lt hi]
  by_cases hlow : i < w - n % w
  · rw [if_pos hlow, decide_eq_true hlow, cond_true, BitVec.getLsbD_setWidth,
      decide_eq_true (by omega), Bool.true_and]
  · rw [if_neg hlow, decide_eq_false hlow, cond_false, BitVec.getLsbD_setWidth,
      decide_eq_true hi, decide_eq_true (by omega), Bool.true_and, Bool.true_and]

theorem getLsbD_zeroExtend :
  (zeroExtend a w).getLsbD i = (decide (i < w) && a.getLsbD i) := by
  rw [← BitVec.testBit_toNat, zeroExtend_toNat, Nat.testBit_mod_two_pow, BitVec.testBit_toNat]

theorem getLsbD_rotateRight (hw : w ≤ 64) (hi : i < w) :
  (Xdec.rotateRight a w n).getLsbD i = a.getLsbD ((i + n) % w) := by
  have hlt := Nat.mod_lt n (Nat.zero_lt_of_lt hi)
  have hpos : w ≠ 0 := by omega
  rw [Xdec.rotateRight, if_neg hpos, add_mod_of_lt hi]
  dsimp only
  by_cases hwhole : n % w = 0
  · rw [if_pos hwhole, if_pos (by omega), getLsbD_zeroExtend, decide_eq_true hi, hwhole,
      Nat.zero_add, Bool.true_and]
  · rw [if_neg hwhole, getLsbD_zeroExtend, decide_eq_true hi, Bool.true_and, BitVec.getLsbD_or,
      BitVec.getLsbD_ushiftRight, BitVec.getLsbD_shiftLeft, getLsbD_zeroExtend,
      getLsbD_zeroExtend, decide_eq_true (show i < 64 by omega), Bool.true_and]
    by_cases hlow : i < w - n % w
    · rw [if_pos hlow, decide_eq_true hlow, decide_eq_true (show n % w + i < w by omega)]
      simp
    · rw [if_neg hlow, decide_eq_false hlow, decide_eq_false (show ¬ n % w + i < w by omega),
        decide_eq_true (show i - (w - n % w) < w by omega)]
      simp

theorem getLsbD_rotateRight_of_le (hi : w ≤ i) :
  (Xdec.rotateRight a w n).getLsbD i = false := by
  unfold Xdec.rotateRight
  split
  · exact BitVec.getLsbD_zero
  · dsimp only
    split <;> rw [getLsbD_zeroExtend, decide_eq_false (by omega), Bool.false_and]

/-- Two rotations agree where the pattern repeats after the difference. -/
theorem rotateRight_eq_iff {d : Nat} (hpos : 0 < w) (hw : w ≤ 64) :
  Xdec.rotateRight a w n = ((a.setWidth w).rotateRight (n + d)).setWidth 64 ↔
    ∀ i < w, a.getLsbD i = a.getLsbD ((i + d) % w) := by
  have hbits : Xdec.rotateRight a w n = ((a.setWidth w).rotateRight (n + d)).setWidth 64 ↔
      ∀ i < w, a.getLsbD ((i + n) % w) = a.getLsbD ((i + (n + d)) % w) := by
    constructor
    · intro h i hi
      have hbit := congrArg (BitVec.getLsbD · i) h
      rwa [getLsbD_rotateRight hw hi, BitVec.getLsbD_setWidth, decide_eq_true (by omega),
        Bool.true_and, getLsbD_rotateRight_setWidth hi] at hbit
    · intro h
      refine BitVec.eq_of_getLsbD_eq fun i hi => ?_
      rw [BitVec.getLsbD_setWidth, decide_eq_true hi, Bool.true_and]
      by_cases hin : i < w
      · rw [getLsbD_rotateRight hw hin, getLsbD_rotateRight_setWidth hin, h i hin]
      · rw [getLsbD_rotateRight_of_le (by omega), BitVec.getLsbD_of_ge _ _ (by omega)]
  rw [hbits]
  constructor
  · intro h i hi
    -- The bit that the rotation moves to this place.
    have hlt := Nat.mod_lt n hpos
    have hback := h ((i + (w - n % w)) % w) (Nat.mod_lt _ hpos)
    have hturn : (i + (w - n % w) + n) % w = i := by
      have hsplit := Nat.div_add_mod n w
      rw [show i + (w - n % w) + n = i + w * (n / w + 1) by rw [Nat.mul_add]; omega,
        Nat.add_mul_mod_self_left, Nat.mod_eq_of_lt hi]
    have hfar : (i + (w - n % w) + (n + d)) % w = (i + d) % w := by
      rw [← Nat.add_assoc, Nat.add_mod, hturn, Nat.add_mod_mod]
    rwa [Nat.mod_add_mod, Nat.mod_add_mod, hturn, hfar] at hback
  · intro h i hi
    have hnext := h ((i + n) % w) (Nat.mod_lt _ hpos)
    rwa [Nat.mod_add_mod, Nat.add_assoc] at hnext

theorem meets_rorInt (a b c : U64) :
  IntegerInsn.rorInt.Meets a b c
      (if asUnsigned c = 0 ∨ 64 < asUnsigned c then a
        else Xdec.rotateRight a (asUnsigned c) (asUnsigned b)) ↔
    IntegerInsn.rorInt.Narrows a b c := by
  by_cases hguard : c.toNat = 0 ∨ 64 < c.toNat
  · refine iff_of_true (fun n hn => ?_) (hguard.imp_right .inl)
    simp only [definition, if_pos hguard] at hn
    cases hn
  · obtain ⟨hpos, hle⟩ := not_or.mp hguard
    have hc : asUnsigned c = c.toNat := asUnsigned_of_lt (by omega)
    have hb : b.toNat = asUnsigned b + (b.toNat - asUnsigned b) := by
      have hmod := Nat.mod_le b.toNat (2 ^ 32)
      rw [asUnsigned_eq]
      omega
    have hword : ((a.setWidth c.toNat).rotateRight b.toNat).toNat < 2 ^ 64 :=
      Nat.lt_of_lt_of_le (BitVec.isLt _) (Nat.pow_le_pow_right (by decide) (by omega))
    unfold Meets definition Narrows
    simp only [hc, if_neg hguard, Option.some.injEq, forall_eq']
    rw [BitVec.ofInt_natCast, BitVec.ofNat_toNat]
    have hiff := rotateRight_eq_iff (a := a) (n := asUnsigned b) (d := b.toNat - asUnsigned b)
      (Nat.pos_of_ne_zero hpos) (Nat.le_of_not_lt hle)
    rw [← hb] at hiff
    rw [hiff]
    tauto

/-! ## Repeated patterns -/

theorem getLsbD_replicateElement {element : U64} (hpos : 0 < w)
  (helement : ∀ i, w ≤ i → element.getLsbD i = false) (n : Nat) (hi : i < 64) :
  (replicateElement element w n).getLsbD i = (decide (i < w * n) && element.getLsbD (i % w)) := by
  induction n with
  | zero => rw [replicateElement, BitVec.getLsbD_zero, Nat.mul_zero, decide_eq_false (by omega),
      Bool.false_and]
  | succ n ih =>
    rw [replicateElement, BitVec.getLsbD_or, ih, BitVec.getLsbD_shiftLeft, decide_eq_true hi,
      Bool.true_and, Nat.mul_comm n w, Nat.mul_succ]
    by_cases hlow : i < w * n
    · rw [decide_eq_true hlow, decide_eq_true (show i < w * n + w by omega)]
      simp
    · rw [decide_eq_false hlow]
      by_cases hin : i < w * n + w
      · have hplace : i % w = i - w * n := by
          rw [← Nat.sub_mul_mod (k := n) (by rwa [Nat.mul_comm, ← Nat.not_lt, Nat.mul_comm]),
            Nat.mod_eq_of_lt (by omega)]
        rw [hplace, decide_eq_true hin]
        simp
      · rw [decide_eq_false hin, helement (i - w * n) (by omega)]
        simp

theorem lt_mul_copies (hpos : 0 < w) (hi : i < total) :
  i < w * ((total + w - 1) / w) := by
  have hsplit := Nat.div_add_mod (total + w - 1) w
  have hlt := Nat.mod_lt (total + w - 1) hpos
  omega

/-- The bits of a pattern repeated to a width. -/
theorem replicate_eq_some (hpos : 0 < w) (hw : w ≤ 64)
  (h : replicate a w total = some v) (hi : i < 64) :
  v.getLsbD i = (decide (i < total) && a.getLsbD (i % w)) := by
  have hguard : ¬ (w = 0 ∨ 64 < w) := by omega
  rw [replicate, if_neg hguard] at h
  dsimp only at h
  split at h
  · cases h
  · obtain rfl := Option.some.inj h
    have hplace := Nat.mod_lt i hpos
    rw [getLsbD_zeroExtend, getLsbD_replicateElement hpos (fun j hj => by
      rw [getLsbD_zeroExtend, decide_eq_false (by omega), Bool.false_and]) _ hi,
      getLsbD_zeroExtend, decide_eq_true hplace, Bool.true_and]
    by_cases htotal : i < total
    · rw [decide_eq_true (lt_mul_copies hpos htotal), Bool.true_and]
    · rw [decide_eq_false htotal, Bool.false_and, Bool.false_and]

theorem last_shift (hpos : 0 < w) :
  ((total + w - 1) / w - 1) * w = (total - 1) / w * w := by
  rcases Nat.eq_zero_or_pos total with rfl | htotal
  · rw [Nat.zero_add, Nat.div_eq_of_lt (by omega), Nat.zero_sub, Nat.zero_div]
  · rw [show total + w - 1 = total - 1 + w by omega, Nat.add_div_right _ hpos, Nat.succ_sub_one]

theorem replicate_isSome_iff (a b c : U64) :
  (replicate a (asUnsigned b) (asUnsigned c)).isSome = true ↔
    IntegerInsn.replicateInt.Defined a b c := by
  unfold replicate Defined
  by_cases hguard : asUnsigned b = 0 ∨ 64 < asUnsigned b
  · rw [if_pos hguard]
    exact iff_of_true rfl (by tauto)
  · rw [if_neg hguard]
    dsimp only
    rw [last_shift (by omega)]
    split
    · rename_i hpast
      refine iff_of_false (by decide) ?_
      have hnot := Nat.not_lt.mpr hpast
      tauto
    · rename_i hpast
      exact iff_of_true rfl (.inr (.inr (Nat.lt_of_not_le hpast)))

theorem meets_replicateInt (h : replicate a (asUnsigned b) (asUnsigned c) = some v) :
  IntegerInsn.replicateInt.Meets a b c v ↔ IntegerInsn.replicateInt.Narrows a b c := by
  by_cases hguard : b.toNat = 0 ∨ 64 < b.toNat
  · refine iff_of_true (fun n hn => ?_) (hguard.imp_right .inl)
    simp only [definition, if_pos hguard] at hn
    cases hn
  · obtain ⟨hpos, hle⟩ := not_or.mp hguard
    have hpos' := Nat.pos_of_ne_zero hpos
    have hb : asUnsigned b = b.toNat := asUnsigned_of_lt (by omega)
    have hnarrow : asUnsigned c ≤ c.toNat := by
      rw [asUnsigned_eq]
      exact Nat.mod_le ..
    rw [hb] at h
    unfold Meets definition Narrows
    simp only [if_neg hguard, Option.some.injEq, forall_eq']
    rw [BitVec.ofInt_natCast, BitVec.ofNat_toNat]
    have hbits : ∀ i < 64, ((((a.setWidth b.toNat).replicate
        ((c.toNat + b.toNat - 1) / b.toNat)).setWidth c.toNat).setWidth 64).getLsbD i =
          (decide (i < c.toNat) && a.getLsbD (i % b.toNat)) := by
      intro i hi
      have hplace := Nat.mod_lt i hpos'
      rw [BitVec.getLsbD_setWidth, BitVec.getLsbD_setWidth, BitVec.getLsbD_replicate,
        BitVec.getLsbD_setWidth, decide_eq_true hi, decide_eq_true hplace, Bool.true_and,
        Bool.true_and]
      by_cases htotal : i < c.toNat
      · rw [decide_eq_true (lt_mul_copies hpos' htotal), Bool.true_and]
      · rw [decide_eq_false htotal, Bool.false_and, Bool.false_and]
    constructor
    · intro heq
      refine .inr (.inr fun i hi hlow hhigh => ?_)
      have hbit := congrArg (BitVec.getLsbD · i) heq
      rw [replicate_eq_some hpos' (by omega) h hi, hbits i hi, decide_eq_false (by omega),
        decide_eq_true hhigh, Bool.false_and, Bool.true_and] at hbit
      exact hbit.symm
    · rintro (hzero | hlarge | hzeros)
      · exact absurd hzero hpos
      · exact absurd hlarge hle
      · refine BitVec.eq_of_getLsbD_eq fun i hi => ?_
        rw [replicate_eq_some hpos' (by omega) h hi, hbits i hi]
        by_cases hlow : i < asUnsigned c
        · rw [decide_eq_true hlow, decide_eq_true (show i < c.toNat by omega)]
        · by_cases hhigh : i < c.toNat
          · rw [hzeros i hi (by omega) hhigh, Bool.and_false, Bool.and_false]
          · rw [decide_eq_false hlow, decide_eq_false hhigh]

/-! ## All of them -/

theorem value_isSome_iff (a b c : U64) (i : IntegerInsn) :
  (i.value a b c).isSome = true ↔ i.Defined a b c := by
  cases i with
  | binary op => exact applyIntBinary_isSome_iff a b c op
  | replicateInt => exact replicate_isSome_iff a b c
  | unary | sExtInt | onesInt | highestBitInt | rorInt => exact iff_of_true rfl trivial

/-- A value is the number defined where the narrowing is not noticed. -/
theorem meets_iff_narrows {i : IntegerInsn} (h : i.value a b c = some v) :
  i.Meets a b c v ↔ i.Narrows a b c := by
  cases i with
  | unary op =>
    obtain rfl := Option.some.inj h
    exact iff_of_true (meets_unary a b c op) trivial
  | binary op => exact iff_of_true (meets_binary h) trivial
  | sExtInt =>
    obtain rfl := Option.some.inj h
    exact meets_sExtInt a b c
  | onesInt =>
    obtain rfl := Option.some.inj h
    exact meets_onesInt a b c
  | highestBitInt =>
    obtain rfl := Option.some.inj h
    exact iff_of_true (meets_highestBitInt a b c) trivial
  | rorInt =>
    obtain rfl := Option.some.inj h
    exact meets_rorInt a b c
  | replicateInt => exact meets_replicateInt h

end IntegerInsn

/-! ## Executed instructions -/

namespace SpecInterpreter

open Fallible

variable {F : Type} (it : SpecInterpreter F)

/-- The integer that a slot reads as. -/
def integerAt (base : Nat) (index : U16) (m : SpecMachine F) : U64 :=
  (if outsideFrame base index m then m.scratch
    else m.slots.getD (base + index.toNat) .unset).integer

/-- The machine after a slot is named: a slot outside the frame is reported. -/
def named (base : Nat) (index : U16) (m : SpecMachine F) : SpecMachine F :=
  if outsideFrame base index m then
    (it.setError "spec bytecode names a slot outside its frame" m).2
  else m

def namedAll (base : Nat) (indices : List U16) (m : SpecMachine F) : SpecMachine F :=
  indices.foldl (fun m index => it.named base index m) m

def putInteger (base : Nat) (index : U16) (value : U64) (m : SpecMachine F) : SpecMachine F :=
  if outsideFrame base index m then { m with scratch := { m.scratch with integer := value } }
  else
    { m with slots := m.slots.modify (base + index.toNat) fun s => { s with integer := value } }

variable {it} {base : Nat} {m : SpecMachine F}

theorem setError_fields (message : String) (m : SpecMachine F) :
  (it.setError message m).2.slots = m.slots ∧ (it.setError message m).2.scratch = m.scratch ∧
    (it.setError message m).2.error.isSome = true := by
  cases herror : m.error <;> simp [setError, herror]

theorem named_fields (index : U16) :
  (it.named base index m).slots = m.slots ∧ (it.named base index m).scratch = m.scratch ∧
    ((it.named base index m).error.isSome = true ↔
      outsideFrame base index m = true ∨ m.error.isSome = true) := by
  unfold named
  split
  · rename_i h
    obtain ⟨hslots, hscratch, herror⟩ :=
      @setError_fields F it "spec bytecode names a slot outside its frame" m
    exact ⟨hslots, hscratch, iff_of_true herror (.inl h)⟩
  · rename_i h
    exact ⟨rfl, rfl, ⟨.inr, fun h' => h'.resolve_left h⟩⟩

theorem namedAll_fields (indices : List U16) :
  (it.namedAll base indices m).slots = m.slots ∧
    (it.namedAll base indices m).scratch = m.scratch ∧
    ((it.namedAll base indices m).error.isSome = true ↔
      (∃ index ∈ indices, outsideFrame base index m = true) ∨ m.error.isSome = true) := by
  induction indices generalizing m with
  | nil => simp [namedAll]
  | cons index rest ih =>
    obtain ⟨hslots, hscratch, herror⟩ := @named_fields F it base m index
    obtain ⟨hslots', hscratch', herror'⟩ := ih (m := it.named base index m)
    have hframe : ∀ other : U16,
        outsideFrame base other (it.named base index m) = outsideFrame base other m := by
      intro other
      rw [outsideFrame, outsideFrame, hslots]
    refine ⟨hslots'.trans hslots, hscratch'.trans hscratch, ?_⟩
    rw [namedAll, List.foldl_cons]
    rw [namedAll] at herror'
    rw [herror', herror]
    simp only [hframe, List.mem_cons, exists_eq_or_imp]
    rw [or_left_comm, or_assoc]

theorem outsideFrame_of_slots {m m' : SpecMachine F} (h : m'.slots = m.slots) (index : U16) :
  outsideFrame base index m' = outsideFrame base index m := by
  rw [outsideFrame, outsideFrame, h]

theorem integerAt_of_fields {m m' : SpecMachine F} (hslots : m'.slots = m.slots)
  (hscratch : m'.scratch = m.scratch) (index : U16) :
  integerAt base index m' = integerAt base index m := by
  rw [integerAt, integerAt, outsideFrame_of_slots hslots, hslots, hscratch]

theorem slot_run (index : U16) :
  it.slot base index m =
    (.ok (if outsideFrame base index m then m.scratch
      else m.slots.getD (base + index.toNat) .unset), it.named base index m) := by
  unfold slot named
  rw [reads_bind]
  by_cases h : outsideFrame base index m = true
  · have hscratch := (@setError_fields F it
      "spec bytecode names a slot outside its frame" m).2.1
    rw [if_pos h, if_pos h, if_pos h, ← hscratch]
    rfl
  · rw [if_neg h, if_neg h, if_neg h]
    rfl

theorem intAt_run (index : U16) :
  it.intAt base index m = (.ok (integerAt base index m), it.named base index m) := by
  rw [intAt, bind_ok (slot_run index)]
  rfl

theorem setInt_run (index : U16) (value : U64) :
  it.setInt base index value m =
    (.ok (), putInteger base index value (it.named base index m)) := by
  have hframe : outsideFrame base index (it.named base index m) = outsideFrame base index m :=
    outsideFrame_of_slots (named_fields index).1 index
  rw [putInteger, hframe]
  unfold setInt setSlot named
  rw [reads_bind]
  by_cases h : outsideFrame base index m = true
  · rw [if_pos h, if_pos h, if_pos h]
    rfl
  · rw [if_neg h, if_neg h, if_neg h]
    rfl

theorem error_putInteger (index : U16) (value : U64) :
  (putInteger base index value m).error = m.error := by
  unfold putInteger
  split <;> rfl

theorem integerAt_putInteger (index : U16) (value : U64) :
  integerAt base index (putInteger base index value m) = value := by
  unfold putInteger
  by_cases h : outsideFrame base index m = true
  · rw [if_pos h]
    have hout : outsideFrame base index
        { m with scratch := { m.scratch with integer := value } } = true := h
    rw [integerAt, if_pos hout]
  · rw [if_neg h]
    have hlt : base + index.toNat < m.slots.length := by
      rw [outsideFrame, Bool.or_eq_true, not_or, decide_eq_true_eq] at h
      exact Nat.lt_of_not_le h.2
    have hin : ¬ outsideFrame base index
        { m with slots := m.slots.modify (base + index.toNat) fun s =>
          { s with integer := value } } = true := by
      rw [outsideFrame] at h ⊢
      rwa [List.length_modify]
    rw [integerAt, if_neg hin, List.getD_eq_getElem?_getD, List.getElem?_modify_eq,
      List.getElem?_eq_getElem hlt]
    rfl

/-- An instruction that computes an integer reads its operands, computes, and writes. -/
theorem executeInsn_integer {insn : Insn} {i : IntegerInsn} (hi : IntegerInsn.ofInsn insn = some i)
  (call : Body → List Slot → InterpM F Slot) :
  it.executeInsn call insn base m =
    (do
      let value ← defined (i.value (integerAt base insn.a m) (integerAt base insn.b m)
        (integerAt base insn.c m))
      it.setInt base insn.dest value
      return .next : InterpM F Control) (it.namedAll base (i.reads insn) m) := by
  -- What is read first does not change what is read next.
  have hfields : ∀ indices index,
      integerAt base index (it.namedAll base indices m) = integerAt base index m := fun indices _ =>
    integerAt_of_fields (namedAll_fields indices).1 (namedAll_fields indices).2.1 _
  have hsecond : ∀ first second, integerAt base second (it.named base first m) =
      integerAt base second m := fun first => hfields [first]
  have hthird : ∀ first second third,
      integerAt base third (it.named base second (it.named base first m)) =
        integerAt base third m := fun first second => hfields [first, second]
  unfold IntegerInsn.ofInsn at hi
  unfold executeInsn
  split at hi <;> cases hi <;> rename_i hop <;> simp only [hop]
  case h_1 | h_4 | h_5 =>
    rw [bind_ok (intAt_run insn.a)]
    rfl
  case h_2 =>
    rw [bind_ok (intAt_run insn.a), bind_ok (intAt_run insn.b), hsecond]
    rfl
  case h_3 =>
    rw [bind_ok (intAt_run insn.b), bind_ok (intAt_run insn.a), hsecond]
    rfl
  case h_6 | h_7 =>
    rw [bind_ok (intAt_run insn.a), bind_ok (intAt_run insn.b), bind_ok (intAt_run insn.c),
      hsecond, hthird]
    rfl

/-- What an executed instruction owes: it does not leave the host's arithmetic, and it
reports an error or leaves the number defined where it writes. -/
def Owed (it : SpecInterpreter F) (call : Body → List Slot → InterpM F Slot) (insn : Insn)
    (base : Nat) (m : SpecMachine F) (i : IntegerInsn) : Prop :=
  let after := it.executeInsn call insn base m
  after.1 = .ok .next ∧
    (after.2.error.isSome = true ∨
      i.Meets (integerAt base insn.a m) (integerAt base insn.b m) (integerAt base insn.c m)
        (integerAt base insn.dest after.2))

/-- **Integer operations.**  Whatever the operands hold, an instruction does what it owes
where the host's arithmetic defines it and either an error is reported (a slot is outside
the frame, or it was there before) or the narrowing of its widths is not noticed. -/
theorem executeInsn_exact (it : SpecInterpreter F) (call : Body → List Slot → InterpM F Slot)
    (insn : Insn) (base : Nat) (m : SpecMachine F) (i : IntegerInsn)
    (hi : IntegerInsn.ofInsn insn = some i) :
    Owed it call insn base m i ↔
      i.Defined (integerAt base insn.a m) (integerAt base insn.b m) (integerAt base insn.c m) ∧
        ((∃ index ∈ insn.dest :: i.reads insn, outsideFrame base index m = true) ∨
          m.error.isSome = true ∨
          i.Narrows (integerAt base insn.a m) (integerAt base insn.b m)
            (integerAt base insn.c m)) := by
  unfold Owed
  rw [executeInsn_integer hi call]
  generalize integerAt base insn.a m = a
  generalize integerAt base insn.b m = b
  generalize integerAt base insn.c m = c
  obtain ⟨hslots, hscratch, herror⟩ :=
    @namedAll_fields F it base m (i.reads insn)
  obtain ⟨-, -, herror'⟩ :=
    @named_fields F it base (it.namedAll base (i.reads insn) m) insn.dest
  rw [outsideFrame_of_slots hslots, herror] at herror'
  rw [← IntegerInsn.value_isSome_iff a b c i]
  cases hvalue : i.value a b c with
  | none => exact iff_of_false (fun h => nomatch h.1) fun h => nomatch h.1
  | some v =>
    have hmeets := IntegerInsn.meets_iff_narrows hvalue
    have hrun : (do
        let value ← defined (some v)
        it.setInt base insn.dest value
        return .next : InterpM F Control) (it.namedAll base (i.reads insn) m) =
          (.ok .next, putInteger base insn.dest v
            (it.named base insn.dest (it.namedAll base (i.reads insn) m))) :=
      bind_ok (setInt_run insn.dest v)
    rw [hrun]
    dsimp only
    rw [integerAt_putInteger, error_putInteger, herror', hmeets]
    simp only [List.mem_cons, exists_eq_or_imp, Option.isSome_some, true_and]
    rw [or_assoc, or_assoc, or_assoc]

/-- A quotient of the second slot's number by the third's. -/
def quotientInsn : Insn := ⟨.intBinary, 7#8, 0#16, 1#16, 2#16, kNoSlot, 0#64⟩

/-- A rule that divides two constants. -/
def quotientSpec (dividend divisor : U64) : SpecProgram where
  name := "toy"
  arch := 2#8
  endian := .little
  insnWidth := 32#32
  pointerBits := 64#32
  registers := RegisterFile.empty
  regFiles := []
  strings := []
  code := [⟨.constInt, 0#8, 1#16, kNoSlot, kNoSlot, kNoSlot, dividend⟩,
    ⟨.constInt, 0#8, 2#16, kNoSlot, kNoSlot, kNoSlot, divisor⟩,
    quotientInsn,
    ⟨.halt, 0#8, kNoSlot, kNoSlot, kNoSlot, kNoSlot, 0#64⟩]
  asmPieces := []
  functions := []
  instructions := [⟨"div", [], [], ⟨0#32, 4#32, 3#16⟩, 0#32, 0#32⟩]
  patterns := [⟨0, "div", 0xFFFFFFFF#64, 0xD503201F#64, 0, false⟩]

def divInsn : DecodedInsn := ⟨true, 0, 0x1000#64, 0xD503201F#64, 4, []⟩

/-- The loader accepts the rule, and running it overflows the host's quotient. -/
theorem probe_quotient_undefined :
    (quotientSpec 0x8000000000000000#64 0xFFFFFFFFFFFFFFFF#64).fault = none ∧
      (quotientSpec 0x8000000000000000#64 0xFFFFFFFFFFFFFFFF#64).probe 5 divInsn =
        .error .undefined :=
  ⟨by decide, by decide⟩

/-- The quotient of `-7` by `2` is owed and given. -/
theorem executeInsn_exact_quotient :
    Owed ((quotientSpec 0#64 0#64).probing divInsn) (fun _ _ => fail .running) quotientInsn 0
      { start () with slots := [.unset, ⟨0xFFFFFFFFFFFFFFF9#64, none⟩, ⟨2#64, none⟩] }
      (.binary (some .divS)) := by
  refine (executeInsn_exact _ _ _ _ _ _ rfl).mpr ⟨?_, .inr (.inr trivial)⟩
  intro h
  exact absurd h.2 (by decide)

end SpecInterpreter

end Xdec

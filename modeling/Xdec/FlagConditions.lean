import Xdec.SignedValue
import Xdec.Substitution

/-!
# Conditions of a flag definition as comparisons

`FlagConditionRewrite` replaces a condition over `flagdef a, b` by a comparison
of `a` and `b`.  The interpreter cuts both operands to the width the definition
records before it computes NZCV, the comparisons read them whole: the tables are
right where the operands have the recorded width (`FlagWidth`).

The flags are first put as statements about two numbers below `2 ^ w`
(`evalFlagDef_sub`, `evalFlagDef_add`, `evalFlagDef_logical`); each entry of a
table is then one fact about such numbers.
-/

namespace Xdec

/-! ## The tables -/

namespace FlagConditionRewrite

open Xdec.Expr

def onlyAlways : ConditionCode → Option Expr
  | .always => some (boolean true)
  | .never => some (boolean false)
  | _ => none

/-- subs a, b: every condition but overflow is a plain compare. -/
def rewriteSub (width : Nat) (a b : Expr) (code : ConditionCode) : Option Expr :=
  let diff := mkBinary .sub a b
  let zero := constant (Ty.integer width) 0#64
  match code with
  | .equal => some (mkBinary .cmpEq a b)
  | .notEqual => some (mkBinary .cmpNe a b)
  | .carrySet => some (mkBinary .cmpLeU b a)
  | .carryClear => some (mkBinary .cmpLtU a b)
  | .unsignedGreater => some (mkBinary .cmpLtU b a)
  | .unsignedLessEqual => some (mkBinary .cmpLeU a b)
  | .signedGreaterEqual => some (mkBinary .cmpLeS b a)
  | .signedLess => some (mkBinary .cmpLtS a b)
  | .signedGreater => some (mkBinary .cmpLtS b a)
  | .signedLessEqual => some (mkBinary .cmpLeS a b)
  | .negative => some (mkBinary .cmpLtS diff zero)
  | .nonNegative => some (mkBinary .cmpLeS zero diff)
  | .always => some (boolean true)
  | .never => some (boolean false)
  | _ => none

/-- adds a, b: the carry out of `a + b` is `sum <u a`; overflow tests stay. -/
def rewriteAdd (width : Nat) (a b : Expr) (code : ConditionCode) : Option Expr :=
  let sum := mkBinary .add a b
  let zero := constant (Ty.integer width) 0#64
  match code with
  | .equal => some (mkBinary .cmpEq sum zero)
  | .notEqual => some (mkBinary .cmpNe sum zero)
  | .carrySet => some (mkBinary .cmpLtU sum a)
  | .carryClear => some (mkBinary .cmpLeU a sum)
  | .unsignedGreater => some (mkBinary .and (mkBinary .cmpLtU sum a) (mkBinary .cmpNe sum zero))
  | .unsignedLessEqual => some (mkBinary .or (mkBinary .cmpLeU a sum) (mkBinary .cmpEq sum zero))
  | .negative => some (mkBinary .cmpLtS sum zero)
  | .nonNegative => some (mkBinary .cmpLeS zero sum)
  | .always => some (boolean true)
  | .never => some (boolean false)
  | _ => none

/-- ands/tst: N and Z of the result, C and V clear. -/
def rewriteLogical (width : Nat) (r : Expr) (code : ConditionCode) : Option Expr :=
  let zero := constant (Ty.integer width) 0#64
  let eq := mkBinary .cmpEq r zero
  let ne := mkBinary .cmpNe r zero
  let neg := mkBinary .cmpLtS r zero
  let pos := mkBinary .cmpLeS zero r
  match code with
  | .equal => some eq
  | .notEqual => some ne
  | .negative => some neg
  | .nonNegative => some pos
  | .carrySet => some (boolean false)
  | .carryClear => some (boolean true)
  | .overflow => some (boolean false)
  | .noOverflow => some (boolean true)
  | .unsignedGreater => some (boolean false)
  | .unsignedLessEqual => some eq
  | .signedGreaterEqual => some pos
  | .signedLess => some neg
  | .signedGreater => some (mkBinary .and ne pos)
  | .signedLessEqual => some (mkBinary .or eq neg)
  | .always => some (boolean true)
  | .never => some (boolean false)
  | .count => none

/-- `flagDef_.operands[i]`. -/
def operandAt (flagDef : Expr) (i : Nat) : Expr :=
  flagDef.operands.getD i (undefined Ty.voidType)

def rewrite (flagDef : Expr) (code : ConditionCode) : Option Expr :=
  let width := flagDefWidth flagDef.immediate
  match flagDefOp flagDef.immediate with
  | .sub => rewriteSub width (operandAt flagDef 0) (operandAt flagDef 1) code
  | .add => rewriteAdd width (operandAt flagDef 0) (operandAt flagDef 1) code
  | .logical => rewriteLogical width (operandAt flagDef 0) code
  | .const | .addCarry | .subCarry | .count => onlyAlways code

end FlagConditionRewrite

/-! ## Flags of two numbers -/

/-- A condition as a function of the four flags. -/
def ConditionCode.test (n z c v : Bool) : ConditionCode → Bool
  | .equal => z
  | .notEqual => !z
  | .carrySet => c
  | .carryClear => !c
  | .negative => n
  | .nonNegative => !n
  | .overflow => v
  | .noOverflow => !v
  | .unsignedGreater => c && !z
  | .unsignedLessEqual => !c || z
  | .signedGreaterEqual => n == v
  | .signedLess => n != v
  | .signedGreater => !z && (n == v)
  | .signedLessEqual => z || (n != v)
  | .always => true
  | .never => false
  | .count => false

theorem evalCondition_packNzcv (code : ConditionCode) (n z c v : Bool) :
  evalCondition code (packNzcv n z c v) = code.test n z c v := by
  revert n z c v
  cases code <;> decide

section Numbers

variable {w : Nat} {a b carryIn : U64}

theorem signAt_eq (hpos : 0 < w) (ha : a.toNat < 2 ^ w) :
  signAt w a = decide (2 ^ (w - 1) ≤ a.toNat) := by
  have hhalf := two_pow_half hpos
  have hbit : ((a >>> (w - 1)) &&& 1#64).toNat = a.toNat / 2 ^ (w - 1) := by
    have hlt : a.toNat / 2 ^ (w - 1) < 2 := Nat.div_lt_of_lt_mul (by omega)
    have hone : (1#64).toNat = 2 ^ 1 - 1 := rfl
    rw [BitVec.toNat_and, BitVec.toNat_ushiftRight, Nat.shiftRight_eq_div_pow, hone,
      Nat.and_two_pow_sub_one_eq_mod, Nat.mod_eq_of_lt hlt]
  have hle : 2 ^ (w - 1) ≤ a.toNat ↔ a.toNat / 2 ^ (w - 1) ≠ 0 := by
    rw [Nat.div_ne_zero_iff]
    exact ⟨fun h => ⟨(Nat.two_pow_pos _).ne', h⟩, fun h => h.2⟩
  unfold signAt
  rw [decide_eq_decide, hle, ← hbit]
  exact not_congr ⟨fun h => by rw [h]; rfl, fun h => BitVec.eq_of_toNat_eq h⟩

/-- The sum of two numbers of width `w` and a carry, and whether it leaves the
width. -/
theorem addWithCarry_eq (hw : w ≤ 64) (ha : a.toNat < 2 ^ w) (hb : b.toNat < 2 ^ w)
  (hc : carryIn.toNat ≤ 1) :
  (addWithCarry w a b carryIn).1.toNat = (a.toNat + b.toNat + carryIn.toNat) % 2 ^ w ∧
    (addWithCarry w a b carryIn).2 = decide (2 ^ w ≤ a.toNat + b.toNat + carryIn.toNat) := by
  unfold addWithCarry
  by_cases h64 : w = 64
  · subst h64
    simp only [if_true, BitVec.lt_def, BitVec.toNat_add]
    refine ⟨by omega, ?_⟩
    rw [← Bool.decide_or, decide_eq_decide]
    omega
  · have hlt : w < 64 := by omega
    have hpow : 2 ^ (w + 1) ≤ 2 ^ 64 := Nat.pow_le_pow_right (by decide) hlt
    rw [Nat.pow_succ] at hpow
    have hsum : (a + b + carryIn).toNat = a.toNat + b.toNat + carryIn.toNat := by
      simp only [BitVec.toNat_add]
      omega
    simp only [if_neg h64]
    refine ⟨?_, ?_⟩
    · have hzero := zeroExtend_toNat (a + b + carryIn) w
      unfold zeroExtend at hzero
      rw [hzero, hsum]
    · have hsign := signAt_eq (w := w + 1) (a := a + b + carryIn) (by omega)
        (by rw [hsum, Nat.pow_succ]; omega)
      unfold signAt at hsign
      rw [Nat.add_sub_cancel, hsum] at hsign
      exact hsign

variable {x y : U128}

/-- An operand of the recorded width is not cut. -/
theorem and_lowMask (hw : w ≤ 64) (hx : x.toNat < 2 ^ w) : x.lo &&& lowMask w = x.lo :=
  zeroExtend_of_le ((lo_toNat_of_lt hw hx).trans_lt hx)

theorem complement_toNat (hw : w ≤ 64) (ha : a.toNat < 2 ^ w) :
  (if w = 64 then ~~~a else ~~~a &&& lowMask w).toNat = 2 ^ w - 1 - a.toNat := by
  by_cases h64 : w = 64
  · subst h64
    rw [if_pos rfl, BitVec.toNat_not]
  · have hdvd : 2 ^ w ∣ 2 ^ 64 := pow_dvd_pow 2 hw
    have hle : 2 ^ w ≤ 2 ^ 64 := Nat.pow_le_pow_right (by decide) hw
    obtain ⟨k, hk⟩ := Nat.dvd_sub hdvd (dvd_refl (2 ^ w))
    have hsplit : 2 ^ 64 - 1 - a.toNat = 2 ^ w - 1 - a.toNat + 2 ^ w * k := by omega
    have hcut := zeroExtend_toNat (~~~a) w
    unfold zeroExtend at hcut
    rw [if_neg h64, hcut, BitVec.toNat_not, hsplit, Nat.add_mul_mod_self_left,
      Nat.mod_eq_of_lt (by omega)]

/-- `subs`: the difference, and no borrow. -/
theorem evalFlagDef_sub (hpos : 0 < w) (hw : w ≤ 64) (hx : x.toNat < 2 ^ w)
  (hy : y.toNat < 2 ^ w) {r : Nat} (hr : r = (x.toNat + (2 ^ w - y.toNat)) % 2 ^ w) :
  evalFlagDef .sub w [x, y] =
    packNzcv (2 ^ (w - 1) ≤ r) (r = 0) (y.toNat ≤ x.toNat)
      (decide (2 ^ (w - 1) ≤ x.toNat) != decide (2 ^ (w - 1) ≤ y.toNat) &&
        decide (2 ^ (w - 1) ≤ r) != decide (2 ^ (w - 1) ≤ x.toNat)) := by
  have hxlo := lo_toNat_of_lt hw hx
  have hylo := lo_toNat_of_lt hw hy
  have hnot := complement_toNat hw (hylo.trans_lt hy)
  have hone : (1#64).toNat = 1 := rfl
  obtain ⟨hsum, hcarry⟩ := @addWithCarry_eq w _ (if w = 64 then ~~~y.lo else ~~~y.lo &&& lowMask w)
    1#64 hw (hxlo.trans_lt hx) (by omega) (by decide)
  have htotal : x.lo.toNat + (if w = 64 then ~~~y.lo else ~~~y.lo &&& lowMask w).toNat +
      (1#64).toNat = x.toNat + (2 ^ w - y.toNat) := by omega
  rw [htotal, ← hr] at hsum
  rw [htotal] at hcarry
  have hrlt : r < 2 ^ w := hr ▸ Nat.mod_lt _ (Nat.two_pow_pos w)
  have hborrow : 2 ^ w ≤ x.toNat + (2 ^ w - y.toNat) ↔ y.toNat ≤ x.toNat := by omega
  have hzero : (addWithCarry w x.lo (if w = 64 then ~~~y.lo else ~~~y.lo &&& lowMask w) 1#64).1 =
      0#64 ↔ r = 0 := by
    rw [← hsum]
    exact ⟨fun h => congrArg BitVec.toNat h, fun h => BitVec.eq_of_toNat_eq h⟩
  simp only [evalFlagDef, List.getD_cons_zero, List.getD_cons_succ, and_lowMask hw hx,
    and_lowMask hw hy, reduceCtorEq, if_false, signAt_eq hpos (hxlo.trans_lt hx),
    signAt_eq hpos (hylo.trans_lt hy), signAt_eq hpos (hsum.trans_lt hrlt), hsum, hcarry, hxlo,
    hylo, hborrow, hzero]

/-- `adds`: the sum, and its carry. -/
theorem evalFlagDef_add (hpos : 0 < w) (hw : w ≤ 64) (hx : x.toNat < 2 ^ w)
  (hy : y.toNat < 2 ^ w) {r : Nat} (hr : r = (x.toNat + y.toNat) % 2 ^ w) :
  evalFlagDef .add w [x, y] =
    packNzcv (2 ^ (w - 1) ≤ r) (r = 0) (2 ^ w ≤ x.toNat + y.toNat)
      (decide (2 ^ (w - 1) ≤ x.toNat) == decide (2 ^ (w - 1) ≤ y.toNat) &&
        decide (2 ^ (w - 1) ≤ r) != decide (2 ^ (w - 1) ≤ x.toNat)) := by
  have hxlo := lo_toNat_of_lt hw hx
  have hylo := lo_toNat_of_lt hw hy
  obtain ⟨hsum, hcarry⟩ := @addWithCarry_eq _ _ _ 0#64 hw (hxlo.trans_lt hx)
    (hylo.trans_lt hy) (by decide)
  have htotal : x.lo.toNat + y.lo.toNat + (0#64).toNat = x.toNat + y.toNat := by
    rw [hxlo, hylo]
    rfl
  rw [htotal, ← hr] at hsum
  rw [htotal] at hcarry
  have hrlt : r < 2 ^ w := hr ▸ Nat.mod_lt _ (Nat.two_pow_pos w)
  have hzero : (addWithCarry w x.lo y.lo 0#64).1 = 0#64 ↔ r = 0 := by
    rw [← hsum]
    exact ⟨fun h => congrArg BitVec.toNat h, fun h => BitVec.eq_of_toNat_eq h⟩
  simp only [evalFlagDef, List.getD_cons_zero, List.getD_cons_succ, and_lowMask hw hx,
    and_lowMask hw hy, reduceCtorEq, if_false, signAt_eq hpos (hxlo.trans_lt hx),
    signAt_eq hpos (hylo.trans_lt hy), signAt_eq hpos (hsum.trans_lt hrlt), hsum, hcarry, hxlo,
    hylo, hzero]

theorem evalFlagDef_logical (hpos : 0 < w) (hw : w ≤ 64) (hx : x.toNat < 2 ^ w) :
  evalFlagDef .logical w [x] =
    packNzcv (2 ^ (w - 1) ≤ x.toNat) (x.toNat = 0) false false := by
  have hxlo := lo_toNat_of_lt hw hx
  have hzero : x.lo = 0#64 ↔ x.toNat = 0 := by
    rw [← hxlo]
    exact ⟨fun h => congrArg BitVec.toNat h, fun h => BitVec.eq_of_toNat_eq h⟩
  simp only [evalFlagDef, List.getD_cons_zero, and_lowMask hw hx,
    signAt_eq hpos (hxlo.trans_lt hx), hxlo, hzero]

end Numbers

/-! ## The tables are right -/

/-- `e` is of the integer type of width `w` and denotes the number `n` of it. -/
structure Yields (ctx : Ctx) (env : Env) (w : Nat) (e : Expr) (n : Nat) : Prop where
  typed : IntTyped ctx w e
  nat_eq : nat env e = some n
  lt : n < 2 ^ w

namespace Yields

variable {ctx : Ctx} {env : Env} {w m n : Nat} {o : ExprOp} {a b : Expr}
  {f : Nat → Nat → Nat → Nat}

theorem nat_binary (ha : Yields ctx env w a m) (hb : Yields ctx env w b n) (hw : w ≤ 64)
  (hf : binSem o = some f) :
  nat env (Expr.mkBinary o a b) = some (f w m n) := by
  obtain ⟨x, hx, rfl⟩ := nat_eq_some.mp ha.nat_eq
  obtain ⟨y, hy, rfl⟩ := nat_eq_some.mp hb.nat_eq
  have habits := ha.typed.bits
  have hxlt := ha.lt
  have hylt := hb.lt
  have hread : ∀ v, readArg o v = v := fun v => by
    rw [readArg, readsFlags_of_binSem hf, if_neg (by decide)]
  rw [← habits] at hxlt hylt
  obtain ⟨v, happ, hv⟩ := applyOp_binary env (i := 0#64) (b := b) hf
    (habits ▸ ha.typed.pos) (by omega) (t := if o.info.result = .boolean then Ty.boolean else a.type)
    (fun h => by rw [if_neg (by rw [h]; decide)]) hxlt hylt
  refine nat_eq_some.mpr ⟨v, den_binary_iff.mpr ⟨?_, x, y, hx, hy, ?_⟩, by rw [hv, habits]⟩
  · rintro ⟨hwide, -⟩
    split at hwide
    · exact absurd hwide (by decide)
    · rw [← Expr.bits, habits] at hwide
      omega
  · rw [hread, hread]
    exact happ

theorem binary (ha : Yields ctx env w a m) (hb : Yields ctx env w b n) (hw : w ≤ 64)
  (hop : sameOp o = true) (hf : binSem o = some f) (hlt : f w m n < 2 ^ w) :
  Yields ctx env w (Expr.mkBinary o a b) (f w m n) :=
  ⟨ha.typed.mkBinary hb.typed hop, ha.nat_binary hb hw hf, hlt⟩

theorem compare {p : Prop} [Decidable p] (ha : Yields ctx env w a m) (hb : Yields ctx env w b n)
  (hw : w ≤ 64) (hop : cmpOp o = true) (hf : binSem o = some f) (hp : f w m n = truth p) :
  Yields ctx env 1 (Expr.mkBinary o a b) (truth p) := by
  obtain ⟨hwt, htype⟩ := wellTyped_mkCompare ha.typed hb.typed hop
  refine ⟨⟨hwt, htype⟩, hp ▸ ha.nat_binary hb hw hf, ?_⟩
  unfold truth
  split <;> decide

theorem zero (hpos : 0 < w) (hw : w ≤ 64) :
  Yields ctx env w (Expr.constant (Ty.integer w) 0#64) 0 := by
  refine ⟨.constant hpos (by omega) _, ?_, Nat.two_pow_pos w⟩
  rw [nat_constant (by omega)]
  exact congrArg some (Nat.zero_mod _)

theorem ofBool (p : Bool) : Yields ctx env 1 (Expr.boolean p) (truth (p = true)) := by
  refine ⟨.constant (by decide) (by decide) _, ?_, by cases p <;> decide⟩
  rw [Expr.boolean, Ty.boolean, nat_constant (by decide)]
  cases p <;> rfl

theorem and {p q : Prop} [Decidable p] [Decidable q] (ha : Yields ctx env 1 a (truth p))
  (hb : Yields ctx env 1 b (truth q)) :
  Yields ctx env 1 (Expr.mkBinary .and a b) (truth (p ∧ q)) := by
  have heq : truth p &&& truth q = truth (p ∧ q) := by
    by_cases hp : p <;> by_cases hq : q <;> simp [truth, hp, hq]
  have hlt : truth (p ∧ q) < 2 ^ 1 := by
    unfold truth
    split <;> decide
  have h := ha.binary hb (by decide) (o := .and) rfl rfl (heq ▸ hlt)
  rwa [heq] at h

theorem or {p q : Prop} [Decidable p] [Decidable q] (ha : Yields ctx env 1 a (truth p))
  (hb : Yields ctx env 1 b (truth q)) :
  Yields ctx env 1 (Expr.mkBinary .or a b) (truth (p ∨ q)) := by
  have heq : truth p ||| truth q = truth (p ∨ q) := by
    by_cases hp : p <;> by_cases hq : q <;> simp [truth, hp, hq]
  have hlt : truth (p ∨ q) < 2 ^ 1 := by
    unfold truth
    split <;> decide
  have h := ha.binary hb (by decide) (o := .or) rfl rfl (heq ▸ hlt)
  rwa [heq] at h

theorem congr {p q : Prop} [Decidable p] [Decidable q] (h : Yields ctx env 1 a (truth p))
  (hpq : p ↔ q) : Yields ctx env 1 a (truth q) := by
  have heq : truth p = truth q := by simp only [truth, hpq]
  exact heq ▸ h

/-- A truth value as the interpreter writes it. -/
theorem den_eq {p : Bool} (h : Yields ctx env 1 a (truth (p = true))) :
  den env a = some (boolValue p) := by
  rw [den_eq_some_iff, h.nat_eq, boolValue_toNat]
  rfl

end Yields

section Signed

variable {w x y r : Nat}

theorem biased_eq_ite (hpos : 0 < w) (hx : x < 2 ^ w) :
  biased w x = if 2 ^ (w - 1) ≤ x then x - 2 ^ (w - 1) else x + 2 ^ (w - 1) := by
  have hhalf := two_pow_half hpos
  unfold biased
  split
  · rw [Nat.mod_eq_sub_mod (by omega), Nat.mod_eq_of_lt (by omega)]
    omega
  · exact Nat.mod_eq_of_lt (by omega)

theorem biased_zero (hpos : 0 < w) : biased w 0 = 2 ^ (w - 1) := by
  have hhalf := two_pow_half hpos
  rw [biased, Nat.zero_add]
  exact Nat.mod_eq_of_lt (by have := Nat.two_pow_pos (w - 1); omega)

theorem biased_lt_zero (hpos : 0 < w) (hx : x < 2 ^ w) :
  biased w x < biased w 0 ↔ 2 ^ (w - 1) ≤ x := by
  have hhalf := two_pow_half hpos
  rw [biased_zero hpos, biased_eq_ite hpos hx]
  split <;> omega

/-- N ≠ V after a subtraction is the signed order. -/
theorem biased_lt_iff_flags (hpos : 0 < w) (hx : x < 2 ^ w) (hy : y < 2 ^ w)
  (hr : r = (x + (2 ^ w - y)) % 2 ^ w) :
  biased w x < biased w y ↔
    decide (2 ^ (w - 1) ≤ r) != (decide (2 ^ (w - 1) ≤ x) != decide (2 ^ (w - 1) ≤ y) &&
      decide (2 ^ (w - 1) ≤ r) != decide (2 ^ (w - 1) ≤ x)) := by
  have hhalf := two_pow_half hpos
  have hcases : y ≤ x ∧ r = x - y ∨ x < y ∧ r = x + (2 ^ w - y) := by
    by_cases hle : y ≤ x
    · rw [Nat.mod_eq_sub_mod (by omega), Nat.mod_eq_of_lt (by omega)] at hr
      omega
    · rw [Nat.mod_eq_of_lt (by omega)] at hr
      omega
  rw [biased_eq_ite hpos hx, biased_eq_ite hpos hy]
  by_cases h1 : 2 ^ (w - 1) ≤ x <;> by_cases h2 : 2 ^ (w - 1) ≤ y <;>
    by_cases h3 : 2 ^ (w - 1) ≤ r <;> simp [h1, h2, h3] <;> omega

theorem biased_inj (hpos : 0 < w) (hx : x < 2 ^ w) (hy : y < 2 ^ w) :
  biased w x = biased w y ↔ x = y := by
  have hhalf := two_pow_half hpos
  rw [biased_eq_ite hpos hx, biased_eq_ite hpos hy]
  split <;> split <;> omega

theorem sub_eq_zero_iff (hx : x < 2 ^ w) (hy : y < 2 ^ w) (hr : r = (x + (2 ^ w - y)) % 2 ^ w) :
  r = 0 ↔ x = y := by
  by_cases hle : y ≤ x
  · rw [Nat.mod_eq_sub_mod (by omega), Nat.mod_eq_of_lt (by omega)] at hr
    omega
  · rw [Nat.mod_eq_of_lt (by omega)] at hr
    omega

/-- A carry out of a sum leaves the sum below either operand. -/
theorem carry_iff (hx : x < 2 ^ w) (hy : y < 2 ^ w) (hr : r = (x + y) % 2 ^ w) :
  2 ^ w ≤ x + y ↔ r < x := by
  by_cases hle : 2 ^ w ≤ x + y
  · rw [Nat.mod_eq_sub_mod hle, Nat.mod_eq_of_lt (by omega)] at hr
    omega
  · rw [Nat.mod_eq_of_lt (by omega)] at hr
    omega

end Signed

namespace FlagConditionRewrite

variable {ctx : Ctx} {env : Env} {w : Nat} {a b r : Expr} {x y : U128} {code : ConditionCode}

theorem rewriteSub_yields (ha : Yields ctx env w a x.toNat) (hb : Yields ctx env w b y.toNat)
  (hw : w ≤ 64) (h : rewriteSub w a b code = some r) :
  Yields ctx env 1 r (truth (evalCondition code (evalFlagDef .sub w [x, y]) = true)) := by
  have hpos := ha.typed.pos
  have hx := ha.lt
  have hy := hb.lt
  obtain ⟨d, hd⟩ : ∃ d, d = (x.toNat + (2 ^ w - y.toNat)) % 2 ^ w := ⟨_, rfl⟩
  have hdlt : d < 2 ^ w := hd ▸ Nat.mod_lt _ (Nat.two_pow_pos w)
  have hdiff : Yields ctx env w (Expr.mkBinary .sub a b) d := by
    have hsub := ha.binary hb hw (o := .sub) rfl rfl (hd ▸ hdlt)
    rwa [← hd] at hsub
  have hzero : Yields ctx env w (Expr.constant (Ty.integer w) 0#64) 0 := .zero hpos hw
  have heq := sub_eq_zero_iff hx hy hd
  have heq' := heq.trans (biased_inj hpos hx hy).symm
  have hless := biased_lt_iff_flags hpos hx hy hd
  have hneg := biased_lt_zero hpos hdlt
  rw [evalFlagDef_sub hpos hw hx hy hd, evalCondition_packNzcv]
  cases code <;> simp only [rewriteSub, Option.some.injEq, reduceCtorEq] at h <;> subst h <;>
    simp only [ConditionCode.test]
  case equal => exact (ha.compare hb hw (o := .cmpEq) rfl rfl rfl).congr (by simp [heq])
  case notEqual => exact (ha.compare hb hw (o := .cmpNe) rfl rfl rfl).congr (by simp [heq])
  case carrySet => exact (hb.compare ha hw (o := .cmpLeU) rfl rfl rfl).congr (by simp)
  case carryClear => exact (ha.compare hb hw (o := .cmpLtU) rfl rfl rfl).congr (by simp)
  case unsignedGreater =>
    refine (hb.compare ha hw (o := .cmpLtU) rfl rfl rfl).congr ?_
    simp only [Bool.and_eq_true, Bool.not_eq_true', decide_eq_true_eq, decide_eq_false_iff_not]
    omega
  case unsignedLessEqual =>
    refine (ha.compare hb hw (o := .cmpLeU) rfl rfl rfl).congr ?_
    simp only [Bool.or_eq_true, Bool.not_eq_true', decide_eq_true_eq, decide_eq_false_iff_not]
    omega
  case signedLess => exact (ha.compare hb hw (o := .cmpLtS) rfl rfl rfl).congr hless
  case signedGreaterEqual =>
    refine (hb.compare ha hw (o := .cmpLeS) rfl rfl rfl).congr ?_
    rw [← Nat.not_lt, hless]
    simp only [bne_iff_ne, ne_eq, not_not, beq_iff_eq]
  case signedGreater =>
    refine (hb.compare ha hw (o := .cmpLtS) rfl rfl rfl).congr ?_
    have hnot : biased w y.toNat < biased w x.toNat ↔
        ¬ d = 0 ∧ ¬ biased w x.toNat < biased w y.toNat := by omega
    rw [hnot, hless]
    simp only [Bool.and_eq_true, Bool.not_eq_true', decide_eq_false_iff_not, bne_iff_ne, ne_eq,
      not_not, beq_iff_eq]
  case signedLessEqual =>
    refine (ha.compare hb hw (o := .cmpLeS) rfl rfl rfl).congr ?_
    have hor : biased w x.toNat ≤ biased w y.toNat ↔
        d = 0 ∨ biased w x.toNat < biased w y.toNat := by omega
    rw [hor, hless]
    simp only [Bool.or_eq_true, decide_eq_true_eq]
  case negative => exact (hdiff.compare hzero hw (o := .cmpLtS) rfl rfl rfl).congr (by simp [hneg])
  case nonNegative =>
    refine (hzero.compare hdiff hw (o := .cmpLeS) rfl rfl rfl).congr ?_
    rw [← Nat.not_lt, hneg]
    simp
  case always => exact .ofBool true
  case never => exact .ofBool false

theorem rewriteAdd_yields (ha : Yields ctx env w a x.toNat) (hb : Yields ctx env w b y.toNat)
  (hw : w ≤ 64) (h : rewriteAdd w a b code = some r) :
  Yields ctx env 1 r (truth (evalCondition code (evalFlagDef .add w [x, y]) = true)) := by
  have hpos := ha.typed.pos
  have hx := ha.lt
  have hy := hb.lt
  obtain ⟨d, hd⟩ : ∃ d, d = (x.toNat + y.toNat) % 2 ^ w := ⟨_, rfl⟩
  have hdlt : d < 2 ^ w := hd ▸ Nat.mod_lt _ (Nat.two_pow_pos w)
  have hsum : Yields ctx env w (Expr.mkBinary .add a b) d := by
    have hadd := ha.binary hb hw (o := .add) rfl rfl (hd ▸ hdlt)
    rwa [← hd] at hadd
  have hzero : Yields ctx env w (Expr.constant (Ty.integer w) 0#64) 0 := .zero hpos hw
  have hcarry := carry_iff hx hy hd
  have hneg := biased_lt_zero hpos hdlt
  have hset := hsum.compare ha hw (o := .cmpLtU) rfl rfl rfl
  have hclear := ha.compare hsum hw (o := .cmpLeU) rfl rfl rfl
  have heq := hsum.compare hzero hw (o := .cmpEq) rfl rfl rfl
  have hne := hsum.compare hzero hw (o := .cmpNe) rfl rfl rfl
  rw [evalFlagDef_add hpos hw hx hy hd, evalCondition_packNzcv]
  cases code <;> simp only [rewriteAdd, Option.some.injEq, reduceCtorEq] at h <;> subst h <;>
    simp only [ConditionCode.test]
  case equal => exact heq.congr (by simp)
  case notEqual => exact hne.congr (by simp)
  case carrySet => exact hset.congr (by simp [hcarry])
  case carryClear => exact hclear.congr (by simp [hcarry])
  case unsignedGreater => exact (hset.and hne).congr (by simp [hcarry])
  case unsignedLessEqual => exact (hclear.or heq).congr (by simp [hcarry])
  case negative => exact (hsum.compare hzero hw (o := .cmpLtS) rfl rfl rfl).congr (by simp [hneg])
  case nonNegative =>
    refine (hzero.compare hsum hw (o := .cmpLeS) rfl rfl rfl).congr ?_
    rw [← Nat.not_lt, hneg]
    simp
  case always => exact .ofBool true
  case never => exact .ofBool false

/-- C is clear after `ands`, so `ls` always holds; the table compares with zero. -/
theorem rewriteLogical_yields (ha : Yields ctx env w a x.toNat) (hw : w ≤ 64)
  (hcode : code ≠ .unsignedLessEqual) (h : rewriteLogical w a code = some r) :
  Yields ctx env 1 r (truth (evalCondition code (evalFlagDef .logical w [x]) = true)) := by
  have hpos := ha.typed.pos
  have hzero : Yields ctx env w (Expr.constant (Ty.integer w) 0#64) 0 := .zero hpos hw
  have hneg := biased_lt_zero hpos ha.lt
  have heq := ha.compare hzero hw (o := .cmpEq) rfl rfl rfl
  have hne := ha.compare hzero hw (o := .cmpNe) rfl rfl rfl
  have hbelow := (ha.compare hzero hw (o := .cmpLtS) rfl rfl rfl).congr hneg
  have habove : Yields ctx env 1 (Expr.mkBinary .cmpLeS (Expr.constant (Ty.integer w) 0#64) a)
      (truth (¬ 2 ^ (w - 1) ≤ x.toNat)) := by
    refine (hzero.compare ha hw (o := .cmpLeS) rfl rfl rfl).congr ?_
    rw [← Nat.not_lt, hneg]
  rw [evalFlagDef_logical hpos hw ha.lt, evalCondition_packNzcv]
  cases code <;> simp only [rewriteLogical, Option.some.injEq, reduceCtorEq] at h <;> subst h <;>
    simp only [ConditionCode.test]
  case equal => exact heq.congr (by simp)
  case notEqual => exact hne.congr (by simp)
  case negative | signedLess => exact hbelow.congr (by simp)
  case nonNegative | signedGreaterEqual => exact habove.congr (by simp)
  case signedGreater => exact (hne.and habove).congr (by simp)
  case signedLessEqual => exact (heq.or hbelow).congr (by simp)
  case carryClear | noOverflow | always => exact .ofBool true
  case carrySet | overflow | unsignedGreater | never => exact .ofBool false
  case unsignedLessEqual => exact absurd rfl hcode

/-! ### One flag definition -/

/-- The condition under which the tables are right: the operands have the
recorded width, and `ls` is not asked of a logical definition. -/
def Faithful (code : ConditionCode) (flagDef : Expr) : Prop :=
  (rewrite flagDef code).isSome → code = .always ∨ code = .never ∨
    flagDefWidth flagDef.immediate ≤ 64 ∧
      (∀ x ∈ flagDef.operands, x.type = Ty.integer (flagDefWidth flagDef.immediate)) ∧
      ¬ (flagDefOp flagDef.immediate = .logical ∧ code = .unsignedLessEqual)

/-- Built of some parts with constants and operators of the table. -/
inductive Combines (parts : List Expr) : Expr → Prop where
  | part {x : Expr} (hx : x ∈ parts) : Combines parts x
  | constant (t : Ty) (k : U64) : Combines parts (Expr.constant t k)
  | binary {o : ExprOp} {a b : Expr} (ho : (binSem o).isSome = true) (ha : Combines parts a)
      (hb : Combines parts b) : Combines parts (Expr.mkBinary o a b)

theorem Combines.leaves {parts : List Expr} (h : Combines parts r) {v : Nat}
  (hv : v ∈ r.leaves .value) : ∃ x ∈ parts, v ∈ x.leaves .value := by
  induction h with
  | part hx => exact ⟨_, hx, hv⟩
  | constant => cases hv
  | @binary o a b ho _ _ iha ihb =>
    have hne : o ≠ .value := fun heq => by
      rw [heq] at ho
      cases ho
    obtain ⟨x, hx, hvx⟩ := (Expr.mem_leaves_of_ne (e := Expr.mkBinary o a b) hne).mp hv
    rcases List.mem_pair.mp hx with rfl | rfl
    · exact iha hvx
    · exact ihb hvx

/-- A node of it is a new one or lies in a part. -/
theorem Combines.subExpr {parts : List Expr} (h : Combines parts r) {s : Expr}
  (hs : Expr.SubExpr s r) :
  (s.op ≠ .flagDef ∧ s.op ≠ .flagCond) ∨ ∃ x ∈ parts, Expr.SubExpr s x := by
  induction h with
  | part hx => exact .inr ⟨_, hx, hs⟩
  | constant =>
    cases hs with
    | refl => exact .inl ⟨(by rintro ⟨⟩), (by rintro ⟨⟩)⟩
    | step hx _ => cases hx
  | @binary o a b ho _ _ iha ihb =>
    cases hs with
    | refl => exact .inl ⟨fun (heq : o = _) => by simp [heq, binSem] at ho,
        fun (heq : o = _) => by simp [heq, binSem] at ho⟩
    | step hx hs =>
      rcases List.mem_pair.mp hx with rfl | rfl
      · exact iha hs
      · exact ihb hs

variable {d : Expr}

theorem operands_of_wellTyped (hwt : d.wellTyped ctx = true) (hop : d.op = .flagDef) :
  d.operands.length = Expr.flagDefArity (flagDefOp d.immediate) := by
  have hok := Expr.nodeOk_of_wellTyped hwt
  simp only [Expr.nodeOk, Bool.and_eq_true, Expr.opRuleOk, hop, beq_iff_eq] at hok
  exact hok.1.2.1

theorem operands_pair (hlen : d.operands.length = 2) :
  d.operands = [operandAt d 0, operandAt d 1] := by
  obtain ⟨a, b, hab⟩ := List.length_eq_two.mp hlen
  simp [operandAt, hab]

theorem operands_single (hlen : d.operands.length = 1) :
  d.operands = [operandAt d 0] := by
  obtain ⟨a, ha⟩ := List.length_eq_one_iff.mp hlen
  simp [operandAt, ha]

theorem rewrite_combines (hwt : d.wellTyped ctx = true) (hop : d.op = .flagDef)
  (h : rewrite d code = some r) : Combines d.operands r := by
  have hlen := operands_of_wellTyped hwt hop
  have hbool : ∀ p, Combines d.operands (Expr.boolean p) := fun p => .constant _ _
  unfold rewrite at h
  split at h
  case h_1 hkind | h_2 hkind =>
    rw [hkind] at hlen
    have ha : Combines d.operands (operandAt d 0) := .part (by rw [operands_pair hlen]; simp)
    have hb : Combines d.operands (operandAt d 1) := .part (by rw [operands_pair hlen]; simp)
    cases code <;>
      simp only [rewriteSub, rewriteAdd, Option.some.injEq, reduceCtorEq] at h <;> subst h <;>
      repeat first | exact ha | exact hb | exact hbool _ | exact .constant _ _ | refine .binary rfl ?_ ?_
  case h_3 hkind =>
    rw [hkind] at hlen
    have ha : Combines d.operands (operandAt d 0) := .part (by rw [operands_single hlen]; simp)
    cases code <;> simp only [rewriteLogical, Option.some.injEq, reduceCtorEq] at h <;> subst h <;>
      repeat first | exact ha | exact hbool _ | exact .constant _ _ | refine .binary rfl ?_ ?_
  all_goals
    unfold onlyAlways at h
    split at h
    · exact Option.some.inj h ▸ hbool true
    · exact Option.some.inj h ▸ hbool false
    · cases h

theorem rewrite_always (hcode : code = .always ∨ code = .never)
  (h : rewrite d code = some r) : r = Expr.boolean (decide (code = .always)) := by
  unfold rewrite at h
  rcases hcode with rfl | rfl <;> split at h <;> exact (Option.some.inj h).symm

theorem intTyped_operands (hwt : d.wellTyped ctx = true)
  (htypes : ∀ x ∈ d.operands, x.type = Ty.integer (flagDefWidth d.immediate)) :
  ∀ x ∈ d.operands, IntTyped ctx (flagDefWidth d.immediate) x :=
  fun x hx => ⟨Expr.wellTyped_operand hwt hx, htypes x hx⟩

theorem rewrite_typed (hwt : d.wellTyped ctx = true) (hop : d.op = .flagDef)
  (hok : Faithful code d) (h : rewrite d code = some r) : IntTyped ctx 1 r := by
  have hbool : ∀ p, IntTyped ctx 1 (Expr.boolean p) :=
    fun p => .constant (by decide) (by decide) _
  rcases hok (by rw [h]; rfl) with hcode | hcode | ⟨hw, htypes, -⟩
  · exact rewrite_always (.inl hcode) h ▸ hbool _
  · exact rewrite_always (.inr hcode) h ▸ hbool _
  · have hlen := operands_of_wellTyped hwt hop
    have hints := intTyped_operands hwt htypes
    have hcmp : ∀ {w : Nat} {o : ExprOp} {a b : Expr}, IntTyped ctx w a → IntTyped ctx w b →
        cmpOp o = true → IntTyped ctx 1 (Expr.mkBinary o a b) :=
      fun ha hb ho => ⟨(wellTyped_mkCompare ha hb ho).1, (wellTyped_mkCompare ha hb ho).2⟩
    unfold rewrite at h
    split at h
    case h_1 hkind | h_2 hkind =>
      rw [hkind] at hlen
      have ha := hints (operandAt d 0) (by rw [operands_pair hlen]; simp)
      have hb := hints (operandAt d 1) (by rw [operands_pair hlen]; simp)
      have hzero : IntTyped ctx _ _ := .constant (k := 0#64) ha.pos (by omega)
      have hsum := ha.mkBinary hb (o := .add) rfl
      have hdiff := ha.mkBinary hb (o := .sub) rfl
      cases code <;>
        simp only [rewriteSub, rewriteAdd, Option.some.injEq, reduceCtorEq] at h <;> subst h <;>
        repeat first
          | exact hbool _
          | exact hcmp ha hb rfl | exact hcmp hb ha rfl | exact hcmp hdiff hzero rfl
          | exact hcmp hzero hdiff rfl | exact hcmp hsum hzero rfl | exact hcmp hzero hsum rfl
          | exact hcmp hsum ha rfl | exact hcmp ha hsum rfl
          | refine IntTyped.mkBinary ?_ ?_ rfl
    case h_3 hkind =>
      rw [hkind] at hlen
      have ha := hints (operandAt d 0) (by rw [operands_single hlen]; simp)
      have hzero : IntTyped ctx _ _ := .constant (k := 0#64) ha.pos (by omega)
      cases code <;> simp only [rewriteLogical, Option.some.injEq, reduceCtorEq] at h <;>
        subst h <;>
        repeat first
          | exact hbool _ | exact hcmp ha hzero rfl | exact hcmp hzero ha rfl
          | refine IntTyped.mkBinary ?_ ?_ rfl
    all_goals
      unfold onlyAlways at h
      split at h
      · exact Option.some.inj h ▸ hbool true
      · exact Option.some.inj h ▸ hbool false
      · cases h

/-- A part of a definition that has a value yields it. -/
theorem yields_of_den {w : Nat} {e : Expr} {x : U128} (hfits : env.Fits ctx.integers)
  (he : IntTyped ctx w e) (hx : den env e = some x) : Yields ctx env w e x.toNat :=
  ⟨he, nat_eq_some.mpr ⟨x, hx, rfl⟩, he.bits ▸ den_lt_of_integers hfits he.wellTyped he.isInteger hx⟩

/-- **The tables.**  What a table answers for a flag definition that has a value
is the condition on its flags. -/
theorem rewrite_den {v : U128} (hfits : env.Fits ctx.integers)
  (hwt : d.wellTyped ctx = true) (hop : d.op = .flagDef) (hok : Faithful code d)
  (h : rewrite d code = some r) (hv : den env d = some v) :
  den env r = some (boolValue (evalCondition code (v.lo &&& 0xf#64))) := by
  have honly : ∀ c, code = c → c = .always ∨ c = .never →
      den env r = some (boolValue (evalCondition code (v.lo &&& 0xf#64))) := by
    rintro c rfl hc
    rw [rewrite_always hc h, (Yields.ofBool _ : Yields ctx env 1 _ _).den_eq]
    rcases hc with rfl | rfl <;> rfl
  rcases hok (by rw [h]; rfl) with hcode | hcode | ⟨hw, htypes, hls⟩
  · exact honly _ rfl (.inl hcode)
  · exact honly _ rfl (.inr hcode)
  · have hlen := operands_of_wellTyped hwt hop
    have hints := intTyped_operands hwt htypes
    obtain ⟨-, args, hargs, happ⟩ := den_some_iff.mp hv
    have hread : args.map (readArg d.op) = args :=
      List.map_id'' (fun u => by simp [readArg, hop, ExprOp.readsFlags]) args
    have hflags : v.lo = evalFlagDef (flagDefOp d.immediate) (flagDefWidth d.immediate) args := by
      rw [hread] at happ
      simp only [applyOp, hop, Except.ok.injEq] at happ
      rw [← happ]
      rfl
    rw [hflags, evalFlagDef_and]
    unfold rewrite at h
    split at h
    case h_1 hkind | h_2 hkind =>
      rw [hkind] at hlen
      rw [operands_pair hlen] at hargs hints
      obtain ⟨x, xs, hx, hxs, rfl⟩ := List.forall₂_cons_left_iff.mp hargs
      obtain ⟨y, ys, hy, hys, rfl⟩ := List.forall₂_cons_left_iff.mp hxs
      cases hys
      have hxv := yields_of_den hfits (hints _ (by simp)) hx
      have hyv := yields_of_den hfits (hints _ (by simp)) hy
      rw [hkind]
      first
        | exact (rewriteSub_yields hxv hyv hw h).den_eq
        | exact (rewriteAdd_yields hxv hyv hw h).den_eq
    case h_3 hkind =>
      rw [hkind] at hlen
      rw [operands_single hlen] at hargs hints
      obtain ⟨x, xs, hx, hxs, rfl⟩ := List.forall₂_cons_left_iff.mp hargs
      cases hxs
      have hxv := yields_of_den hfits (hints _ (by simp)) hx
      rw [hkind]
      exact (rewriteLogical_yields hxv hw (fun hcode => hls ⟨hkind, hcode⟩) h).den_eq
    all_goals
      unfold onlyAlways at h
      split at h
      · exact honly _ rfl (.inl rfl)
      · exact honly _ rfl (.inr rfl)
      · cases h

end FlagConditionRewrite

end Xdec

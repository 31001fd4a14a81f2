import Xdec.ImageEvalNodes
import Xdec.Value

/-!
# Where image evaluation computes something else

On words the evaluator and the interpreter part at two kinds of node.  A signed
comparison reads the signs of its operands at the width of its own result, one
bit, so it compares their lowest bits.  A shift whose amount is 2^32 or more
shifts everything out, where the interpreter cuts the amount to 32 bits first.
`binaryFunction_exact` says that there is no third, and exactly when the two
results differ.
-/

namespace Xdec

namespace ImageEval

open Expr

/-! ## Signs read at one bit -/

/-- A signed comparison of which the lowest bits of the operands tell something else. -/
def SignMisread (e : Expr) (x y : U64) : Prop :=
  let w := e.operandBits 0
  e.op = .cmpLtS ∧
      ¬ (biased w x.toNat < biased w y.toNat ↔ x.toNat % 2 = 1 ∧ y.toNat % 2 = 0) ∨
    e.op = .cmpLeS ∧
      ¬ (biased w x.toNat ≤ biased w y.toNat ↔ ¬ (x.toNat % 2 = 0 ∧ y.toNat % 2 = 1))

theorem signExtend_one (x : U64) :
  signExtend x 1 = if x.toNat % 2 = 1 then ~~~0#64 else 0#64 := by
  have hmod : (x &&& 1#64).toNat = x.toNat % 2 := by
    rw [BitVec.toNat_and]
    exact Nat.and_two_pow_sub_one_eq_mod x.toNat 1
  have hsplit : signExtend x 1 = ((x &&& 1#64) ^^^ 1#64) - 1#64 := rfl
  rw [hsplit]
  rcases Nat.mod_two_eq_zero_or_one x.toNat with h | h
  · have hbit : x &&& 1#64 = 0#64 := BitVec.eq_of_toNat_eq (hmod.trans h)
    rw [hbit, h]
    decide
  · have hbit : x &&& 1#64 = 1#64 := BitVec.eq_of_toNat_eq (hmod.trans h)
    rw [hbit, h]
    decide

theorem slt_one (x y : U64) :
  ((signExtend x 1).slt (signExtend y 1) = true) ↔ x.toNat % 2 = 1 ∧ y.toNat % 2 = 0 := by
  rw [signExtend_one, signExtend_one]
  rcases Nat.mod_two_eq_zero_or_one x.toNat with hx | hx <;>
    rcases Nat.mod_two_eq_zero_or_one y.toNat with hy | hy <;> simp only [hx, hy] <;> decide

theorem sle_one (x y : U64) :
  ((signExtend x 1).sle (signExtend y 1) = true) ↔ ¬ (x.toNat % 2 = 0 ∧ y.toNat % 2 = 1) := by
  rw [signExtend_one, signExtend_one]
  rcases Nat.mod_two_eq_zero_or_one x.toNat with hx | hx <;>
    rcases Nat.mod_two_eq_zero_or_one y.toNat with hy | hy <;> simp only [hx, hy] <;> decide

/-! ## Amounts of 2^32 and more -/

/-- What a shift by a number of bits leaves. -/
def shifted (op : ExprOp) (width : Nat) (x : U64) (n : Nat) : U64 :=
  maskTo width
    (if op = .shl then (if n ≥ width then 0#64 else x <<< n)
    else if op = .shrU then (if n ≥ width then 0#64 else maskTo width x >>> n)
    else if n ≥ width then (if (signExtend x width).msb then ~~~0#64 else 0#64)
    else (signExtend x width).sshiftRight n)

def isShift (op : ExprOp) : Bool := op == .shl || op == .shrU || op == .shrS

/-- An amount whose low 32 bits do not shift everything out. -/
def ShiftMisread (e : Expr) (x y : U64) : Prop :=
  isShift e.op = true ∧ 2 ^ 32 ≤ y.toNat ∧
    shifted e.op e.bits x (y.toNat % 2 ^ 32) ≠ shifted e.op e.bits x e.bits

/-- Every amount from the width on shifts alike. -/
theorem shifted_out {op : ExprOp} {width n : Nat} {x : U64} (h : width ≤ n) :
  shifted op width x n = shifted op width x width := by
  simp only [shifted, ge_iff_le, h, Nat.le_refl, if_true]

/-! ## One node -/

section Node

variable {env : Env} {ctx : Ctx} {e a b : Expr} {o : ExprOp} {t : Ty} {i x y : U64} {v : U128}
  {apply : U64 → U64 → U64} {width : Nat}

theorem shiftAmount_of_word (y : U64) : shiftAmount (word y) = y.toNat % 2 ^ 32 := by
  rw [shiftAmount_eq, word_toNat]

theorem shift_value (ho : isShift o = true) (hpos : 0 < t.bits) (hw : t.bits ≤ 64)
  (hx : x.toNat < 2 ^ t.bits)
  (h : applyOp env (binary o t i a b) [word x, word y] = .ok v) :
  v = word (shifted o t.bits x (y.toNat % 2 ^ 32)) := by
  have hy : (BitVec.ofNat 64 (y.toNat % 2 ^ 32)).toNat = y.toNat % 2 ^ 32 := by
    rw [BitVec.toNat_ofNat]
    omega
  have hshl := shl_word (x := x) (y := BitVec.ofNat 64 (y.toNat % 2 ^ 32)) hw
  have hshrU := shrU_word (y := BitVec.ofNat 64 (y.toNat % 2 ^ 32)) hx
  have hshrS := shrS_word (y := BitVec.ofNat 64 (y.toNat % 2 ^ 32)) hpos hw hx
  rw [hy] at hshl hshrU hshrS
  have hcases : o = .shl ∨ o = .shrU ∨ o = .shrS := by
    simpa [isShift, or_assoc] using ho
  rcases hcases with rfl | rfl | rfl
  · have hv := Except.ok.inj h
    rw [← hv, List.getD_cons_zero, List.getD_cons_succ, List.getD_cons_zero, shiftAmount_of_word]
    exact hshl
  · have hv := Except.ok.inj h
    rw [← hv, List.getD_cons_zero, List.getD_cons_succ, List.getD_cons_zero, shiftAmount_of_word]
    exact hshrU
  · have hv := Except.ok.inj h
    rw [← hv, List.getD_cons_zero, List.getD_cons_succ, List.getD_cons_zero, shiftAmount_of_word]
    exact hshrS

theorem shift_apply (ho : isShift o = true)
  (hfunction : binaryFunction o t.bits = some (apply, width)) :
  maskTo width (apply x y) = shifted o t.bits x y.toNat ∧ width = t.bits := by
  have hcases : o = .shl ∨ o = .shrU ∨ o = .shrS := by
    simpa [isShift, or_assoc] using ho
  rcases hcases with rfl | rfl | rfl <;>
    simp only [binaryFunction, Option.some.injEq, Prod.mk.injEq] at hfunction <;>
    obtain ⟨rfl, rfl⟩ := hfunction <;> exact ⟨rfl, rfl⟩

theorem compare_value {f : Nat → Nat → Nat → Nat} (hf : binSem o = some f)
  (hsame : o.info.result ≠ .sameAsOperands) (hpos : 0 < a.bits) (hw : a.bits ≤ 128)
  (hx : x.toNat < 2 ^ a.bits) (hy : y.toNat < 2 ^ a.bits)
  (h : applyOp env (binary o t i a b) [word x, word y] = .ok v) :
  v.toNat = f a.bits x.toNat y.toNat := by
  obtain ⟨u, hu, hnat⟩ := applyOp_binary env (t := t) (i := i) (b := b) hf hpos hw
    (fun h => absurd h hsame) (x := word x) (y := word y) (by rwa [word_toNat])
    (by rwa [word_toNat])
  obtain rfl := Except.ok.inj (hu.symm.trans h)
  rw [hnat, word_toNat, word_toNat]

theorem word_bit_eq_iff {p : Prop} [Decidable p] {q : Bool} (hv : v.toNat = truth p) :
  v = word (maskTo 1 (bit q)) ↔ (p ↔ q = true) := by
  have hbit : (maskTo 1 (bit q)).toNat = truth (q = true) := by cases q <;> rfl
  constructor
  · intro h
    rw [h, word_toNat, hbit] at hv
    unfold truth at hv
    by_cases hp : p <;> by_cases hq : q = true <;> simp_all
  · intro h
    refine eq_word ?_
    rw [hv, hbit]
    simp only [truth, h]

/-- **One node.**  The evaluator computes what the interpreter does but at the two
misread kinds. -/
theorem binaryFunction_exact (hverified : (binary o t i a b).nodeVerified ctx = true)
  (hfunction : binaryFunction o t.bits = some (apply, width)) (hwidth : widthOk width = true)
  (hx : x.toNat < 2 ^ a.bits) (hy : y.toNat < 2 ^ b.bits) (hw : a.bits ≤ 128)
  (h : applyOp env (binary o t i a b) [word x, word y] = .ok v) :
  v = word (maskTo width (apply x y)) ↔
    ¬ (SignMisread (binary o t i a b) x y ∨ ShiftMisread (binary o t i a b) x y) := by
  obtain ⟨hsame, hbool⟩ := operandBits_binary hverified
  by_cases hsigned : o = .cmpLtS ∨ o = .cmpLeS
  · have hshift : ¬ ShiftMisread (binary o t i a b) x y := by
      rintro ⟨ho, -⟩
      rcases hsigned with rfl | rfl <;> cases ho
    rw [or_iff_left hshift]
    by_cases hzero : a.bits = 0
    · -- Two values without a bit.
      have hfair : BinaryFair (binary o t i a b) y :=
        ⟨fun _ => hzero.le.trans (by decide), fun hs => by
          rcases hsigned with rfl | rfl <;> simp at hs⟩
      refine iff_of_true (binaryFunction_apply rfl hverified hfunction hwidth hx hy hfair h) ?_
      have hb : b.bits = 0 := by
        rcases hsigned with rfl | rfl <;> exact (hbool rfl).2.trans hzero
      rw [hzero] at hx
      rw [hb] at hy
      have hoperand : (binary o t i a b).operandBits 0 = 0 := hzero
      have hx0 : x.toNat = 0 := by omega
      have hy0 : y.toNat = 0 := by omega
      simp [SignMisread, hoperand, hx0, hy0]
    · have hpos : 0 < a.bits := Nat.pos_of_ne_zero hzero
      have hoperand : (binary o t i a b).operandBits 0 = a.bits := rfl
      rcases hsigned with rfl | rfl
      · obtain ⟨hone, hab⟩ := hbool rfl
        simp only [binaryFunction, Option.some.injEq, Prod.mk.injEq] at hfunction
        obtain ⟨rfl, rfl⟩ := hfunction
        have hv := compare_value rfl (by decide) hpos hw hx (hab ▸ hy) h
        rw [word_bit_eq_iff hv, hone, slt_one]
        simp [SignMisread, hoperand]
      · obtain ⟨hone, hab⟩ := hbool rfl
        simp only [binaryFunction, Option.some.injEq, Prod.mk.injEq] at hfunction
        obtain ⟨rfl, rfl⟩ := hfunction
        have hv := compare_value rfl (by decide) hpos hw hx (hab ▸ hy) h
        rw [word_bit_eq_iff hv, hone, sle_one]
        simp [SignMisread, hoperand]
  · by_cases hshift : isShift o = true
    · have hsign : ¬ SignMisread (binary o t i a b) x y :=
        fun hs => hsigned (hs.imp And.left And.left)
      simp only [widthOk, Bool.and_eq_true, decide_eq_true_eq] at hwidth
      obtain ⟨happly, rfl⟩ := shift_apply (x := x) (y := y) hshift hfunction
      have hres : o.info.result = .sameAsOperands := by
        have hcases : o = .shl ∨ o = .shrU ∨ o = .shrS := by
          simpa [isShift, or_assoc] using hshift
        rcases hcases with rfl | rfl | rfl <;> rfl
      rw [(hsame hres).1] at hx
      rw [or_iff_right hsign, happly, shift_value hshift hwidth.1 hwidth.2 hx h]
      have hinj : ∀ p q : U64, word p = word q ↔ p = q :=
        fun p q => ⟨fun heq => congrArg U128.lo heq, fun heq => heq ▸ rfl⟩
      rw [hinj, ShiftMisread]
      simp only [op_binary, hshift, true_and, not_and, not_not]
      rcases Nat.lt_or_ge y.toNat (2 ^ 32) with hlt | hge
      · refine iff_of_true (by rw [Nat.mod_eq_of_lt hlt]) fun hge => ?_
        omega
      · have hout : t.bits ≤ y.toNat := hwidth.2.trans ((by decide : 64 ≤ 2 ^ 32).trans hge)
        rw [shifted_out hout]
        exact ⟨fun heq _ => heq, fun himp => himp hge⟩
    · have hfair : BinaryFair (binary o t i a b) y :=
        ⟨fun hs => absurd hs hsigned, fun hs => by
          rcases hs with hs | hs | hs <;> rw [op_binary] at hs <;> subst hs <;>
            exact absurd rfl hshift⟩
      refine iff_of_true (binaryFunction_apply rfl hverified hfunction hwidth hx hy hfair h) ?_
      rintro (hs | hs)
      · exact hsigned (hs.imp And.left And.left)
      · exact hshift hs.1

end Node

end ImageEval

end Xdec

import Xdec.CForms
import Xdec.FlagConditions

/-!
# Printed flag conditions

`printFlagCond` spells a condition over a flag definition as a C expression.
Where one comparison of the operands says it the comparison is printed; the
conditions that need the overflow bit are left to `cc_<condition><width>` of
`xdec_helpers.h`, which rebuild it from a subtraction of their arguments.

The helpers have the polarity of the overflow bit reversed: a difference of
operands of opposite sign overflows when its sign is not that of the first one,
and they test that it is (`ccBody_eq`).  They are also called for the flags of a
sum.  `FlagExact` is when a printed condition is right all the same.
-/

namespace Xdec

namespace ExprPrinter

open Xdec.Expr FlagConditionRewrite

/-- The conditions the header defines. -/
def ccKnown : List ConditionCode :=
  [.signedGreaterEqual, .signedLess, .signedGreater, .signedLessEqual, .overflow, .noOverflow]

def ccHelper (code : ConditionCode) (width : Nat) (a b : CText) : CText :=
  if code ∈ ccKnown then .call2 (.cc code width) a b else .call2 (.flagcondStub code) a b

def flagFromNzcv (code : ConditionCode) (nzcv : U64) : CText :=
  let n : Bool := (nzcv >>> 3) &&& 1#64 ≠ 0#64
  let z : Bool := (nzcv >>> 2) &&& 1#64 ≠ 0#64
  let c : Bool := (nzcv >>> 1) &&& 1#64 ≠ 0#64
  let v : Bool := nzcv &&& 1#64 ≠ 0#64
  let result :=
    match code with
    | .equal => z
    | .notEqual => !z
    | .carrySet => c
    | .carryClear => !c
    | .negative => n
    | .nonNegative => !n
    | .overflow => v
    | .noOverflow => !v
    | .unsignedGreater => c && !z
    | .unsignedLessEqual => !c || z
    | .signedGreaterEqual => n == v
    | .signedLess => n != v
    | .signedGreater => !z && (n == v)
    | .signedLessEqual => z || (n != v)
    | .always => true
    | .never | .count => false
  .lit (if result then 1 else 0)

/-- The table of `printFlagCond` for the texts of the two operands. -/
def flagText (flagOp : FlagOp) (code : ConditionCode) (width : Nat) (a b : CText) : CText :=
  let u := intType width false
  let s := intType width true
  match flagOp with
  | .sub =>
    match code with
    | .equal => .binary .eq a b
    | .notEqual => .binary .ne a b
    | .carrySet => .binary .ge (.cast u a) (.cast u b)
    | .carryClear => .binary .lt (.cast u a) (.cast u b)
    | .unsignedGreater => .binary .gt (.cast u a) (.cast u b)
    | .unsignedLessEqual => .binary .le (.cast u a) (.cast u b)
    | .negative => .binary .lt (.cast s (.binary .sub (.cast u a) (.cast u b))) (.lit 0)
    | .nonNegative => .binary .ge (.cast s (.binary .sub (.cast u a) (.cast u b))) (.lit 0)
    | _ => ccHelper code width a b
  | .logical =>
    match code with
    | .equal => .binary .eq a (.lit 0)
    | .notEqual => .binary .ne a (.lit 0)
    | .negative => .binary .lt (.cast s a) (.lit 0)
    | .nonNegative => .binary .ge (.cast s a) (.lit 0)
    | .carrySet | .overflow => .lit 0
    | .carryClear | .noOverflow => .lit 1
    | _ => ccHelper code width a (.lit 0)
  | .add =>
    match code with
    | .equal => .binary .eq (.cast u (.binary .add a b)) (.lit 0)
    | .notEqual => .binary .ne (.cast u (.binary .add a b)) (.lit 0)
    | .negative => .binary .lt (.cast s (.cast u (.binary .add a b))) (.lit 0)
    | .nonNegative => .binary .ge (.cast s (.cast u (.binary .add a b))) (.lit 0)
    | _ => ccHelper code width a b
  | _ => .call2 (.flagcondStub code) a b

/-- The texts of the operands, zero where there is none. -/
def operandTexts (integerOperand : Expr → PrintM CText) (flagDef : Expr) :
    PrintM (CText × CText) := do
  let a ← if 1 ≤ flagDef.operandCount then integerOperand (operandAt flagDef 0) else pure (.lit 0)
  let b ← if 2 ≤ flagDef.operandCount then integerOperand (operandAt flagDef 1) else pure (.lit 0)
  return (a, b)

def printFlagCond (integerOperand : Expr → PrintM CText) (e : Expr) : PrintM CText := do
  let code := conditionOf e.immediate
  let flagDef := operandAt e 0
  if flagDef.op ≠ .flagDef then return .lit 0
  let flagOp := flagDefOp flagDef.immediate
  let width := flagDefWidth flagDef.immediate
  if flagOp = .const then
    -- Literal NZCV in bits 3..0 of the constant operand.
    let bundle := operandAt flagDef 0
    if bundle.op = .const then return flagFromNzcv code (bundle.immediate &&& 0xf#64)
    return .lit 0
  let (a, b) ← operandTexts integerOperand flagDef
  return flagText flagOp code width a b

/-- A call of the stub the header leaves to the embedder. -/
def isStub : CText → Bool
  | .call2 (.flagcondStub _) _ _ => true
  | _ => false

/-! ## When the overflow bit of the helpers does no harm -/

/-- For the helper's condition on the flags of a sum, which it takes for those
of a difference; `a` and `b` are the signed operands. -/
def SumMatches (half : Int) (a b : Int) : ConditionCode → Prop
  | .signedGreaterEqual | .signedLess =>
    (0 ≤ a ∧ 0 ≤ b ∧ b ≤ a) ∨ (a < 0 ∧ b < 0 ∧ a < b) ∨ (a < 0 ∧ 0 ≤ b ∧ 0 ≤ a + b) ∨
      (0 ≤ a ∧ b < 0 ∧ a + b < 0)
  | .signedGreater | .signedLessEqual =>
    (0 ≤ a ∧ 0 ≤ b ∧ (b < a ∨ a = 0 ∧ b = 0)) ∨ (a < 0 ∧ b < 0 ∧ a ≤ b) ∨
      (a < 0 ∧ 0 ≤ b ∧ 0 < a + b) ∨ (0 ≤ a ∧ b < 0 ∧ a + b ≤ 0)
  | _ =>
    ((a < 0 ↔ b < 0) ∧ -half ≤ a + b ∧ a + b < half) ∨
      (¬ (a < 0 ↔ b < 0) ∧ ¬ (-half ≤ a - b ∧ a - b < half))

/-- The sum of two texts is made in type `c`, where it may be undefined, or wrap
to zero at less than the width. -/
def SumExact (w : Nat) (code : ConditionCode) (c : CType) (x y : Nat) : Prop :=
  (c.signed = true → x + y < 2 ^ (c.bits - 1)) ∧
    (code = .equal ∨ code = .notEqual → c.signed = false → c.bits < w → x + y ≠ 2 ^ c.bits)

/-- When the text of a condition is right for operands `x` and `y` whose texts
have the types `s` and `t`. -/
def FlagExact (flagOp : FlagOp) (code : ConditionCode) (w : Nat) (s t : CType) (x y : Nat) :
    Prop :=
  match flagOp with
  | .sub => code ∈ ccKnown → (sgn w x < 0 ↔ sgn w y < 0)
  | .logical => code ∈ ccKnown → code ≠ .overflow → code ≠ .noOverflow → 0 ≤ sgn w x
  | .add => if code ∈ ccKnown then SumMatches (2 ^ (w - 1)) (sgn w x) (sgn w y) code
      else SumExact w code (CType.common s t) x y
  | _ => True

section Helpers

variable {w x y r : Nat} {code : ConditionCode}

/-- What a helper returns: the condition of the difference with the test for
overflow the other way. -/
theorem ccBody_eq (hw : CWidth w) (hne : w ≠ 1) (hx : x < 2 ^ w) (hy : y < 2 ^ w)
  (hr : r = (x + (2 ^ w - y)) % 2 ^ w) (hcode : code ∈ ccKnown) (c : Bool) :
  CHelper.ccBody w code x y =
    some (code.test (2 ^ (w - 1) ≤ r) (r = 0) c
      (decide (2 ^ (w - 1) ≤ x) != decide (2 ^ (w - 1) ≤ y) &&
        decide (2 ^ (w - 1) ≤ r) == decide (2 ^ (w - 1) ≤ x))) := by
  have hrlt : r < 2 ^ w := hr ▸ Nat.mod_lt _ (Nat.two_pow_pos w)
  have hint : intType w true = ⟨w, true⟩ := intType_of_ne hne true
  have hread : ∀ {n : Nat}, n < 2 ^ w → CType.convert ⟨w, true⟩ (n : Int) = sgn w n := by
    intro n hn
    rw [← hint, convert_signed_eq hw hne hn (Int.ModEq.refl _)]
  have hdiff : CHelper.ccDifference w x y = sgn w r := by
    have hmod : (x : Int) - y ≡ r [ZMOD 2 ^ w] := by
      have hcast : ((x + (2 ^ w - y) : Nat) : Int) = x - y + 2 ^ w := by
        push_cast [hy.le]
        ring
      have hself : ((x + (2 ^ w - y) : Nat) : Int) ≡ r [ZMOD 2 ^ w] := by
        rw [hr]
        push_cast
        exact (Int.mod_modEq _ _).symm
      rw [hcast] at hself
      exact (Int.modEq_iff_dvd.mpr ⟨1, by ring⟩ : (x : Int) - y ≡ x - y + 2 ^ w [ZMOD 2 ^ w]).trans
        hself
    rw [CHelper.ccDifference, ← hint, convert_signed_eq hw hne hrlt hmod]
  have hzero : sgn w r = 0 ↔ r = 0 := by
    have hhalf := two_pow_half hw.pos
    have hr' : (r : Int) < 2 ^ w := by exact_mod_cast hrlt
    unfold sgn
    split <;> omega
  have hnonneg : ∀ {n : Nat}, n < 2 ^ w → (decide (sgn w n ≥ 0) = !decide (2 ^ (w - 1) ≤ n)) := by
    intro n hn
    have := sgn_neg_iff hn
    rw [← decide_not, decide_eq_decide]
    omega
  have hneg : decide (sgn w r < 0) = decide (2 ^ (w - 1) ≤ r) := by
    rw [decide_eq_decide, sgn_neg_iff hrlt]
  have hover : CHelper.ccOverflow w x y =
      (decide (2 ^ (w - 1) ≤ x) != decide (2 ^ (w - 1) ≤ y) &&
        decide (2 ^ (w - 1) ≤ r) == decide (2 ^ (w - 1) ≤ x)) := by
    unfold CHelper.ccOverflow
    simp only [hdiff, hread hx, hread hy, hnonneg hx, hnonneg hy, hneg]
    cases decide (2 ^ (w - 1) ≤ x) <;> cases decide (2 ^ (w - 1) ≤ y) <;>
      cases decide (2 ^ (w - 1) ≤ r) <;> rfl
  unfold CHelper.ccBody
  simp only [hover, hdiff, hneg, hzero]
  cases code <;> simp [ccKnown] at hcode <;> simp [ConditionCode.test, hzero]

variable {sx sy sr z c : Bool} {P q : Nat} {a b : Int}

/-- The flags of a difference: right where the signs agree. -/
theorem test_sub_iff (hz : z = true → sr = false ∧ sx = sy)
  (hcode : code ∈ ccKnown) :
  code.test sr z c (sx != sy && sr == sx) = code.test sr z c (sx != sy && sr != sx) ↔
    sx = sy := by
  revert hz
  cases code <;> simp [ccKnown] at hcode <;>
    cases sx <;> cases sy <;> cases sr <;> cases z <;> simp [ConditionCode.test]

/-- The flags of a result, which has no overflow. -/
theorem test_logical_iff {c' : Bool} (hz : z = true → sx = false) (hcode : code ∈ ccKnown)
  (hvs : code ≠ .overflow) (hvc : code ≠ .noOverflow) :
  code.test sx z c (sx != false && sx == sx) = code.test sx z c' false ↔ sx = false := by
  revert hz
  cases code <;> simp [ccKnown] at hcode hvs hvc <;> cases sx <;> cases z <;>
    simp [ConditionCode.test]

/-- What the helpers decide.  Where the signs of the operands differ it is the
sign of the first one that decides. -/
def helperTest (sx sy sr z : Bool) : ConditionCode → Bool
  | .signedGreaterEqual => if sx = sy then !sr else sx
  | .signedLess => !(if sx = sy then !sr else sx)
  | .signedGreater => if sx = sy then !z && !sr else sx
  | .signedLessEqual => !(if sx = sy then !z && !sr else sx)
  | .overflow => sx != sy && sr == sx
  | _ => !(sx != sy && sr == sx)

theorem test_known (hz : z = true → sr = false ∧ sx = sy)
  (hcode : code ∈ ccKnown) :
  code.test sr z c (sx != sy && sr == sx) = helperTest sx sy sr z code := by
  revert hz
  cases code <;> simp [ccKnown] at hcode <;>
    cases sx <;> cases sy <;> cases sr <;> cases z <;> simp [ConditionCode.test, helperTest]

theorem sum_flags (hP : 0 < P)
  (ha : x < P ∧ a = x ∨ P ≤ x ∧ x < 2 * P ∧ a = x - 2 * P)
  (hb : y < P ∧ b = y ∨ P ≤ y ∧ y < 2 * P ∧ b = y - 2 * P)
  (hq : x + y < 2 * P ∧ q = x + y ∨ 2 * P ≤ x + y ∧ q + 2 * P = x + y) :
  ((P ≤ q ↔ ((P ≤ x ↔ P ≤ y) ∧ ¬ (P ≤ q ↔ P ≤ x))) ↔ 0 ≤ a + b) ∧
    (((P ≤ x ↔ P ≤ y) ∧ ¬ (P ≤ q ↔ P ≤ x)) ↔ ¬ (-(P : Int) ≤ a + b ∧ a + b < P)) ∧
    (q = 0 ↔ a + b = 0 ∨ a + b = -2 * P) := by
  rcases ha with ⟨h1, rfl⟩ | ⟨h1, h1', rfl⟩ <;> rcases hb with ⟨h2, rfl⟩ | ⟨h2, h2', rfl⟩ <;>
    rcases hq with ⟨h3, rfl⟩ | ⟨h3, h3'⟩ <;> refine ⟨?_, ?_, ?_⟩ <;> omega

theorem diff_flags (hP : 0 < P)
  (ha : x < P ∧ a = x ∨ P ≤ x ∧ x < 2 * P ∧ a = x - 2 * P)
  (hb : y < P ∧ b = y ∨ P ≤ y ∧ y < 2 * P ∧ b = y - 2 * P)
  (hr : y ≤ x ∧ r = x - y ∨ x < y ∧ r + y = x + 2 * P) :
  ((P ≤ x ↔ P ≤ y) → (P ≤ r ↔ a < b) ∧ (r = 0 ↔ a = b)) ∧
    (¬ (P ≤ x ↔ P ≤ y) → ((P ≤ r ↔ P ≤ x) ↔ (-(P : Int) ≤ a - b ∧ a - b < P)) ∧ r ≠ 0) ∧
    (P ≤ x ↔ a < 0) ∧ (P ≤ y ↔ b < 0) := by
  rcases ha with ⟨h1, rfl⟩ | ⟨h1, h1', rfl⟩ <;> rcases hb with ⟨h2, rfl⟩ | ⟨h2, h2', rfl⟩ <;>
    rcases hr with ⟨h3, rfl⟩ | ⟨h3, h3'⟩ <;> refine ⟨?_, ?_, ?_, ?_⟩ <;> omega

/-- A condition on the flags of a sum, about its signed operands. -/
def sumTest (half : Int) (a b : Int) : ConditionCode → Bool
  | .signedGreaterEqual => decide (0 ≤ a + b)
  | .signedLess => decide (a + b < 0)
  | .signedGreater => decide (0 < a + b)
  | .signedLessEqual => decide (a + b ≤ 0)
  | .overflow => decide (¬ (-half ≤ a + b ∧ a + b < half))
  | _ => decide (-half ≤ a + b ∧ a + b < half)

theorem test_sum
  (hn : (P ≤ q ↔ ((P ≤ x ↔ P ≤ y) ∧ ¬ (P ≤ q ↔ P ≤ x))) ↔ 0 ≤ a + b)
  (hv : ((P ≤ x ↔ P ≤ y) ∧ ¬ (P ≤ q ↔ P ≤ x)) ↔ ¬ (-(P : Int) ≤ a + b ∧ a + b < P))
  (hz : q = 0 ↔ a + b = 0 ∨ a + b = -2 * P) (hcode : code ∈ ccKnown) :
  code.test (P ≤ q) (q = 0) c
      (decide (P ≤ x) == decide (P ≤ y) && decide (P ≤ q) != decide (P ≤ x)) =
    sumTest P a b code := by
  have hover : (decide (P ≤ x) == decide (P ≤ y) && decide (P ≤ q) != decide (P ≤ x)) =
      decide ((P ≤ x ↔ P ≤ y) ∧ ¬ (P ≤ q ↔ P ≤ x)) := by
    rw [Bool.eq_iff_iff]
    simp
  rw [hover]
  generalize hnv : decide ((P ≤ x ↔ P ≤ y) ∧ ¬ (P ≤ q ↔ P ≤ x)) = ovf
  have hge : (decide (P ≤ q) == ovf) = decide (0 ≤ a + b) := by
    rw [← hnv, Bool.eq_iff_iff, beq_iff_eq, decide_eq_decide, decide_eq_true_eq]
    exact hn
  have hlt : (decide (P ≤ q) != ovf) = decide (a + b < 0) := by
    rw [bne, hge, ← decide_not, decide_eq_decide]
    omega
  have hvs : ovf = decide (¬ (-(P : Int) ≤ a + b ∧ a + b < P)) := by
    rw [← hnv, decide_eq_decide]
    exact hv
  have hzero : decide (q = 0) = decide (a + b = 0 ∨ a + b = -2 * P) := decide_eq_decide.mpr hz
  cases code <;> simp [ccKnown] at hcode <;>
    simp only [ConditionCode.test, sumTest, hge, hlt, hzero]
  case overflow => exact hvs
  case noOverflow =>
    rw [hvs, Bool.eq_iff_iff]
    simp
  all_goals
    rw [Bool.eq_iff_iff]
    simp
    omega

theorem helperTest_sum_iff {half : Int} (hcode : code ∈ ccKnown)
  (ha : -half ≤ a ∧ a < half) (hb : -half ≤ b ∧ b < half)
  (hsx : sx = decide (a < 0)) (hsy : sy = decide (b < 0))
  (hsame : sx = sy → sr = decide (a < b) ∧ z = decide (a = b))
  (hother : sx ≠ sy → (sr == sx) = decide (-half ≤ a - b ∧ a - b < half)) :
  helperTest sx sy sr z code = sumTest half a b code ↔ SumMatches half a b code := by
  subst hsx hsy
  by_cases hs : decide (a < 0) = decide (b < 0)
  · obtain ⟨rfl, rfl⟩ := hsame hs
    have hs' := decide_eq_decide.mp hs
    clear hsame hother
    cases code <;> simp [ccKnown] at hcode <;>
      simp only [helperTest, sumTest, SumMatches, if_pos hs] <;>
      rw [Bool.eq_iff_iff] <;> simp <;> omega
  · have hd := hother hs
    have hs' : ¬ (a < 0 ↔ b < 0) := fun h => hs (decide_eq_decide.mpr h)
    clear hsame hother
    cases code <;> simp [ccKnown] at hcode <;>
      simp only [helperTest, sumTest, SumMatches, if_neg hs, bne_iff_ne.mpr hs, Bool.true_and,
        hd] <;>
      rw [Bool.eq_iff_iff] <;> simp <;> omega

/-- The signed reading, with half the size of the width as the unit. -/
theorem sgn_cases (hw : 0 < w) (hx : x < 2 ^ w) :
  x < 2 ^ (w - 1) ∧ sgn w x = x ∨
    2 ^ (w - 1) ≤ x ∧ x < 2 * 2 ^ (w - 1) ∧ sgn w x = x - 2 * (2 ^ (w - 1) : Nat) := by
  have hhalf := two_pow_half hw
  have hcast : (2 : Int) ^ w = 2 * (2 ^ (w - 1) : Nat) := by exact_mod_cast hhalf
  unfold sgn
  split
  · exact Or.inl ⟨‹_›, rfl⟩
  · exact Or.inr ⟨by omega, by omega, by rw [hcast]⟩

/-- The flags of a sum: right where the condition of the sum is the one of the
difference that the helpers test. -/
theorem test_add_iff (hw : 0 < w) (hx : x < 2 ^ w) (hy : y < 2 ^ w)
  (hr : r = (x + (2 ^ w - y)) % 2 ^ w) (hq : q = (x + y) % 2 ^ w)
  (hcode : code ∈ ccKnown) (c c' : Bool) :
  code.test (2 ^ (w - 1) ≤ r) (r = 0) c
      (decide (2 ^ (w - 1) ≤ x) != decide (2 ^ (w - 1) ≤ y) &&
        decide (2 ^ (w - 1) ≤ r) == decide (2 ^ (w - 1) ≤ x)) =
    code.test (2 ^ (w - 1) ≤ q) (q = 0) c'
      (decide (2 ^ (w - 1) ≤ x) == decide (2 ^ (w - 1) ≤ y) &&
        decide (2 ^ (w - 1) ≤ q) != decide (2 ^ (w - 1) ≤ x)) ↔
    SumMatches (2 ^ (w - 1)) (sgn w x) (sgn w y) code := by
  have hhalf := two_pow_half hw
  have hpos : 0 < 2 ^ (w - 1) := Nat.two_pow_pos _
  have hsum : x + y < 2 * 2 ^ (w - 1) ∧ q = x + y ∨
      2 * 2 ^ (w - 1) ≤ x + y ∧ q + 2 * 2 ^ (w - 1) = x + y := by
    rw [← hhalf, hq]
    by_cases h : x + y < 2 ^ w
    · exact Or.inl ⟨h, Nat.mod_eq_of_lt h⟩
    · rw [Nat.mod_eq_sub_mod (by omega), Nat.mod_eq_of_lt (by omega)]
      omega
  have hdiff : y ≤ x ∧ r = x - y ∨ x < y ∧ r + y = x + 2 * 2 ^ (w - 1) := by
    rw [← hhalf, hr]
    by_cases h : x < y
    · rw [Nat.mod_eq_of_lt (by omega)]
      omega
    · rw [Nat.mod_eq_sub_mod (by omega), Nat.mod_eq_of_lt (by omega)]
      omega
  have hcast : (2 : Int) ^ (w - 1) = (2 ^ (w - 1) : Nat) := by push_cast; rfl
  obtain ⟨hn, hv, hz⟩ := sum_flags hpos (sgn_cases hw hx) (sgn_cases hw hy) hsum
  obtain ⟨hsame, hother, hsx, hsy⟩ := diff_flags hpos (sgn_cases hw hx) (sgn_cases hw hy) hdiff
  have hranges := And.intro (sgn_range hw hx) (sgn_range hw hy)
  rw [hcast] at hranges
  rw [test_known (by simp only [decide_eq_true_eq, decide_eq_false_iff_not, decide_eq_decide]
                     omega) hcode]
  rw [hcast]
  generalize sgn w x = a at *
  generalize sgn w y = b at *
  generalize 2 ^ (w - 1) = P at *
  rw [test_sum hn hv hz hcode]
  refine helperTest_sum_iff hcode hranges.1 hranges.2 (decide_eq_decide.mpr hsx)
    (decide_eq_decide.mpr hsy) ?_ ?_
  · intro hs
    obtain ⟨hneg, heq⟩ := hsame (decide_eq_decide.mp hs)
    exact ⟨decide_eq_decide.mpr hneg, decide_eq_decide.mpr heq⟩
  · intro hs
    obtain ⟨hneg, -⟩ := hother fun h => hs (decide_eq_decide.mpr h)
    rw [Bool.eq_iff_iff, beq_iff_eq, decide_eq_decide, decide_eq_true_eq]
    exact hneg

end Helpers

/-! ## Values of the texts -/

/-- In the scope of `vars` the text stands for the number `x` of width `w`. -/
structure Reads (stubs : Stubs) (vars : CName → Option Int) (w : Nat) (c : CText) (x : Nat) :
    Prop where
  std : (c.typeOf (CHelper.library stubs)).Std
  range : (c.typeOf (CHelper.library stubs)).InRange x
  eval_eq : c.eval (CHelper.library stubs) vars = some (x : Int)
  lt : x < 2 ^ w

theorem truthInt_inj {p q : Prop} [Decidable p] [Decidable q] :
  truthInt p = truthInt q ↔ (p ↔ q) := by
  unfold truthInt
  by_cases hp : p <;> by_cases hq : q <;> simp [hp, hq]

theorem cWidth_of_declared {w : Nat} (h : CHelper.declared w = true) : CWidth w ∧ w ≠ 1 := by
  simp only [CHelper.declared, Bool.or_eq_true, beq_iff_eq] at h
  unfold CWidth
  omega

section Texts

variable {stubs : Stubs} {vars : CName → Option Int} {w x y : Nat} {a b c : CText}

theorem reads_zero : Reads stubs vars w (.lit 0) 0 where
  std := Or.inr (Or.inr (Or.inr (Or.inl rfl)))
  range := by
    show CType.int.InRange 0
    decide
  eval_eq := rfl
  lt := Nat.two_pow_pos w

theorem Reads.cast (hw : CWidth w) (hne : w ≠ 1) (h : Reads stubs vars w c x) :
  Reads stubs vars w (.cast (intType w false) c) x := by
  have hr : (intType w false).InRange x := by
    rw [intType_of_ne hne, CType.inRange_unsigned rfl]
    exact ⟨Int.natCast_nonneg x, by exact_mod_cast h.lt⟩
  refine ⟨intType_std hw false, hr, ?_, h.lt⟩
  rw [CExpr.eval, h.eval_eq, Option.map_some, CType.convert_of_inRange (intType_std hw false) hr]

theorem Reads.compare (ha : Reads stubs vars w a x) (hb : Reads stubs vars w b y) (op : CBinary) :
  CExpr.eval (CHelper.library stubs) vars (.binary op a b) =
    op.apply (a.typeOf (CHelper.library stubs)) (b.typeOf (CHelper.library stubs)) x y ∧
  (CType.common (a.typeOf (CHelper.library stubs)) (b.typeOf (CHelper.library stubs))).convert x
    = x ∧
  (CType.common (a.typeOf (CHelper.library stubs)) (b.typeOf (CHelper.library stubs))).convert y
    = y := by
  refine ⟨by rw [CExpr.eval, ha.eval_eq, hb.eval_eq, Option.bind_some, Option.bind_some], ?_, ?_⟩
  · exact convert_nonneg_left ha.std hb.std ha.range (Int.natCast_nonneg x)
  · exact convert_nonneg_right ha.std hb.std hb.range (Int.natCast_nonneg y)

theorem signed_compare {v : Int} {r : Nat} (hw : CWidth w) (hne : w ≠ 1) (hr : r < 2 ^ w)
  (hv : c.eval (CHelper.library stubs) vars = some v) (h : v ≡ r [ZMOD 2 ^ w]) :
  CExpr.eval (CHelper.library stubs) vars (.binary .lt (.cast (intType w true) c) (.lit 0)) =
      some (truthInt (2 ^ (w - 1) ≤ r)) ∧
    CExpr.eval (CHelper.library stubs) vars (.binary .ge (.cast (intType w true) c) (.lit 0)) =
      some (truthInt (¬ 2 ^ (w - 1) ≤ r)) := by
  have hs := intType_std hw true
  have hint : CType.int.Std := Or.inr (Or.inr (Or.inr (Or.inl rfl)))
  have hsg : (CType.common (intType w true) CType.int).signed = true :=
    common_signed (by rw [intType_of_ne hne]) rfl
  have hconv : (CType.common (intType w true) CType.int).convert (sgn w r) = sgn w r := by
    refine CType.convert_of_inRange (CType.wide_common hs hint).std ?_
    exact CType.inRange_common_left hs hint (sgn_inRange hw hne hr) hsg
  have hzero : (CType.common (intType w true) CType.int).convert 0 = 0 :=
    convert_nonneg_right hs hint (by decide) le_rfl
  have hlit : CType.ofLiteral 0 = CType.int := rfl
  have hsign := sgn_neg_iff hr
  constructor
  all_goals
    simp only [CExpr.eval, hv, Option.map_some, Option.bind_some, convert_signed_eq hw hne hr h,
      CBinary.apply, CExpr.typeOf, hlit, Nat.cast_zero, hconv, hzero, Option.some.injEq,
      truthInt_inj]
    omega

/-- A difference of two texts at their width. -/
theorem Reads.sub (hw : CHelper.declared w = true) (ha : Reads stubs vars w a x)
  (hb : Reads stubs vars w b y) :
  ∃ v, CExpr.eval (CHelper.library stubs) vars
      (.binary .sub (.cast (intType w false) a) (.cast (intType w false) b)) = some v ∧
    v ≡ ((x + (2 ^ w - y)) % 2 ^ w : Nat) [ZMOD 2 ^ w] := by
  obtain ⟨hcw, hne⟩ := cWidth_of_declared hw
  obtain ⟨heval, hx, hy⟩ := (ha.cast hcw hne).compare (hb.cast hcw hne) .sub
  have hylt := hb.lt
  have hxlt := ha.lt
  have hmod : (x : Int) - y ≡ ((x + (2 ^ w - y)) % 2 ^ w : Nat) [ZMOD 2 ^ w] := by
    have hcast : ((x + (2 ^ w - y) : Nat) : Int) = x - y + 2 ^ w := by
      push_cast [hylt.le]
      ring
    rw [Int.natCast_mod, hcast]
    push_cast
    exact ((Int.mod_modEq _ _).trans Int.add_modEq_right).symm
  simp only [CExpr.typeOf] at heval hx hy
  rw [heval]
  simp only [CBinary.apply, hx, hy]
  have hnarrow : ∀ {n : Nat}, n ≤ 16 → 0 < n → x < 2 ^ n → y < 2 ^ n →
      CType.int.arith ((x : Int) - y) = some ((x : Int) - y) := by
    intro n hn _ hx hy
    have hle : 2 ^ n ≤ 2 ^ 16 := Nat.pow_le_pow_right (by decide) hn
    have hr : CType.int.InRange ((x : Int) - y) := by
      rw [CType.inRange_signed rfl]
      simp only [CType.int]
      omega
    rw [CType.arith, if_pos (show CType.int.signed = true from rfl), if_pos hr]
  simp only [CHelper.declared, Bool.or_eq_true, beq_iff_eq] at hw
  rcases hw with ((rfl | rfl) | rfl) | rfl
  · exact ⟨_, hnarrow (by decide) (by decide) hxlt hylt, hmod⟩
  · exact ⟨_, hnarrow (by decide) (by decide) hxlt hylt, hmod⟩
  · exact ⟨_, rfl, (Int.mod_modEq _ _).trans hmod⟩
  · exact ⟨_, rfl, (Int.mod_modEq _ _).trans hmod⟩

end Texts

/-! ## The tables -/

section Tables

variable {stubs : Stubs} {vars : CName → Option Int} {w : Nat} {X Y : U128} {a b : CText}
  {code : ConditionCode}

variable {x y : Nat} {c : CText} {s t : CType}

theorem ccHelper_eval {r : Nat} (hw : CHelper.declared w = true) (ha : Reads stubs vars w a x)
  (hb : Reads stubs vars w b y) (hr : r = (x + (2 ^ w - y)) % 2 ^ w) (hcode : code ∈ ccKnown)
  (c : Bool) :
  CExpr.eval (CHelper.library stubs) vars (ccHelper code w a b) =
    some (truthInt (code.test (2 ^ (w - 1) ≤ r) (r = 0) c
      (decide (2 ^ (w - 1) ≤ x) != decide (2 ^ (w - 1) ≤ y) &&
        decide (2 ^ (w - 1) ≤ r) == decide (2 ^ (w - 1) ≤ x)) = true)) := by
  obtain ⟨hcw, hne⟩ := cWidth_of_declared hw
  have hparam : ∀ {c : CText} {n : Nat}, Reads stubs vars w c n →
      CType.convert ⟨w, false⟩ (n : Int) = n := by
    intro c n h
    have hcast := h.cast hcw hne
    rw [← intType_of_ne hne]
    exact CType.convert_of_inRange hcast.std hcast.range
  rw [ccHelper, if_pos hcode, CExpr.eval, ha.eval_eq, hb.eval_eq]
  simp only [Option.bind_some, CHelper.library, hparam ha, hparam hb, hw, if_true,
    ccBody_eq hcw hne ha.lt hb.lt hr hcode c, Option.map_some]

theorem isStub_ccHelper (hcode : code ∉ ccKnown) : isStub (ccHelper code w a b) = true := by
  rw [ccHelper, if_neg hcode]
  rfl

/-- An order or equality on texts of numbers. -/
theorem compare_eval (ha : Reads stubs vars w a x) (hb : Reads stubs vars w b y) :
  (CExpr.eval (CHelper.library stubs) vars (.binary .eq a b) = some (truthInt (x = y)) ∧
    CExpr.eval (CHelper.library stubs) vars (.binary .ne a b) = some (truthInt (x ≠ y))) ∧
  (CExpr.eval (CHelper.library stubs) vars (.binary .lt a b) = some (truthInt (x < y)) ∧
    CExpr.eval (CHelper.library stubs) vars (.binary .ge a b) = some (truthInt (y ≤ x))) ∧
  CExpr.eval (CHelper.library stubs) vars (.binary .gt a b) = some (truthInt (y < x)) ∧
    CExpr.eval (CHelper.library stubs) vars (.binary .le a b) = some (truthInt (x ≤ y)) := by
  have h := ha.compare hb
  have hx := (h .eq).2.1
  have hy := (h .eq).2.2
  simp only [(h _).1, CBinary.apply, hx, hy, ne_eq, Nat.cast_inj, Nat.cast_lt, Nat.cast_le,
    and_self]

/-- A text and a condition agree. -/
def Tells (stubs : Stubs) (vars : CName → Option Int) (c : CText) (holds : Bool) : Prop :=
  c.eval (CHelper.library stubs) vars = some (truthInt (holds = true))

theorem tells_of {holds : Bool} {p : Prop} [Decidable p]
  (h : c.eval (CHelper.library stubs) vars = some (truthInt p)) :
  Tells stubs vars c holds ↔ (p ↔ holds = true) := by
  rw [Tells, h, Option.some.injEq, truthInt_inj]

theorem diff_eq_zero {r : Nat} (hx : x < 2 ^ w) (hy : y < 2 ^ w)
  (hr : (x + (2 ^ w - y)) % 2 ^ w = r) : r = 0 ↔ x = y := by
  by_cases h : x < y
  · rw [Nat.mod_eq_of_lt (by omega)] at hr
    omega
  · rw [Nat.mod_eq_sub_mod (by omega), Nat.mod_eq_of_lt (by omega)] at hr
    omega

theorem flagText_sub (hw : CHelper.declared w = true) (ha : Reads stubs vars w a X.toNat)
  (hb : Reads stubs vars w b Y.toNat) (hstub : isStub (flagText .sub code w a b) = false) :
  Tells stubs vars (flagText .sub code w a b)
      (evalCondition code (evalFlagDef .sub w [X, Y])) ↔
    FlagExact .sub code w (a.typeOf (CHelper.library stubs)) (b.typeOf (CHelper.library stubs))
      X.toNat Y.toNat := by
  obtain ⟨hcw, hne⟩ := cWidth_of_declared hw
  have hle := (CHelper.declared_pos hw).2
  rw [evalFlagDef_sub hcw.pos hle ha.lt hb.lt rfl, evalCondition_packNzcv]
  generalize hr : (X.toNat + (2 ^ w - Y.toNat)) % 2 ^ w = r
  have hrlt : r < 2 ^ w := hr ▸ Nat.mod_lt _ (Nat.two_pow_pos w)
  by_cases hcode : code ∈ ccKnown
  · have htext : flagText .sub code w a b = ccHelper code w a b := by
      cases code <;> simp [ccKnown] at hcode <;> rfl
    rw [htext, tells_of (ccHelper_eval hw ha hb hr.symm hcode (Y.toNat ≤ X.toNat)), FlagExact,
      ← Bool.eq_iff_iff, test_sub_iff ?_ hcode, decide_eq_decide, ← sgn_neg_iff ha.lt,
      ← sgn_neg_iff hb.lt]
    · exact ⟨fun h _ => h, fun h => h hcode⟩
    · have hpos := Nat.two_pow_pos (w - 1)
      simp only [decide_eq_true_eq, decide_eq_false_iff_not, decide_eq_decide]
      intro h0
      rw [h0, (diff_eq_zero ha.lt hb.lt hr).mp h0]
      omega
  · have hexact : FlagExact .sub code w (a.typeOf (CHelper.library stubs))
        (b.typeOf (CHelper.library stubs)) X.toNat Y.toNat := fun h => absurd h hcode
    rw [iff_true_right hexact]
    obtain ⟨⟨heq, hne'⟩, -⟩ := compare_eval ha hb
    obtain ⟨-, ⟨hlt, hge⟩, hgt, hle'⟩ := compare_eval (ha.cast hcw hne) (hb.cast hcw hne)
    obtain ⟨v, hv, hmod⟩ := ha.sub hw hb
    rw [hr] at hmod
    obtain ⟨hmi, hpl⟩ := signed_compare hcw hne hrlt hv hmod
    have hzero := diff_eq_zero ha.lt hb.lt hr
    cases code
    case always | never | count =>
      cases (isStub_ccHelper (w := w) (a := a) (b := b) hcode).symm.trans hstub
    case equal => exact (tells_of heq).mpr (by rw [ConditionCode.test, decide_eq_true_eq, hzero])
    case notEqual =>
      refine (tells_of hne').mpr ?_
      rw [ConditionCode.test, Bool.not_eq_true', decide_eq_false_iff_not, hzero]
    case carrySet => exact (tells_of hge).mpr (by rw [ConditionCode.test, decide_eq_true_eq])
    case carryClear =>
      refine (tells_of hlt).mpr ?_
      rw [ConditionCode.test, Bool.not_eq_true', decide_eq_false_iff_not, not_le]
    case negative => exact (tells_of hmi).mpr (by rw [ConditionCode.test, decide_eq_true_eq])
    case nonNegative =>
      refine (tells_of hpl).mpr ?_
      rw [ConditionCode.test, Bool.not_eq_true', decide_eq_false_iff_not]
    case unsignedGreater =>
      refine (tells_of hgt).mpr ?_
      simp only [ConditionCode.test, Bool.and_eq_true, Bool.not_eq_true', decide_eq_true_eq,
        decide_eq_false_iff_not]
      omega
    case unsignedLessEqual =>
      refine (tells_of hle').mpr ?_
      simp only [ConditionCode.test, Bool.or_eq_true, Bool.not_eq_true', decide_eq_true_eq,
        decide_eq_false_iff_not]
      omega
    all_goals exact absurd (by decide) hcode

theorem flagText_logical (hw : CHelper.declared w = true) (ha : Reads stubs vars w a X.toNat)
  (hstub : isStub (flagText .logical code w a b) = false) :
  Tells stubs vars (flagText .logical code w a b)
      (evalCondition code (evalFlagDef .logical w [X])) ↔
    FlagExact .logical code w s t X.toNat y := by
  obtain ⟨hcw, hne⟩ := cWidth_of_declared hw
  have hle := (CHelper.declared_pos hw).2
  have hxlt := ha.lt
  rw [evalFlagDef_logical hcw.pos hle ha.lt, evalCondition_packNzcv]
  by_cases hcode : code ∈ ccKnown ∧ code ≠ .overflow ∧ code ≠ .noOverflow
  · obtain ⟨hcode, hvs, hvc⟩ := hcode
    have htext : flagText .logical code w a b = ccHelper code w a (.lit 0) := by
      cases code <;> simp [ccKnown] at hcode hvs hvc <;> rfl
    have hr : X.toNat = (X.toNat + (2 ^ w - 0)) % 2 ^ w := by
      rw [Nat.sub_zero, Nat.add_mod_right, Nat.mod_eq_of_lt hxlt]
    have hpos := Nat.two_pow_pos (w - 1)
    have hzero : decide (2 ^ (w - 1) ≤ 0) = false := decide_eq_false (by omega)
    rw [htext, tells_of (ccHelper_eval hw ha reads_zero hr hcode false), FlagExact, hzero,
      ← Bool.eq_iff_iff, test_logical_iff ?_ hcode hvs hvc, decide_eq_false_iff_not,
      ← sgn_neg_iff hxlt, Int.not_lt]
    · exact ⟨fun h _ _ _ => h, fun h => h hcode hvs hvc⟩
    · simp only [decide_eq_true_eq, decide_eq_false_iff_not]
      omega
  · have hexact : FlagExact .logical code w s t X.toNat y :=
      fun h hvs hvc => absurd ⟨h, hvs, hvc⟩ hcode
    rw [iff_true_right hexact]
    obtain ⟨⟨heq, hne'⟩, -⟩ := compare_eval ha
      (reads_zero : Reads stubs vars w (.lit 0) 0)
    obtain ⟨hmi, hpl⟩ := signed_compare hcw hne hxlt ha.eval_eq (Int.ModEq.refl _)
    cases code
    case always | never | count | unsignedGreater | unsignedLessEqual =>
      cases (isStub_ccHelper (w := w) (a := a) (b := .lit 0)
        (fun h => absurd ⟨h, by decide, by decide⟩ hcode)).symm.trans hstub
    case equal => exact (tells_of heq).mpr (by rw [ConditionCode.test, decide_eq_true_eq])
    case notEqual =>
      refine (tells_of hne').mpr ?_
      rw [ConditionCode.test, Bool.not_eq_true', decide_eq_false_iff_not]
    case negative => exact (tells_of hmi).mpr (by rw [ConditionCode.test, decide_eq_true_eq])
    case nonNegative =>
      refine (tells_of hpl).mpr ?_
      rw [ConditionCode.test, Bool.not_eq_true', decide_eq_false_iff_not]
    case carrySet | overflow | carryClear | noOverflow => rfl
    all_goals exact absurd ⟨by decide, by decide, by decide⟩ hcode

/-- A value in the unsigned type of a width. -/
theorem reads_cast {v : Nat} (hw : CWidth w) (hne : w ≠ 1)
  (hv : c.eval (CHelper.library stubs) vars = some (v : Int)) :
  Reads stubs vars w (.cast (intType w false) c) (v % 2 ^ w) := by
  have hlt : v % 2 ^ w < 2 ^ w := Nat.mod_lt _ (Nat.two_pow_pos w)
  have hconv : (intType w false).convert v = (v % 2 ^ w : Nat) := by
    rw [intType_of_ne hne, CType.convert_unsigned rfl hne]
    push_cast
    rfl
  refine ⟨intType_std hw false, ?_, ?_, hlt⟩
  · have hr := CType.convert_inRange (v := (v : Int)) (intType_std hw false)
    rwa [hconv] at hr
  · rw [CExpr.eval, hv, Option.map_some, hconv]

/-- A sum of two texts, in their common type. -/
theorem Reads.add (ha : Reads stubs vars w a x)
  (hb : Reads stubs vars w b y)
  (hs : s = CType.common (a.typeOf (CHelper.library stubs)) (b.typeOf (CHelper.library stubs))) :
  CExpr.eval (CHelper.library stubs) vars (.binary .add a b) =
    if s.signed = true then if x + y < 2 ^ (s.bits - 1) then some ((x + y : Nat) : Int) else none
    else some (((x + y) % 2 ^ s.bits : Nat) : Int) := by
  obtain ⟨heval, hx, hy⟩ := ha.compare hb .add
  rw [heval]
  rw [← hs] at hx hy
  simp only [CBinary.apply, ← hs, hx, hy, CType.arith]
  by_cases hsg : s.signed = true
  · have hr : s.InRange ((x : Int) + y) ↔ x + y < 2 ^ (s.bits - 1) := by
      have hpos : (0 : Int) < 2 ^ (s.bits - 1) := by positivity
      rw [CType.inRange_signed hsg]
      zify
      omega
    simp only [if_pos hsg, hr]
    push_cast
    rfl
  · rw [if_neg hsg, if_neg hsg]
    push_cast
    rfl

theorem sum_at_width {c : CType} (hs : s.Std) (ht : t.Std)
  (hc : c = CType.common s t) (hxr : s.InRange x) (hyr : t.InRange y) (hw : CWidth w)
  {m : Nat} (hsg : c.signed = false) (hm : m = (x + y) % 2 ^ c.bits % 2 ^ w) :
  ((m = 0 ↔ (x + y) % 2 ^ w = 0) ↔ (c.bits < w → x + y ≠ 2 ^ c.bits)) ∧
    (2 ^ (w - 1) ≤ m ↔ 2 ^ (w - 1) ≤ (x + y) % 2 ^ w) := by
  by_cases hle : w ≤ c.bits
  · rw [hm, Nat.mod_mod_of_dvd _ (pow_dvd_pow 2 hle)]
    exact ⟨⟨fun _ h => absurd h (by omega), fun _ => Iff.rfl⟩, Iff.rfl⟩
  · have hwide : c.Wide := hc ▸ CType.wide_common hs ht
    unfold CType.Wide at hwide
    unfold CWidth at hw
    obtain ⟨hb, rfl⟩ : c.bits = 32 ∧ w = 64 := by omega
    have hx := convert_nonneg_left hs ht hxr (Int.natCast_nonneg x)
    have hy := convert_nonneg_right hs ht hyr (Int.natCast_nonneg y)
    rw [← hc, CType.convert_unsigned hsg (by omega), hb] at hx hy
    rw [hb] at hm ⊢
    constructor <;> omega

theorem sum_reads {c : CType} (hw : CWidth w) (hne : w ≠ 1)
  (ha : Reads stubs vars w a x) (hb : Reads stubs vars w b y)
  (hc : c = CType.common (a.typeOf (CHelper.library stubs)) (b.typeOf (CHelper.library stubs)))
  (hdef : c.signed = true → x + y < 2 ^ (c.bits - 1)) :
  ∃ m, Reads stubs vars w (.cast (intType w false) (.binary .add a b)) m ∧
    ((m = 0 ↔ (x + y) % 2 ^ w = 0) ↔ (c.signed = false → c.bits < w → x + y ≠ 2 ^ c.bits)) ∧
    (2 ^ (w - 1) ≤ m ↔ 2 ^ (w - 1) ≤ (x + y) % 2 ^ w) := by
  have hsum := ha.add hb hc
  cases hsg : c.signed with
  | true =>
    rw [if_pos hsg, if_pos (hdef hsg)] at hsum
    exact ⟨_, reads_cast hw hne hsum, iff_of_true Iff.rfl (by rintro ⟨⟩), Iff.rfl⟩
  | false =>
    rw [if_neg (by simp [hsg])] at hsum
    obtain ⟨hzero, hsign⟩ := sum_at_width ha.std hb.std hc ha.range hb.range hw hsg rfl
    exact ⟨_, reads_cast hw hne hsum, hzero.trans ⟨fun h _ => h, fun h => h rfl⟩, hsign⟩

theorem cast_undefined
  (h : c.eval (CHelper.library stubs) vars = none) :
  CExpr.eval (CHelper.library stubs) vars (.cast t c) = none := by
  rw [CExpr.eval, h, Option.map_none]

theorem binary_undefined {d : CText} {op : CBinary}
  (h : c.eval (CHelper.library stubs) vars = none) :
  CExpr.eval (CHelper.library stubs) vars (.binary op c d) = none := by
  rw [CExpr.eval, h, Option.bind_none]

theorem flagText_add (hw : CHelper.declared w = true) (ha : Reads stubs vars w a X.toNat)
  (hb : Reads stubs vars w b Y.toNat) (hstub : isStub (flagText .add code w a b) = false) :
  Tells stubs vars (flagText .add code w a b)
      (evalCondition code (evalFlagDef .add w [X, Y])) ↔
    FlagExact .add code w (a.typeOf (CHelper.library stubs)) (b.typeOf (CHelper.library stubs))
      X.toNat Y.toNat := by
  obtain ⟨hcw, hne⟩ := cWidth_of_declared hw
  have hle := (CHelper.declared_pos hw).2
  rw [evalFlagDef_add hcw.pos hle ha.lt hb.lt rfl, evalCondition_packNzcv]
  by_cases hcode : code ∈ ccKnown
  · have htext : flagText .add code w a b = ccHelper code w a b := by
      cases code <;> simp [ccKnown] at hcode <;> rfl
    rw [htext, tells_of (ccHelper_eval hw ha hb rfl hcode false), FlagExact, if_pos hcode,
      ← Bool.eq_iff_iff]
    exact test_add_iff hcw.pos ha.lt hb.lt rfl rfl hcode _ _
  · rw [FlagExact, if_neg hcode]
    generalize hc : CType.common (a.typeOf (CHelper.library stubs))
      (b.typeOf (CHelper.library stubs)) = c
    have hsum := ha.add hb hc.symm
    by_cases hdef : c.signed = true → X.toNat + Y.toNat < 2 ^ (c.bits - 1)
    · obtain ⟨m, hm, hzero, hsign⟩ := sum_reads hcw hne ha hb hc.symm hdef
      obtain ⟨⟨heq, hne'⟩, -⟩ := compare_eval hm
        (reads_zero : Reads stubs vars w (.lit 0) 0)
      obtain ⟨hmi, hpl⟩ := signed_compare hcw hne hm.lt hm.eval_eq (Int.ModEq.refl _)
      cases code
      case equal =>
        rw [flagText, tells_of heq, ConditionCode.test, decide_eq_true_eq, hzero, SumExact]
        exact ⟨fun h => ⟨hdef, fun _ => h⟩, fun h => h.2 (Or.inl rfl)⟩
      case notEqual =>
        rw [flagText, tells_of hne', ConditionCode.test, Bool.not_eq_true', decide_eq_false_iff_not,
          ne_eq, not_iff_not, hzero, SumExact]
        exact ⟨fun h => ⟨hdef, fun _ => h⟩, fun h => h.2 (Or.inr rfl)⟩
      case negative =>
        rw [flagText, tells_of hmi, ConditionCode.test, decide_eq_true_eq, iff_true_left hsign]
        exact ⟨hdef, fun h => by simp at h⟩
      case nonNegative =>
        rw [flagText, tells_of hpl, ConditionCode.test, Bool.not_eq_true', decide_eq_false_iff_not,
          iff_true_left (not_congr hsign)]
        exact ⟨hdef, fun h => by simp at h⟩
      case always | never | count | carrySet | carryClear | unsignedGreater | unsignedLessEqual =>
        cases (isStub_ccHelper (w := w) (a := a) (b := b) hcode).symm.trans hstub
      all_goals exact absurd (by decide) hcode
    · have hexact : ¬ SumExact w code c X.toNat Y.toNat := fun h => hdef h.1
      rw [iff_false_right hexact]
      rw [Classical.not_imp] at hdef
      rw [if_pos hdef.1, if_neg hdef.2] at hsum
      cases code
      case equal | notEqual =>
        exact fun h => by cases (binary_undefined (cast_undefined hsum)).symm.trans h
      case negative | nonNegative =>
        exact fun h => by cases
          (binary_undefined (cast_undefined (cast_undefined hsum))).symm.trans h
      case always | never | count | carrySet | carryClear | unsignedGreater | unsignedLessEqual =>
        cases (isStub_ccHelper (w := w) (a := a) (b := b) hcode).symm.trans hstub
      all_goals exact absurd (by decide) hcode

end Tables

/-! ## Literal flags -/

theorem shifted_bit (v : U64) {i : Nat} (hi : i < 64) :
  decide ((v >>> i) &&& 1#64 ≠ 0#64) = decide (v &&& BitVec.twoPow 64 i ≠ 0#64) := by
  rw [decide_eq_decide, BitVec.and_one_eq_setWidth_ofBool_getLsbD, BitVec.and_twoPow,
    BitVec.getLsbD_ushiftRight, Nat.add_zero]
  have hne : BitVec.twoPow 64 i ≠ 0#64 := by
    intro h
    have hbit := congrArg (fun u => BitVec.getLsbD u i) h
    simp [hi] at hbit
  cases v.getLsbD i <;> simp [hne]

theorem flagFromNzcv_tells {stubs : Stubs} {vars : CName → Option Int} (code : ConditionCode)
  (nzcv : U64) : Tells stubs vars (flagFromNzcv code nzcv) (evalCondition code nzcv) := by
  have h3 := shifted_bit nzcv (i := 3) (by decide)
  have h2 := shifted_bit nzcv (i := 2) (by decide)
  have h1 := shifted_bit nzcv (i := 1) (by decide)
  have htext : flagFromNzcv code nzcv = .lit (if evalCondition code nzcv then 1 else 0) := by
    simp only [flagFromNzcv, h3, h2, h1]
    cases code <;> rfl
  rw [Tells, htext, CExpr.eval, truthInt]
  cases evalCondition code nzcv <;> rfl

end ExprPrinter

open ExprPrinter FlagConditionRewrite

/-- When the condition `code` of a flag definition is printed right. -/
def CondExact (flagDef : Expr) (code : ConditionCode) (s t : CType) (args : List U128) : Prop :=
  match flagDefOp flagDef.immediate with
  | .const =>
    (operandAt flagDef 0).op = .const ∨
      evalCondition code ((args.getD 0 U128.zero).lo &&& 0xf#64) = false
  | flagOp =>
    FlagExact flagOp code (flagDefWidth flagDef.immediate) s t (args.getD 0 U128.zero).toNat
      (args.getD 1 U128.zero).toNat

section Run

variable {integerOperand : Expr → PrintM CText} {st : ExprPrinter} {e flagDef : Expr}

theorem printFlagCond_text (hoperand : operandAt e 0 = flagDef) (hdef : flagDef.op = .flagDef)
  (hconst : flagDefOp flagDef.immediate ≠ .const) :
  (printFlagCond integerOperand e st).1 =
    flagText (flagDefOp flagDef.immediate) (conditionOf e.immediate)
      (flagDefWidth flagDef.immediate) (operandTexts integerOperand flagDef st).1.1
      (operandTexts integerOperand flagDef st).1.2 := by
  subst hoperand
  simp only [printFlagCond, hdef, hconst, ne_eq, not_true_eq_false, if_false]
  rfl

theorem printFlagCond_literal (hoperand : operandAt e 0 = flagDef) (hdef : flagDef.op = .flagDef)
  (hconst : flagDefOp flagDef.immediate = .const)
  (hliteral : (operandAt flagDef 0).op = .const) :
  (printFlagCond integerOperand e st).1 =
    flagFromNzcv (conditionOf e.immediate) ((operandAt flagDef 0).immediate &&& 0xf#64) := by
  subst hoperand
  simp only [printFlagCond, hdef, hconst, hliteral, ne_eq, not_true_eq_false, if_false, if_true]
  rfl

theorem printFlagCond_bundle (hoperand : operandAt e 0 = flagDef) (hdef : flagDef.op = .flagDef)
  (hconst : flagDefOp flagDef.immediate = .const)
  (hliteral : (operandAt flagDef 0).op ≠ .const) :
  (printFlagCond integerOperand e st).1 = .lit 0 := by
  subst hoperand
  simp only [printFlagCond, hdef, hconst, hliteral, ne_eq, not_true_eq_false, if_false, if_true]
  rfl

/-- The flags in a literal are its low four bits, which its type holds. -/
theorem bundle_eq {env : Env} {x : Expr} {v : U128} {w : Nat} (hop : x.op = .const)
  (htype : x.type = Ty.integer w) (hw : 8 ≤ w ∧ w ≤ 64) (hden : den env x = some v) :
  x.immediate &&& 0xf#64 = v.lo &&& 0xf#64 := by
  have hbits : x.bits = w := by
    rw [Expr.bits, htype]
    exact Ty.bits_integer w
  rw [den_eq, denNode] at hden
  split at hden
  · cases hden
  · obtain ⟨args, -, h⟩ := Option.bind_eq_some_iff.mp hden
    simp only [applyOp, hop, hbits, Except.toOption, Option.some.injEq] at h
    have hv : v.toNat = x.immediate.toNat % 2 ^ w := by rw [← h, U128.mask_toNat, word_toNat]
    have hlo : v.lo.toNat = x.immediate.toNat % 2 ^ w := by
      rw [lo_toNat_of_lt hw.2 (hv ▸ Nat.mod_lt _ (Nat.two_pow_pos w)), hv]
    have hlow : ∀ u : U64, (u &&& 0xf#64).toNat = u.toNat % 2 ^ 4 := fun u => by
      rw [BitVec.toNat_and]
      exact Nat.and_two_pow_sub_one_eq_mod u.toNat 4
    apply BitVec.eq_of_toNat_eq
    rw [hlow, hlow, hlo, Nat.mod_mod_of_dvd _ (pow_dvd_pow 2 (by omega))]

end Run

/-- **Printed conditions.**  Where the texts of the operands read the operands,
a printed condition other than a stub is the condition of the flags exactly
when `CondExact` holds of their values. -/
theorem printFlagCond_exact_iff {stubs : Stubs} {vars : CName → Option Int}
    {integerOperand : Expr → PrintM CText} {st : ExprPrinter} {env : Env} {e flagDef : Expr}
    {args : List U128} (hoperand : operandAt e 0 = flagDef) (hdef : flagDef.op = .flagDef)
    (harity : flagDef.operands.length = Expr.flagDefArity (flagDefOp flagDef.immediate))
    (hop : flagDefOp flagDef.immediate ∈ [FlagOp.sub, .add, .logical, .const])
    (hw : CHelper.declared (flagDefWidth flagDef.immediate) = true)
    (htypes : ∀ x ∈ flagDef.operands, x.type = Ty.integer (flagDefWidth flagDef.immediate))
    (hargs : List.Forall₂ (fun x v => den env x = some v) flagDef.operands args)
    (hreads : flagDefOp flagDef.immediate ≠ .const →
      Reads stubs vars (flagDefWidth flagDef.immediate)
          (operandTexts integerOperand flagDef st).1.1 (args.getD 0 U128.zero).toNat ∧
        Reads stubs vars (flagDefWidth flagDef.immediate)
          (operandTexts integerOperand flagDef st).1.2 (args.getD 1 U128.zero).toNat)
    (hstub : isStub (printFlagCond integerOperand e st).1 = false) :
    Tells stubs vars (printFlagCond integerOperand e st).1
        (evalCondition (conditionOf e.immediate)
          (evalFlagDef (flagDefOp flagDef.immediate) (flagDefWidth flagDef.immediate) args)) ↔
      CondExact flagDef (conditionOf e.immediate)
        ((operandTexts integerOperand flagDef st).1.1.typeOf (CHelper.library stubs))
        ((operandTexts integerOperand flagDef st).1.2.typeOf (CHelper.library stubs)) args := by
  by_cases hconst : flagDefOp flagDef.immediate = .const
  · rw [hconst] at harity
    obtain ⟨x, hx⟩ := List.length_eq_one_iff.mp harity
    rw [hx] at hargs
    obtain ⟨v, _, hden, hnil, rfl⟩ := List.forall₂_cons_left_iff.mp hargs
    obtain rfl := List.forall₂_nil_left_iff.mp hnil
    have hbundle : operandAt flagDef 0 = x := by rw [operandAt, hx, List.getD_cons_zero]
    have hwidth := CHelper.declared_pos hw
    simp only [CondExact, hconst, List.getD_cons_zero]
    by_cases hliteral : (operandAt flagDef 0).op = .const
    · rw [printFlagCond_literal hoperand hdef hconst hliteral, iff_true_right (Or.inl hliteral),
        hbundle, bundle_eq (hbundle ▸ hliteral) (htypes x (by simp [hx])) hwidth hden]
      exact flagFromNzcv_tells _ _
    · rw [printFlagCond_bundle hoperand hdef hconst hliteral, or_iff_right hliteral]
      refine (tells_of (p := False) rfl).trans ?_
      rw [false_iff, Bool.not_eq_true]
      rfl
  · rw [printFlagCond_text hoperand hdef hconst] at hstub ⊢
    obtain ⟨ha, hb⟩ := hreads hconst
    generalize (operandTexts integerOperand flagDef st).1.1 = a at *
    generalize (operandTexts integerOperand flagDef st).1.2 = b at *
    have hlen := hargs.length_eq
    simp only [List.mem_cons, List.not_mem_nil, or_false] at hop
    rcases hop with hop | hop | hop | hop <;> rw [hop] at harity hstub ⊢ <;>
      simp only [CondExact, hop]
    · obtain ⟨X, Y, rfl⟩ := List.length_eq_two.mp (hlen.symm.trans harity)
      exact flagText_sub hw ha hb hstub
    · obtain ⟨X, Y, rfl⟩ := List.length_eq_two.mp (hlen.symm.trans harity)
      exact flagText_add hw ha hb hstub
    · obtain ⟨X, rfl⟩ := List.length_eq_one_iff.mp (hlen.symm.trans harity)
      exact flagText_logical hw ha hstub
    · exact absurd hop hconst

/-- `cmp` of `v0` and `v1` and the condition `ge`. -/
def comparedGe : Expr :=
  Expr.flagCondition
    (.binary .flagDef Ty.flags (packFlagDef .sub 32) (.leaf .value (Ty.integer 32) 0#64)
      (.leaf .value (Ty.integer 32) 1#64)) .signedGreaterEqual

/-- The two values printed as temporaries. -/
def printTemporary (x : Expr) : PrintM CText :=
  pure (.var (.temp x.immediate.toNat) (intType 32 false))

/-- Temporaries of the values `a` and `b`. -/
def twoTemporaries (a b : Int) : CName → Option Int
  | .temp 0 => some a
  | .temp 1 => some b
  | _ => none

/-- One is not below minus one, and `cc_ge32` says it is. -/
theorem printed_ge_differs :
    isStub (printFlagCond printTemporary comparedGe initial).1 = false ∧
      ¬ Tells Stubs.reference (twoTemporaries 1 0xffffffff)
        (printFlagCond printTemporary comparedGe initial).1
        (evalCondition .signedGreaterEqual
          (evalFlagDef .sub 32 [U128.ofNat 1, U128.ofNat 0xffffffff])) := by
  refine ⟨rfl, ?_⟩
  unfold Tells
  decide

/-- The condition is right of three and two. -/
theorem printFlagCond_exact_iff_three :
    Tells Stubs.reference (twoTemporaries 3 2) (printFlagCond printTemporary comparedGe initial).1
        (evalCondition .signedGreaterEqual (evalFlagDef .sub 32 [U128.ofNat 3, U128.ofNat 2])) := by
  let env : Env := { Env.idle with value := fun v => some (U128.ofNat (3 - v)) }
  have hargs : List.Forall₂ (fun x v => den env x = some v) (operandAt comparedGe 0).operands
      [U128.ofNat 3, U128.ofNat 2] := .cons rfl (.cons rfl .nil)
  refine (printFlagCond_exact_iff rfl rfl rfl (by decide) (by decide) (by decide) hargs ?_
    rfl).mpr ?_
  · intro _
    exact ⟨⟨by unfold CType.Std; decide, by decide, rfl, by decide⟩,
      ⟨by unfold CType.Std; decide, by decide, rfl, by decide⟩⟩
  · intro _
    decide

end Xdec

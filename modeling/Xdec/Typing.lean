import Xdec.Expr

/-!
# The verifier's expression rules

`Verifier::checkExpressions` looks at one node at a time: its arity, the
validity of its type, the result rule of its operator and a few rules of
individual operators.  `nodeOk` is the conjunction of those checks and
`wellTyped` demands it of every node of a tree.

One rule is the instruction-semantics checker's and not the verifier's: its
`requireFloat` types float arithmetic and conversions to float at float types.
The verifier leaves operator and kind unrelated, so that rule stands here as a
separate conjunct.
-/

namespace Xdec

/-- What the typing rules read of a function: the types of its values and of
the registers of its file. -/
structure Ctx where
  valueType : Nat → Option Ty
  regType : Nat → Option Ty

/-- A function with no values and no registers. -/
def Ctx.empty : Ctx := ⟨fun _ => none, fun _ => none⟩

/-- Operators whose result is a float pattern. -/
def ExprOp.yieldsFloat : ExprOp → Bool
  | .fAdd | .fSub | .fMul | .fDiv | .fNeg | .fAbs | .fSqrt | .fCeil
  | .fpConvert | .intToFpS | .intToFpU => true
  | _ => false

namespace Expr

/-- The result rule of the operator. -/
def resultRuleOk (e : Expr) : Bool :=
  match e.op.info.result with
  | .sameAsOperands => e.operands.all (fun x => x.type == e.type)
  | .boolean =>
    e.type.isBoolean &&
      match e.operands with
      | [x, y] => x.type == y.type
      | _ => true
  | .flagsResult => e.type.isFlags
  | .sameAsLastTwo =>
    match e.operands with
    | [c, x, y] => c.type.isBoolean && x.type == y.type && x.type == e.type
    | _ => true
  | .explicit => true

/-- Operands a flag definition takes. -/
def flagDefArity (op : FlagOp) : Nat :=
  match op with
  | .logical | .const => 1
  | .addCarry | .subCarry => 3
  | _ => 2

/-- The rules of individual operators. -/
def opRuleOk (ctx : Ctx) (e : Expr) : Bool :=
  match e.op, e.operands with
  | .const, _ =>
    !(e.type.isScalarInteger && decide (e.bits < 64)) ||
      e.immediate == zeroExtend e.immediate e.bits
  | .value, _ => ctx.valueType (e.immediate.toNat % 2 ^ 32) == some e.type
  | .entryReg, _ => ctx.regType (e.immediate.toNat % 2 ^ 32) == some e.type
  | .flagCond, x :: _ | .flagBit, x :: _ => x.type.isFlags
  | .extract, x :: _ => decide ((e.immediate + BitVec.ofNat 64 e.bits).toNat ≤ x.bits)
  | .concat, x :: y :: _ => x.bits + y.bits == e.bits
  | .zext, x :: _ | .sext, x :: _ => decide (x.bits ≤ e.bits)
  | .trunc, x :: _ => decide (e.bits ≤ x.bits)
  | .flagDef, xs =>
    xs.length == flagDefArity (flagDefOp e.immediate) && flagDefWidth e.immediate != 0
  | _, _ => true

/-- The verifier's checks at one node. -/
def nodeVerified (ctx : Ctx) (e : Expr) : Bool :=
  decide (e.op.info.minArity ≤ e.operandCount) && decide (e.operandCount ≤ e.op.info.maxArity) &&
    e.type.valid && resultRuleOk e && opRuleOk ctx e

/-- Every node of the tree passes the verifier. -/
def verified (ctx : Ctx) : Expr → Bool
  | e@(leaf _ _ _) => nodeVerified ctx e
  | e@(unary _ _ _ a) => nodeVerified ctx e && verified ctx a
  | e@(binary _ _ _ a b) => nodeVerified ctx e && verified ctx a && verified ctx b
  | e@(ternary _ _ _ a b c) =>
    nodeVerified ctx e && verified ctx a && verified ctx b && verified ctx c

/-- All checks made at one node. -/
def nodeOk (ctx : Ctx) (e : Expr) : Bool :=
  decide (e.op.info.minArity ≤ e.operandCount) && decide (e.operandCount ≤ e.op.info.maxArity) &&
    e.type.valid && resultRuleOk e && opRuleOk ctx e &&
    (!e.op.yieldsFloat || e.type.isFloat)

/-- Every node of the tree passes the checks. -/
def wellTyped (ctx : Ctx) : Expr → Bool
  | e@(leaf _ _ _) => nodeOk ctx e
  | e@(unary _ _ _ a) => nodeOk ctx e && wellTyped ctx a
  | e@(binary _ _ _ a b) => nodeOk ctx e && wellTyped ctx a && wellTyped ctx b
  | e@(ternary _ _ _ a b c) =>
    nodeOk ctx e && wellTyped ctx a && wellTyped ctx b && wellTyped ctx c

variable {ctx : Ctx} {e s : Expr}

theorem wellTyped_iff :
  e.wellTyped ctx = true ↔ e.nodeOk ctx = true ∧ ∀ x ∈ e.operands, x.wellTyped ctx = true := by
  cases e <;> simp [wellTyped, and_assoc]

theorem verified_iff :
  e.verified ctx = true ↔
    e.nodeVerified ctx = true ∧ ∀ x ∈ e.operands, x.verified ctx = true := by
  cases e <;> simp [verified, and_assoc]

theorem SubExpr.verified (hs : SubExpr s e) (h : e.verified ctx = true) :
  s.verified ctx = true := by
  induction hs with
  | refl => exact h
  | step hx _ ih => exact ih ((verified_iff.mp h).2 _ hx)

theorem nodeVerified_of_nodeOk (h : e.nodeOk ctx = true) : e.nodeVerified ctx = true :=
  (Bool.and_eq_true_iff.mp h).1

theorem nodeOk_of_wellTyped (h : e.wellTyped ctx = true) : e.nodeOk ctx = true :=
  (wellTyped_iff.mp h).1

theorem wellTyped_operand {x : Expr} (h : e.wellTyped ctx = true) (hx : x ∈ e.operands) :
  x.wellTyped ctx = true :=
  (wellTyped_iff.mp h).2 x hx

/-- Typing is inherited by subexpressions. -/
theorem SubExpr.wellTyped (hs : SubExpr s e) (h : e.wellTyped ctx = true) :
  s.wellTyped ctx = true := by
  induction hs with
  | refl => exact h
  | step hx _ ih => exact ih (wellTyped_operand h hx)

end Expr

end Xdec

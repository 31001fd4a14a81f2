import Xdec.U128

/-!
# Types and pure value expressions

An expression is a total, side-effect-free function of its operands.  The
expression pool is hash-consed, so two handles are equal exactly when the
trees they unfold to are equal; the model therefore works on the trees, and
handle comparison in the source is tree equality here.

The operator table, the result rules and the meaning of `immediate` are those
of `il/expr.h`.
-/

namespace Xdec

/-! ## Types -/

inductive TypeKind where
  | void | int | float | flags | intVector | floatVector
deriving DecidableEq, Inhabited

/-- The class `Type`: a kind, an element width and a lane count. -/
structure Ty where
  kind : TypeKind
  elementBits : Nat
  lanes : Nat
deriving DecidableEq, Inhabited

namespace Ty

def kMaxBits : Nat := 2048

def kMaxLanes : Nat := 255

def voidType : Ty := ⟨.void, 0, 1⟩

def integer (bits : Nat) : Ty := ⟨.int, bits, 1⟩

def boolean : Ty := integer 1

def floating (bits : Nat) : Ty := ⟨.float, bits, 1⟩

def flags : Ty := ⟨.flags, 0, 1⟩

def intVector (elementBits lanes : Nat) : Ty := ⟨.intVector, elementBits, lanes⟩

def floatVector (elementBits lanes : Nat) : Ty := ⟨.floatVector, elementBits, lanes⟩

/-- Total width in bits.  Void and Flags have no width. -/
def bits (t : Ty) : Nat := t.elementBits * t.lanes

def isVoid (t : Ty) : Bool := t.kind == .void

def isInteger (t : Ty) : Bool := t.kind == .int

def isFloat (t : Ty) : Bool := t.kind == .float

def isFlags (t : Ty) : Bool := t.kind == .flags

def isVector (t : Ty) : Bool := t.kind == .intVector || t.kind == .floatVector

def isBoolean (t : Ty) : Bool := t.kind == .int && t.elementBits == 1

/-- True for types a 64-bit constant can represent exactly. -/
def isScalarInteger (t : Ty) : Bool :=
  t.kind == .int && decide (0 < t.elementBits) && decide (t.elementBits ≤ 64)

def valid (t : Ty) : Bool :=
  match t.kind with
  | .void | .flags => t.elementBits == 0 && t.lanes == 1
  | .int | .float =>
    decide (0 < t.elementBits) && decide (t.elementBits ≤ kMaxBits) && t.lanes == 1
  | .intVector | .floatVector =>
    decide (0 < t.elementBits) && decide (1 < t.lanes) && decide (t.bits ≤ kMaxBits)

@[simp] theorem bits_integer (n : Nat) : (integer n).bits = n := Nat.mul_one n

@[simp] theorem bits_boolean : boolean.bits = 1 := rfl

theorem eq_integer {t : Ty} (hv : t.valid = true) (hi : t.isInteger = true) :
  t = integer t.bits ∧ 0 < t.bits ∧ t.bits ≤ kMaxBits := by
  obtain ⟨kind, elementBits, lanes⟩ := t
  simp only [isInteger, beq_iff_eq] at hi
  subst hi
  simp only [valid, Bool.and_eq_true, decide_eq_true_eq, beq_iff_eq] at hv
  obtain ⟨⟨hpos, hmax⟩, rfl⟩ := hv
  simp [integer, bits, hpos, hmax]

end Ty

/-! ## Operators -/

/-- How an expression's result type relates to its operands. -/
inductive ResultRule where
  | sameAsOperands | boolean | explicit | flagsResult | sameAsLastTwo
deriving DecidableEq

inductive ExprCategory where
  | leaf | intArithmetic | intBitwise | intShift | intCompare | cast | bitCount | select
  | flagProducer | flagConsumer | floatArithmetic | floatCompare | floatCast
deriving DecidableEq

inductive ExprOp where
  | const | value | undef | entryReg
  | add | sub | mul | mulHiU | mulHiS | divU | divS | remU | remS | neg
  | and | or | xor | not
  | shl | shrU | shrS | rotR | rotL
  | cmpEq | cmpNe | cmpLtU | cmpLeU | cmpLtS | cmpLeS
  | zext | sext | trunc | bitcast | extract | concat
  | clz | ctz | popCount | byteSwap | bitReverse
  | select | flagDef | flagCond | flagBit
  | fAdd | fSub | fMul | fDiv | fNeg | fAbs | fSqrt | fCeil
  | fCmpEq | fCmpLt | fCmpLe | fCmpUnordered
  | fpConvert | fpToIntS | fpToIntU | intToFpS | intToFpU
deriving DecidableEq, Inhabited

structure ExprOpInfo where
  text : String
  minArity : Nat
  maxArity : Nat
  category : ExprCategory
  result : ResultRule

/-- The operator table `XDEC_EXPR_OPS`. -/
def ExprOp.info : ExprOp → ExprOpInfo
  | .const => ⟨"const", 0, 0, .leaf, .explicit⟩
  | .value => ⟨"val", 0, 0, .leaf, .explicit⟩
  | .undef => ⟨"undef", 0, 0, .leaf, .explicit⟩
  | .entryReg => ⟨"entry", 0, 0, .leaf, .explicit⟩
  | .add => ⟨"add", 2, 2, .intArithmetic, .sameAsOperands⟩
  | .sub => ⟨"sub", 2, 2, .intArithmetic, .sameAsOperands⟩
  | .mul => ⟨"mul", 2, 2, .intArithmetic, .sameAsOperands⟩
  | .mulHiU => ⟨"mulhi.u", 2, 2, .intArithmetic, .sameAsOperands⟩
  | .mulHiS => ⟨"mulhi.s", 2, 2, .intArithmetic, .sameAsOperands⟩
  | .divU => ⟨"div.u", 2, 2, .intArithmetic, .sameAsOperands⟩
  | .divS => ⟨"div.s", 2, 2, .intArithmetic, .sameAsOperands⟩
  | .remU => ⟨"rem.u", 2, 2, .intArithmetic, .sameAsOperands⟩
  | .remS => ⟨"rem.s", 2, 2, .intArithmetic, .sameAsOperands⟩
  | .neg => ⟨"neg", 1, 1, .intArithmetic, .sameAsOperands⟩
  | .and => ⟨"and", 2, 2, .intBitwise, .sameAsOperands⟩
  | .or => ⟨"or", 2, 2, .intBitwise, .sameAsOperands⟩
  | .xor => ⟨"xor", 2, 2, .intBitwise, .sameAsOperands⟩
  | .not => ⟨"not", 1, 1, .intBitwise, .sameAsOperands⟩
  | .shl => ⟨"shl", 2, 2, .intShift, .sameAsOperands⟩
  | .shrU => ⟨"shr.u", 2, 2, .intShift, .sameAsOperands⟩
  | .shrS => ⟨"shr.s", 2, 2, .intShift, .sameAsOperands⟩
  | .rotR => ⟨"rotr", 2, 2, .intShift, .sameAsOperands⟩
  | .rotL => ⟨"rotl", 2, 2, .intShift, .sameAsOperands⟩
  | .cmpEq => ⟨"cmp.eq", 2, 2, .intCompare, .boolean⟩
  | .cmpNe => ⟨"cmp.ne", 2, 2, .intCompare, .boolean⟩
  | .cmpLtU => ⟨"cmp.ltu", 2, 2, .intCompare, .boolean⟩
  | .cmpLeU => ⟨"cmp.leu", 2, 2, .intCompare, .boolean⟩
  | .cmpLtS => ⟨"cmp.lts", 2, 2, .intCompare, .boolean⟩
  | .cmpLeS => ⟨"cmp.les", 2, 2, .intCompare, .boolean⟩
  | .zext => ⟨"zext", 1, 1, .cast, .explicit⟩
  | .sext => ⟨"sext", 1, 1, .cast, .explicit⟩
  | .trunc => ⟨"trunc", 1, 1, .cast, .explicit⟩
  | .bitcast => ⟨"bitcast", 1, 1, .cast, .explicit⟩
  | .extract => ⟨"extract", 1, 1, .cast, .explicit⟩
  | .concat => ⟨"concat", 2, 2, .cast, .explicit⟩
  | .clz => ⟨"clz", 1, 1, .bitCount, .sameAsOperands⟩
  | .ctz => ⟨"ctz", 1, 1, .bitCount, .sameAsOperands⟩
  | .popCount => ⟨"popcount", 1, 1, .bitCount, .sameAsOperands⟩
  | .byteSwap => ⟨"bswap", 1, 1, .bitCount, .sameAsOperands⟩
  | .bitReverse => ⟨"brev", 1, 1, .bitCount, .sameAsOperands⟩
  | .select => ⟨"select", 3, 3, .select, .sameAsLastTwo⟩
  | .flagDef => ⟨"flagdef", 1, 3, .flagProducer, .flagsResult⟩
  | .flagCond => ⟨"flagcond", 1, 1, .flagConsumer, .boolean⟩
  | .flagBit => ⟨"flagbit", 1, 1, .flagConsumer, .boolean⟩
  | .fAdd => ⟨"fadd", 2, 2, .floatArithmetic, .sameAsOperands⟩
  | .fSub => ⟨"fsub", 2, 2, .floatArithmetic, .sameAsOperands⟩
  | .fMul => ⟨"fmul", 2, 2, .floatArithmetic, .sameAsOperands⟩
  | .fDiv => ⟨"fdiv", 2, 2, .floatArithmetic, .sameAsOperands⟩
  | .fNeg => ⟨"fneg", 1, 1, .floatArithmetic, .sameAsOperands⟩
  | .fAbs => ⟨"fabs", 1, 1, .floatArithmetic, .sameAsOperands⟩
  | .fSqrt => ⟨"fsqrt", 1, 1, .floatArithmetic, .sameAsOperands⟩
  | .fCeil => ⟨"fceil", 1, 1, .floatArithmetic, .sameAsOperands⟩
  | .fCmpEq => ⟨"fcmp.eq", 2, 2, .floatCompare, .boolean⟩
  | .fCmpLt => ⟨"fcmp.lt", 2, 2, .floatCompare, .boolean⟩
  | .fCmpLe => ⟨"fcmp.le", 2, 2, .floatCompare, .boolean⟩
  | .fCmpUnordered => ⟨"fcmp.uno", 2, 2, .floatCompare, .boolean⟩
  | .fpConvert => ⟨"fpconvert", 1, 1, .floatCast, .explicit⟩
  | .fpToIntS => ⟨"fptoint.s", 1, 1, .floatCast, .explicit⟩
  | .fpToIntU => ⟨"fptoint.u", 1, 1, .floatCast, .explicit⟩
  | .intToFpS => ⟨"inttofp.s", 1, 1, .floatCast, .explicit⟩
  | .intToFpU => ⟨"inttofp.u", 1, 1, .floatCast, .explicit⟩

/-- Which arithmetic produced a flag bundle. -/
inductive FlagOp where
  | add | sub | addCarry | subCarry | logical | const | count
deriving DecidableEq

inductive FlagBitIndex where
  | negative | zero | carry | overflow | count
deriving DecidableEq

inductive ConditionCode where
  | equal | notEqual | carrySet | carryClear | negative | nonNegative | overflow | noOverflow
  | unsignedGreater | unsignedLessEqual | signedGreaterEqual | signedLess
  | signedGreater | signedLessEqual | always | never | count
deriving DecidableEq

/-- The enumerators in declaration order, which is how an `immediate` stores
them.  A number past the end behaves as `Count` in every switch. -/
def FlagOp.all : List FlagOp := [.add, .sub, .addCarry, .subCarry, .logical, .const]

def FlagBitIndex.all : List FlagBitIndex := [.negative, .zero, .carry, .overflow]

def ConditionCode.all : List ConditionCode :=
  [.equal, .notEqual, .carrySet, .carryClear, .negative, .nonNegative, .overflow, .noOverflow,
   .unsignedGreater, .unsignedLessEqual, .signedGreaterEqual, .signedLess,
   .signedGreater, .signedLessEqual, .always, .never]

def FlagOp.index (op : FlagOp) : Nat := FlagOp.all.idxOf op

def FlagBitIndex.index (bit : FlagBitIndex) : Nat := FlagBitIndex.all.idxOf bit

def ConditionCode.index (code : ConditionCode) : Nat := ConditionCode.all.idxOf code

/-- `static_cast<ConditionCode>`: the enumeration is one byte wide. -/
def conditionOf (immediate : U64) : ConditionCode :=
  ConditionCode.all.getD (immediate.toNat % 256) .count

def flagBitOf (immediate : U64) : FlagBitIndex :=
  FlagBitIndex.all.getD (immediate.toNat % 256) .count

/-- The condition that is true exactly when `code` is false. -/
def ConditionCode.invert : ConditionCode → ConditionCode
  | .equal => .notEqual
  | .notEqual => .equal
  | .carrySet => .carryClear
  | .carryClear => .carrySet
  | .negative => .nonNegative
  | .nonNegative => .negative
  | .overflow => .noOverflow
  | .noOverflow => .overflow
  | .unsignedGreater => .unsignedLessEqual
  | .unsignedLessEqual => .unsignedGreater
  | .signedGreaterEqual => .signedLess
  | .signedLess => .signedGreaterEqual
  | .signedGreater => .signedLessEqual
  | .signedLessEqual => .signedGreater
  | .always => .never
  | .never => .always
  | .count => .count

/-- Packs a FlagOp and an operand width into the FlagDef immediate. -/
def packFlagDef (op : FlagOp) (width : Nat) : U64 :=
  BitVec.ofNat 64 op.index ||| BitVec.ofNat 64 width <<< 8

def flagDefOp (immediate : U64) : FlagOp :=
  FlagOp.all.getD (immediate.toNat % 256) .count

def flagDefWidth (immediate : U64) : Nat := immediate.toNat / 256 % 65536

/-! ## Expressions -/

/-- A node of the value graph with its operands unfolded. -/
inductive Expr where
  | leaf (op : ExprOp) (type : Ty) (immediate : U64)
  | unary (op : ExprOp) (type : Ty) (immediate : U64) (a : Expr)
  | binary (op : ExprOp) (type : Ty) (immediate : U64) (a b : Expr)
  | ternary (op : ExprOp) (type : Ty) (immediate : U64) (a b c : Expr)
deriving DecidableEq, Inhabited

namespace Expr

def op : Expr → ExprOp
  | leaf op _ _ => op
  | unary op _ _ _ => op
  | binary op _ _ _ _ => op
  | ternary op _ _ _ _ _ => op

def type : Expr → Ty
  | leaf _ t _ => t
  | unary _ t _ _ => t
  | binary _ t _ _ _ => t
  | ternary _ t _ _ _ _ => t

def immediate : Expr → U64
  | leaf _ _ i => i
  | unary _ _ i _ => i
  | binary _ _ i _ _ => i
  | ternary _ _ i _ _ _ => i

def operands : Expr → List Expr
  | leaf _ _ _ => []
  | unary _ _ _ a => [a]
  | binary _ _ _ a b => [a, b]
  | ternary _ _ _ a b c => [a, b, c]

section Fields

variable (o : ExprOp) (t : Ty) (i : U64) (a b c : Expr)

@[simp] theorem op_leaf : (leaf o t i).op = o := rfl
@[simp] theorem op_unary : (unary o t i a).op = o := rfl
@[simp] theorem op_binary : (binary o t i a b).op = o := rfl
@[simp] theorem op_ternary : (ternary o t i a b c).op = o := rfl
@[simp] theorem type_leaf : (leaf o t i).type = t := rfl
@[simp] theorem type_unary : (unary o t i a).type = t := rfl
@[simp] theorem type_binary : (binary o t i a b).type = t := rfl
@[simp] theorem type_ternary : (ternary o t i a b c).type = t := rfl
@[simp] theorem immediate_leaf : (leaf o t i).immediate = i := rfl
@[simp] theorem immediate_unary : (unary o t i a).immediate = i := rfl
@[simp] theorem immediate_binary : (binary o t i a b).immediate = i := rfl
@[simp] theorem immediate_ternary : (ternary o t i a b c).immediate = i := rfl
@[simp] theorem operands_leaf : (leaf o t i).operands = [] := rfl
@[simp] theorem operands_unary : (unary o t i a).operands = [a] := rfl
@[simp] theorem operands_binary : (binary o t i a b).operands = [a, b] := rfl
@[simp] theorem operands_ternary : (ternary o t i a b c).operands = [a, b, c] := rfl

end Fields

def operandCount (e : Expr) : Nat := e.operands.length

/-- Width of the node's type. -/
abbrev bits (e : Expr) : Nat := e.type.bits

/-- Number of edges on the longest path to a leaf. -/
def height : Expr → Nat
  | leaf _ _ _ => 0
  | unary _ _ _ a => a.height + 1
  | binary _ _ _ a b => max a.height b.height + 1
  | ternary _ _ _ a b c => max a.height (max b.height c.height) + 1

theorem height_lt_of_mem {e x : Expr} (h : x ∈ e.operands) : x.height < e.height := by
  cases e <;> simp only [operands_leaf, operands_unary, operands_binary, operands_ternary,
    List.not_mem_nil, List.mem_cons, or_false] at h <;> simp only [height] <;> grind

theorem operandInduction {motive : Expr → Prop}
  (step : ∀ e, (∀ x ∈ e.operands, motive x) → motive e) (e : Expr) : motive e := by
  induction e with
  | leaf o t i => exact step _ (by simp)
  | unary o t i a iha => exact step _ (by simpa using iha)
  | binary o t i a b iha ihb => exact step _ (by simpa using ⟨iha, ihb⟩)
  | ternary o t i a b c iha ihb ihc => exact step _ (by simpa using ⟨iha, ihb, ihc⟩)

/-- `sub.SubExpr e`: the node is `e` or below it. -/
inductive SubExpr : Expr → Expr → Prop where
  | refl (e : Expr) : SubExpr e e
  | step {s x e : Expr} (hx : x ∈ e.operands) (h : SubExpr s x) : SubExpr s e

theorem SubExpr.trans {r s e : Expr} (h : SubExpr r s) (h' : SubExpr s e) : SubExpr r e := by
  induction h' with
  | refl => exact h
  | step hx _ ih => exact .step hx ih

/-! ### Builders -/

/-- `Function::constant`: the value is normalised to the type's width. -/
def constant (type : Ty) (value : U64) : Expr :=
  leaf .const type (if type.bits ≥ 64 then value else zeroExtend value type.bits)

def boolean (value : Bool) : Expr := constant Ty.boolean (if value then 1#64 else 0#64)

def valueRef (type : Ty) (value : Nat) : Expr := leaf .value type (BitVec.ofNat 64 value)

def undefined (type : Ty) : Expr := leaf .undef type 0#64

def entryReg (type : Ty) (reg : Nat) : Expr := leaf .entryReg type (BitVec.ofNat 64 reg)

/-- `Function::unary`. -/
def mkUnary (op : ExprOp) (operand : Expr) : Expr :=
  unary op (if op.info.result = .boolean then Ty.boolean else operand.type) 0#64 operand

/-- `Function::binary`. -/
def mkBinary (op : ExprOp) (lhs rhs : Expr) : Expr :=
  binary op (if op.info.result = .boolean then Ty.boolean else lhs.type) 0#64 lhs rhs

/-- `Function::cast`. -/
def cast (op : ExprOp) (type : Ty) (operand : Expr) : Expr := unary op type 0#64 operand

def extract (type : Ty) (operand : Expr) (lowBit : Nat) : Expr :=
  unary .extract type (BitVec.ofNat 64 lowBit) operand

def concat (type : Ty) (high low : Expr) : Expr := binary .concat type 0#64 high low

def select (condition ifTrue ifFalse : Expr) : Expr :=
  ternary .select ifTrue.type 0#64 condition ifTrue ifFalse

def flagCondition (flags : Expr) (code : ConditionCode) : Expr :=
  unary .flagCond Ty.boolean (BitVec.ofNat 64 code.index) flags

/-- `Function::asConstant`. -/
def asConstant (e : Expr) : Option U64 :=
  if e.op = .const then some e.immediate else none

end Expr

end Xdec

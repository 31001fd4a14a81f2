import Xdec.Expr

/-!
# The expression interpreter

`Interpreter::eval` gives an expression its value in a machine state.  The
state enters through two functions only: the values defined so far and the
registers the block was seeded with.  The arithmetic of the host's floating
point unit is the one part of the evaluator that is not in the repository; it
is the parameter `HostFloat`.

`eval` carries the code's recursion depth and its errors.  `den` is the same
evaluation with the depth limit taken away and the errors forgotten; the two
agree wherever the limit is not met (`den_of_eval` and `eval_of_den`), and the
rewriting passes are measured against `den`.
-/

namespace Xdec

/-- The host's floating point operations, on bit patterns. -/
structure HostFloat where
  /-- `float` arithmetic of FAdd, FSub, FMul, FDiv and FSqrt. -/
  arith32 : ExprOp → BitVec 32 → BitVec 32 → BitVec 32
  /-- `double` arithmetic of the same operators. -/
  arith64 : ExprOp → U64 → U64 → U64
  ceil32 : BitVec 32 → BitVec 32
  ceil64 : U64 → U64
  /-- `static_cast<double>` of a `float`. -/
  widen : BitVec 32 → U64
  /-- `static_cast<float>` of a `double`. -/
  narrow : U64 → BitVec 32
  isnan : U64 → Bool
  eq : U64 → U64 → Bool
  lt : U64 → U64 → Bool
  le : U64 → U64 → Bool
  /-- `std::ldexp(1.0, n)`. -/
  ldexpOne : Nat → U64
  /-- The `double` constants `0.0` and `1.0`. -/
  zero : U64
  one : U64
  negate : U64 → U64
  /-- `static_cast<int64_t>` and `static_cast<uint64_t>` of a `double`. -/
  toInt : U64 → U64
  toUInt : U64 → U64
  /-- `static_cast<double>` of an `int64_t` and of a `uint64_t`. -/
  ofInt : U64 → U64
  ofUInt : U64 → U64

/-- What an expression's leaves read. -/
structure Env where
  host : HostFloat
  /-- The values defined so far; `none` for one not (yet) defined. -/
  value : Nat → Option U128
  /-- `readRegister`. -/
  readRegister : Nat → U128

/-- A float unit that answers zero throughout.  An expression without float
operators has the same value on every host. -/
def HostFloat.idle : HostFloat where
  arith32 _ _ _ := 0#32
  arith64 _ _ _ := 0#64
  ceil32 _ := 0#32
  ceil64 _ := 0#64
  widen _ := 0#64
  narrow _ := 0#32
  isnan _ := false
  eq _ _ := true
  lt _ _ := false
  le _ _ := true
  ldexpOne _ := 0#64
  zero := 0#64
  one := 0#64
  negate _ := 0#64
  toInt _ := 0#64
  toUInt _ := 0#64
  ofInt _ := 0#64
  ofUInt _ := 0#64

/-- A state in which nothing is defined and every register is zero. -/
def Env.idle : Env := ⟨HostFloat.idle, fun _ => none, fun _ => U128.zero⟩

inductive DiagCode where
  | analysisLimit | internal | verifyFailure | liftFailure | notImplemented
deriving DecidableEq

structure Diag where
  code : DiagCode
  message : String
deriving DecidableEq

/-! ## Flags -/

def signAt (width : Nat) (v : U64) : Bool := (v >>> (width - 1)) &&& 1#64 ≠ 0#64

/-- Sum of two masked operands and a carry-in, with the carry out. -/
def addWithCarry (width : Nat) (a b carryIn : U64) : U64 × Bool :=
  if width = 64 then
    let r1 := a + b
    let r := r1 + carryIn
    (r, decide (r1 < a) || decide (r < r1))
  else
    let sum := a + b + carryIn
    (sum &&& lowMask width, decide ((sum >>> width) &&& 1#64 ≠ 0#64))

def packNzcv (n z c v : Bool) : U64 :=
  (if n then 8#64 else 0#64) ||| (if z then 4#64 else 0#64) |||
    (if c then 2#64 else 0#64) ||| (if v then 1#64 else 0#64)

/-- NZCV of a flag definition, in bits 3..0. -/
def evalFlagDef (op : FlagOp) (width : Nat) (args : List U128) : U64 :=
  let m := lowMask width
  let arg := fun i => (args.getD i U128.zero).lo
  match op with
  | .add | .addCarry =>
    let a := arg 0 &&& m
    let b := arg 1 &&& m
    let carryIn := if op = .addCarry then arg 2 &&& 1#64 else 0#64
    let (r, c) := addWithCarry width a b carryIn
    packNzcv (signAt width r) (r = 0#64) c
      (signAt width a == signAt width b && signAt width r != signAt width a)
  | .sub | .subCarry =>
    let a := arg 0 &&& m
    let b := arg 1 &&& m
    -- Plain subtraction is a + ~b + 1; C is "no borrow".
    let carryIn := if op = .subCarry then arg 2 &&& 1#64 else 1#64
    let (r, c) := addWithCarry width a (if width = 64 then ~~~b else ~~~b &&& m) carryIn
    packNzcv (signAt width r) (r = 0#64) c
      (signAt width a != signAt width b && signAt width r != signAt width a)
  | .logical =>
    let r := arg 0 &&& m
    packNzcv (signAt width r) (r = 0#64) false false
  | .const => arg 0 &&& 0xf#64
  | .count => 0#64

def evalCondition (code : ConditionCode) (nzcv : U64) : Bool :=
  let n : Bool := nzcv &&& 8#64 ≠ 0#64
  let z : Bool := nzcv &&& 4#64 ≠ 0#64
  let c : Bool := nzcv &&& 2#64 ≠ 0#64
  let v : Bool := nzcv &&& 1#64 ≠ 0#64
  match code with
  | .equal => z
  | .notEqual => !z
  | .carrySet => c
  | .carryClear => !c
  | .negative => n
  | .nonNegative => !n
  | .overflow => v
  | .noOverflow => !v
  | .unsignedGreater => c && !z
  | .unsignedLessEqual => !c || z
  | .signedGreaterEqual => n == v
  | .signedLess => n != v
  | .signedGreater => !z && (n == v)
  | .signedLessEqual => z || (n != v)
  | .always => true
  | .never => false
  | .count => false

def flagBitPosition (bit : FlagBitIndex) : Nat :=
  match bit with
  | .negative => 3
  | .zero => 2
  | .carry => 1
  | _ => 0

/-! ## One node -/

/-- `ConcreteValue{value ? 1 : 0, 0}`. -/
def boolValue (value : Bool) : U128 := ⟨if value then 1#64 else 0#64, 0#64⟩

/-- A host word as a value. -/
def word (lo : U64) : U128 := ⟨lo, 0#64⟩

/-- `static_cast<unsigned>` of a shift amount. -/
def shiftAmount (b : U128) : Nat := b.lo.toNat % 2 ^ 32

/-- A `double` read from a pattern of the given width. -/
def HostFloat.load (host : HostFloat) (width : Nat) (v : U128) : U64 :=
  if width = 32 then host.widen (v.lo.setWidth 32) else v.lo

/-- A `double` written as a pattern of the given width. -/
def HostFloat.store (host : HostFloat) (width : Nat) (d : U64) : U128 :=
  if width = 32 then word ((host.narrow d).setWidth 64) else word d

def fpToInt (host : HostFloat) (signed : Bool) (width : Nat) (x : U64) : U128 :=
  -- ARM fcvtzs/fcvtzu saturate and map NaN to zero.
  if host.isnan x then U128.zero
  else if signed then
    let upper := host.ldexpOne (width - 1)
    if host.le upper x then
      U128.mask (word (host.toInt (host.arith64 .fSub upper host.one))) width
    else if host.lt x (host.negate upper) then
      U128.mask (word (host.toInt (host.negate upper))) width
    else U128.mask (word (host.toInt x)) width
  else
    let upper := host.ldexpOne width
    if host.le x host.zero then U128.zero
    else if host.le upper x then U128.maskOf width
    else U128.mask (word (host.toUInt x)) width

/-- Width of operand `index`. -/
def Expr.operandBits (e : Expr) (index : Nat) : Nat :=
  (e.operands.getD index (Expr.undefined Ty.voidType)).bits

/-- The switch of `Interpreter::eval`: the value of a node from the values of
its operands. -/
def applyOp (env : Env) (e : Expr) (args : List U128) : Except Diag U128 :=
  let width := e.bits
  let a := args.getD 0 U128.zero
  let b := args.getD 1 U128.zero
  let c := args.getD 2 U128.zero
  match e.op with
  | .const => .ok (U128.mask (word e.immediate) width)
  | .value =>
    match env.value (e.immediate.toNat % 2 ^ 32) with
    | some v => .ok v
    | none => .error ⟨.verifyFailure, "value used before its definition"⟩
  | .undef => .error ⟨.liftFailure, "an undef value was evaluated"⟩
  | .entryReg => .ok (env.readRegister (e.immediate.toNat % 2 ^ 32))
  | .add => .ok (U128.add a b width).1
  | .sub => .ok (U128.sub a b width)
  | .mul => .ok (U128.mulLow a b width)
  | .mulHiU =>
    if width ≠ 64 then .error ⟨.notImplemented, "mulhi.u is implemented at width 64"⟩
    else .ok (word (U128.mul64x64 a.lo b.lo).1)
  | .mulHiS =>
    if width ≠ 64 then .error ⟨.notImplemented, "mulhi.s is implemented at width 64"⟩
    else
      -- Signed correction: subtract a if b is negative, b if a is.
      let hi := (U128.mul64x64 a.lo b.lo).1
      let hi := if a.lo >>> 63 ≠ 0#64 then hi - b.lo else hi
      let hi := if b.lo >>> 63 ≠ 0#64 then hi - a.lo else hi
      .ok (word hi)
  | .divU =>
    if width > 64 then .error ⟨.notImplemented, "div.u above 64 bits"⟩
    else if b.lo = 0#64 then .ok U128.zero
    else .ok (U128.mask (word (a.lo / b.lo)) width)
  | .divS =>
    if width > 64 then .error ⟨.notImplemented, "div.s above 64 bits"⟩
    else
      let dividend := (U128.sext a width 64).lo
      let divisor := (U128.sext b width 64).lo
      if divisor = 0#64 then .ok U128.zero
      else
        let quotient := if divisor = -1#64 then -dividend else dividend.sdiv divisor
        .ok (U128.mask (word quotient) width)
  | .remU =>
    if width > 64 then .error ⟨.notImplemented, "rem.u above 64 bits"⟩
    else if b.lo = 0#64 then .ok (U128.mask a width)
    else .ok (U128.mask (word (a.lo % b.lo)) width)
  | .remS =>
    if width > 64 then .error ⟨.notImplemented, "rem.s above 64 bits"⟩
    else
      let dividend := (U128.sext a width 64).lo
      let divisor := (U128.sext b width 64).lo
      if divisor = 0#64 then .ok (U128.mask a width)
      else
        let remainder := if divisor = -1#64 then 0#64 else dividend.srem divisor
        .ok (U128.mask (word remainder) width)
  | .neg => .ok (U128.sub U128.zero a width)
  | .and => .ok (U128.mask (U128.and a b) width)
  | .or => .ok (U128.mask (U128.or a b) width)
  | .xor => .ok (U128.mask (U128.xor a b) width)
  | .not => .ok (U128.xor a (U128.maskOf width))
  | .shl => .ok (U128.shl a width (shiftAmount b))
  | .shrU => .ok (U128.shrU a width (shiftAmount b))
  | .shrS => .ok (U128.shrS a width (shiftAmount b))
  | .rotR => .ok (U128.rotR a width (shiftAmount b))
  | .rotL => .ok (U128.rotL a width (shiftAmount b))
  | .cmpEq => .ok (boolValue (a.lo == b.lo && a.hi == b.hi))
  | .cmpNe => .ok (boolValue (a.lo != b.lo || a.hi != b.hi))
  | .cmpLtU => .ok (boolValue (U128.cmpU a b == .lt))
  | .cmpLeU => .ok (boolValue (U128.cmpU a b != .gt))
  | .cmpLtS => .ok (boolValue (U128.cmpS a b (e.operandBits 0) == .lt))
  | .cmpLeS => .ok (boolValue (U128.cmpS a b (e.operandBits 0) != .gt))
  | .zext => .ok (U128.zext a (e.operandBits 0) width)
  | .sext => .ok (U128.sext a (e.operandBits 0) width)
  | .trunc => .ok (U128.mask a width)
  | .bitcast => .ok (U128.mask a width)
  | .extract => .ok (U128.extract a (e.operandBits 0) (e.immediate.toNat % 2 ^ 32) width)
  | .concat =>
    let lowWidth := e.operandBits 1
    .ok (U128.mask (U128.or (U128.shl a width lowWidth) (U128.mask b lowWidth)) width)
  | .clz => .ok (word (BitVec.ofNat 64 (U128.clzOf a width)))
  | .ctz => .ok (word (BitVec.ofNat 64 (U128.ctzOf a width)))
  | .popCount => .ok (word (BitVec.ofNat 64 (U128.popCountOf a width)))
  | .byteSwap => .ok (U128.bswapOf a width)
  | .bitReverse => .ok (U128.brevOf a width)
  | .select => .ok (if a.lo &&& 1#64 ≠ 0#64 then b else c)
  | .flagDef => .ok (word (evalFlagDef (flagDefOp e.immediate) (flagDefWidth e.immediate) args))
  | .flagCond => .ok (boolValue (evalCondition (conditionOf e.immediate) (a.lo &&& 0xf#64)))
  | .flagBit =>
    .ok (boolValue ((a.lo >>> flagBitPosition (flagBitOf e.immediate)) &&& 1#64 ≠ 0#64))
  | .fAdd | .fSub | .fMul | .fDiv | .fSqrt =>
    if width = 32 then
      .ok (word ((env.host.arith32 e.op (a.lo.setWidth 32) (b.lo.setWidth 32)).setWidth 64))
    else .ok (word (env.host.arith64 e.op a.lo b.lo))
  | .fNeg =>
    -- Sign flip is exact even on NaN.
    .ok (word (a.lo ^^^ (if width = 32 then 0x80000000#64 else 0x8000000000000000#64)))
  | .fAbs =>
    .ok (word (a.lo &&& (if width = 32 then 0x7fffffff#64 else 0x7fffffffffffffff#64)))
  | .fCeil =>
    if width = 32 then .ok (word ((env.host.ceil32 (a.lo.setWidth 32)).setWidth 64))
    else .ok (word (env.host.ceil64 a.lo))
  | .fCmpEq | .fCmpLt | .fCmpLe | .fCmpUnordered =>
    -- The width tested is the node's own, which is that of a boolean.
    let x := env.host.load width a
    let y := env.host.load width b
    if env.host.isnan x || env.host.isnan y then .ok (boolValue (e.op == .fCmpUnordered))
    else if e.op = .fCmpEq then .ok (boolValue (env.host.eq x y))
    else if e.op = .fCmpLt then .ok (boolValue (env.host.lt x y))
    else if e.op = .fCmpLe then .ok (boolValue (env.host.le x y))
    else .ok (boolValue false)
  | .fpConvert => .ok (env.host.store width (env.host.load (e.operandBits 0) a))
  | .fpToIntS => .ok (fpToInt env.host true width (env.host.load (e.operandBits 0) a))
  | .fpToIntU => .ok (fpToInt env.host false width (env.host.load (e.operandBits 0) a))
  | .intToFpS =>
    .ok (env.host.store width (env.host.ofInt (U128.sext a (e.operandBits 0) 64).lo))
  | .intToFpU =>
    .ok (env.host.store width (env.host.ofUInt (U128.zext a (e.operandBits 0) 64).lo))

/-! ## The recursion -/

def kMaxInterpDepth : Nat := 512

def ExprOp.readsFlags (op : ExprOp) : Bool := op == .flagCond || op == .flagBit

/-- Body of `Interpreter::eval` below the operand recursion.  Each operand is
given as its two evaluators: `false` for `eval`, `true` for
`evalFlagsOperand`. -/
def evalNode (env : Env) (e : Expr) (operands : List (Bool → Nat → Except Diag U128))
    (depth : Nat) : Except Diag U128 :=
  if depth > kMaxInterpDepth then
    .error ⟨.analysisLimit, "expression nesting too deep"⟩
  else if e.bits > 128 && !e.type.isFlags then
    .error ⟨.internal, s!"interpreter supports widths to 128, not {e.bits}"⟩
  else do
    let args ← operands.mapM fun operand => operand e.op.readsFlags (depth + 1)
    applyOp env e args

/-- Entry to a node from its parent: `evalFlagsOperand` materialises a FlagDef
directly and otherwise evaluates the node one level further down. -/
def evalEnter (env : Env) (e : Expr) (operands : List (Bool → Nat → Except Diag U128))
    (asFlags : Bool) (depth : Nat) : Except Diag U128 :=
  match asFlags with
  | false => evalNode env e operands depth
  | true =>
    if e.op = .flagDef then do
      let args ← operands.mapM fun operand => operand false (depth + 1)
      .ok (word (evalFlagDef (flagDefOp e.immediate) (flagDefWidth e.immediate) args))
    else do
      let value ← evalNode env e operands (depth + 1)
      .ok (word (value.lo &&& 0xf#64))

/-- Both evaluators of an expression. -/
def evalAs (env : Env) : Expr → Bool → Nat → Except Diag U128
  | e@(.leaf _ _ _) => evalEnter env e []
  | e@(.unary _ _ _ a) => evalEnter env e [evalAs env a]
  | e@(.binary _ _ _ a b) => evalEnter env e [evalAs env a, evalAs env b]
  | e@(.ternary _ _ _ a b c) => evalEnter env e [evalAs env a, evalAs env b, evalAs env c]

/-- `Interpreter::eval`. -/
def eval (env : Env) (e : Expr) (depth : Nat) : Except Diag U128 := evalAs env e false depth

/-- `Interpreter::evalFlagsOperand`. -/
def evalFlagsOperand (env : Env) (e : Expr) (depth : Nat) : Except Diag U128 :=
  evalAs env e true depth

theorem evalAs_eq (env : Env) (e : Expr) :
  evalAs env e = evalEnter env e (e.operands.map (evalAs env)) := by
  cases e <;> rfl

end Xdec

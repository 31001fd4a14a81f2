import Xdec.Idioms
import Xdec.Ceval

/-!
# The local rule tier and the walk that drives it

`passes/algebra.cpp`: one node at a time is handed to `rewriteOnce`, which
folds constants, applies the local rules of the node's operator and tries the
idiom matchers; `simplify` walks an expression bottom up with a memo.

A rule list of the source returns at its first match.  The local rules of an
operator are gathered in one function (`addRules`, `subRules`, ...), so that
they can be spoken of without the idiom matchers they are interleaved with;
`rewriteAdd` and its siblings put the two together in the source's order.
-/

namespace Xdec

namespace Algebra

/-! ## Predicates -/

def isConst (e : Expr) (value : U64) : Bool := e.asConstant == some value

def isZero (e : Expr) : Bool := isConst e 0#64

def isAllOnes (e : Expr) : Bool :=
  e.type.isScalarInteger &&
    isConst e (if e.bits ≥ 64 then ~~~0#64 else zeroExtend (~~~0#64) e.bits)

/-- The operand of a node of the given unary operator. -/
def operandOf (e : Expr) (op : ExprOp) : Option Expr :=
  match e with
  | .unary o _ _ a => if o = op then some a else none
  | _ => none

/-- A constant computed in a host word, cut to the type. -/
def folded (t : Ty) (value : U64) : Expr := .constant t (zeroExtend value t.bits)

/-- Const migrates right. -/
def normaliseCommutative (p q : Expr) : Expr × Expr :=
  if p.op = .const ∧ q.op ≠ .const then (q, p) else (p, q)

/-! ## Arithmetic -/

/-- `(x + k1) + k`, `(x - k1) + k` and `(k1 - x) + k`. -/
def reassociateAdd (t : Ty) (x y : Expr) : Option Expr :=
  match y.asConstant, x with
  | some k, .binary o _ _ p q =>
    match q.asConstant, p.asConstant with
    | some k1, _ =>
      if o = .add then some (.mkBinary .add p (folded t (k1 + k)))
      else if o = .sub then some (.mkBinary .add p (folded t (k - k1)))
      else none
    | none, some k1 => if o = .sub then some (.mkBinary .sub (folded t (k1 + k)) q) else none
    | none, none => none
  | _, _ => none

def addRules (t : Ty) (x y : Expr) : Option Expr :=
  (if isConst y 1#64 then (operandOf x .not).map (.mkUnary .neg) else none)
    <|> (if isZero y then some x else none)
    <|> (operandOf x .neg).map (.mkBinary .sub y)
    <|> (operandOf y .neg).map (.mkBinary .sub x)
    <|> reassociateAdd t x y

/-- `(x - k1) - k`, `(x + k1) - k` and `(k1 - x) - k`. -/
def reassociateSub (t : Ty) (x y : Expr) : Option Expr :=
  match y.asConstant, x with
  | some k, .binary o _ _ p q =>
    match q.asConstant, p.asConstant with
    | some k1, _ =>
      if o = .sub then some (.mkBinary .sub p (folded t (k1 + k)))
      else if o = .add then some (.mkBinary .add p (folded t (k1 - k)))
      else none
    | none, some k1 => if o = .sub then some (.mkBinary .sub (folded t (k1 - k)) q) else none
    | none, none => none
  | _, _ => none

/-- `k - (x - k2)` and `k - (x + k2)`. -/
def reassociateSubMirror (t : Ty) (x y : Expr) : Option Expr :=
  match x.asConstant, y with
  | some k, .binary o _ _ p q =>
    match q.asConstant with
    | some k2 =>
      if o = .sub then some (.mkBinary .sub (folded t (k + k2)) p)
      else if o = .add then some (.mkBinary .sub (folded t (k - k2)) p)
      else none
    | none => none
  | _, _ => none

def subRules (t : Ty) (x y : Expr) : Option Expr :=
  (if isZero y then some x else none)
    <|> (if x = y then some (.constant t 0#64) else none)
    <|> (operandOf y .neg).map (.mkBinary .add x)
    <|> (if isZero x then some (.mkUnary .neg y) else none)
    <|> reassociateSub t x y
    <|> reassociateSubMirror t x y

/-- `(x * k1) * k2`. -/
def reassociateMul (t : Ty) (x y : Expr) : Option Expr :=
  match y.asConstant, x with
  | some k2, .binary o _ _ p q =>
    match q.asConstant with
    | some k1 => if o = .mul then some (.mkBinary .mul p (folded t (k1 * k2))) else none
    | none => none
  | _, _ => none

def mulRules (t : Ty) (x y : Expr) : Option Expr :=
  (if isZero y then some (.constant t 0#64) else none)
    <|> (if isConst y 1#64 then some x else none)
    <|> reassociateMul t x y

/-! ## Bitwise -/

def reassociateAnd (t : Ty) (x y : Expr) : Option Expr :=
  match y.asConstant, x with
  | some k2, .binary o _ _ p q =>
    match q.asConstant with
    | some k1 => if o = .and then some (.mkBinary .and p (.constant t (k1 &&& k2))) else none
    | none => none
  | _, _ => none

def andRules (t : Ty) (x y : Expr) : Option Expr :=
  (if isZero y then some (.constant t 0#64) else none)
    <|> (if isAllOnes y ∨ x = y then some x else none)
    <|> reassociateAnd t x y

def orRules (x y : Expr) : Option Expr :=
  (if isZero y ∨ x = y then some x else none) <|> (if isAllOnes y then some y else none)

def xorRules (t : Ty) (x y : Expr) : Option Expr :=
  (if isZero y then some x else none)
    <|> (if x = y then some (.constant t 0#64) else none)
    <|> (if isAllOnes y then some (.mkUnary .not x) else none)

def notRules (t : Ty) (x : Expr) : Option Expr :=
  operandOf x .not
    <|> (operandOf x .neg).map fun a => .mkBinary .sub a (.constant t 1#64)

def negRules (t : Ty) (x : Expr) : Option Expr :=
  operandOf x .neg
    <|> (operandOf x .not).map fun a => .mkBinary .add a (.constant t 1#64)

def shiftRules (x y : Expr) : Option Expr := if isZero y then some x else none

/-! ## Selects, flag conditions and casts -/

def selectRules (c x y : Expr) : Option Expr :=
  match c.asConstant with
  | some condition => some (if condition ≠ 0#64 then x else y)
  | none => if x = y then some x else none

/-- The NZCV truth table. -/
def conditionValue (code : ConditionCode) (nzcv : U64) : Bool :=
  let n : Bool := (nzcv >>> 3) &&& 1#64 ≠ 0#64
  let z : Bool := (nzcv >>> 2) &&& 1#64 ≠ 0#64
  let c : Bool := (nzcv >>> 1) &&& 1#64 ≠ 0#64
  let v : Bool := nzcv &&& 1#64 ≠ 0#64
  match code with
  | .equal => z
  | .notEqual => !z
  | .carrySet => c
  | .carryClear => !c
  | .negative => n
  | .nonNegative => !n
  | .overflow => v
  | .noOverflow => !v
  | .unsignedGreater => c && !z
  | .unsignedLessEqual => !c || z
  | .signedGreaterEqual => n == v
  | .signedLess => n != v
  | .signedGreater => !z && (n == v)
  | .signedLessEqual => z || (n != v)
  | .always => true
  | .never => false
  | .count => false

def flagCondRules (t : Ty) (immediate : U64) (flags : Expr) : Option Expr :=
  if flags.op ≠ .flagDef then none
  else
    let code := conditionOf immediate
    let flagOp := flagDefOp flags.immediate
    let literal :=
      if flagOp = .const then
        (flags.operands.head?.bind Expr.asConstant).map fun nzcv =>
          Expr.constant t (if conditionValue code nzcv then 1#64 else 0#64)
      else none
    -- A logical flag write clears C and V.
    let logical :=
      if flagOp = .logical then
        if code = .carrySet ∨ code = .overflow then some (Expr.constant t 0#64)
        else if code = .carryClear ∨ code = .noOverflow then some (Expr.constant t 1#64)
        else none
      else none
    literal <|> logical

def castRules (op : ExprOp) (t : Ty) (immediate : U64) (source : Expr) : Option Expr :=
  match op with
  | .zext | .sext => if source.type = t then some source else none
  | .trunc =>
    (if source.type = t then some source else none)
      <|> (operandOf source .zext).bind fun inner => if inner.type = t then some inner else none
  | .extract =>
    if immediate = 0#64 ∧ t.bits < source.bits then some (.cast .trunc t source) else none
  | _ => none

/-! ## One node -/

/-- The operators whose node `normaliseCommutative` is applied to. -/
def commutes (op : ExprOp) : Bool :=
  match op with
  | .add | .mul | .and | .or | .xor => true
  | _ => false

/-- The node with its operands in normal order. -/
def normalised (e : Expr) : Expr :=
  match e with
  | .binary o t i p q =>
    if commutes o then
      let (x, y) := normaliseCommutative p q
      .binary o t i x y
    else e
  | _ => e

/-- The local rules, on a node in normal order. -/
def localRules (e : Expr) : Option Expr :=
  match e with
  | .binary .add t _ x y => addRules t x y
  | .binary .sub t _ x y => subRules t x y
  | .binary .mul t _ x y => mulRules t x y
  | .binary .and t _ x y => andRules t x y
  | .binary .or _ _ x y => orRules x y
  | .binary .xor t _ x y => xorRules t x y
  | .unary .not t _ x => notRules t x
  | .unary .neg t _ x => negRules t x
  | .binary .shl _ _ x y => shiftRules x y
  | .binary .shrU _ _ x y => shiftRules x y
  | .binary .shrS _ _ x y => shiftRules x y
  | .binary .rotR _ _ x y => shiftRules x y
  | .binary .rotL _ _ x y => shiftRules x y
  | .ternary .select _ _ c x y => selectRules c x y
  | .unary .flagCond t imm x => flagCondRules t imm x
  | .unary .zext t imm x => castRules .zext t imm x
  | .unary .sext t imm x => castRules .sext t imm x
  | .unary .trunc t imm x => castRules .trunc t imm x
  | .unary .extract t imm x => castRules .extract t imm x
  | _ => none

/-- The constant fold. -/
def foldRule (e : Expr) : Option Expr :=
  if 0 < e.operandCount ∧ e.op ≠ .const ∧ e.type.isScalarInteger ∧ e.bits ≤ 64 then
    (tryEvalConst e).map fun value => .constant e.type value.lo
  else none

/-- A product known even, masked down to its parity bit. -/
def evenRule (e : Expr) : Option Expr :=
  match e with
  | .binary .and t _ x y =>
    if isConst y 1#64 ∧ Idioms.matchEvenProduct x then some (.constant t 0#64) else none
  | _ => none

def rewriteAdd (e : Expr) : Option Expr := Idioms.matchMbaAdd e <|> localRules e

def rewriteSub (e : Expr) : Option Expr :=
  Idioms.matchMbaSub e <|> Idioms.matchObfuscatedIncrement e <|> localRules e

def rewriteAnd (e : Expr) : Option Expr :=
  localRules e <|> evenRule e <|> Idioms.matchMaskedRotate e <|> Idioms.matchMaskedShift e
    <|> Idioms.matchCarryCompare e

def rewriteOr (e : Expr) : Option Expr :=
  localRules e <|> Idioms.matchSignExtend e <|> Idioms.matchMbaOr e
    <|> Idioms.matchCarryCompareOr e

def rewriteXor (e : Expr) : Option Expr := localRules e <|> Idioms.matchMbaXor e

def rewriteCompare (e : Expr) : Option Expr :=
  Idioms.matchShiftedCompare e <|> Idioms.matchCancelledSubtrahend e

/-- The rules of a node's operator, in the order the source tries them.
`rewriteMul`, `rewriteNot`, `rewriteNeg`, `rewriteShift`, `rewriteSelect`,
`rewriteFlagCond` and `rewriteCast` have local rules only. -/
def rewriteNode (e : Expr) : Option Expr :=
  match e.op with
  | .add => rewriteAdd e
  | .sub => rewriteSub e
  | .and => rewriteAnd e
  | .or => rewriteOr e
  | .xor => rewriteXor e
  | .cmpEq | .cmpNe | .cmpLtU | .cmpLeU | .cmpLtS | .cmpLeS => rewriteCompare e
  | _ => localRules e

def rewriteOnce (e : Expr) : Expr :=
  match foldRule e with
  | some constant => constant
  | none => (rewriteNode (normalised e)).getD (normalised e)

/-! ## The walk -/

def kMaxRounds : Nat := 8

def kMaxDepth : Nat := 512

/-- `rewriteToFixpoint` with the number of rounds left, and the nodes it handed
to `rewriteOnce`. -/
def rewriteRounds : Nat → Expr → Expr × List Expr
  | 0, e => (e, [])
  | rounds + 1, e =>
    let next := rewriteOnce e
    if next = e then (e, [e])
    else
      let (result, steps) := rewriteRounds rounds next
      (result, e :: steps)

def rewriteToFixpoint (e : Expr) : Expr × List Expr := rewriteRounds kMaxRounds e

/-- The memo of the walk, and a record of the nodes handed to `rewriteOnce`. -/
structure State where
  memo : Expr → Option Expr
  steps : List Expr

def State.empty : State := ⟨fun _ => none, []⟩

/-- End of `simplify` at a node whose operands are done. -/
def State.finish (s : State) (e rebuilt : Expr) : Expr × State :=
  let (result, steps) := rewriteToFixpoint rebuilt
  (result, ⟨fun x => if x = e then some result else s.memo x, s.steps ++ steps⟩)

def simplify : Expr → Nat → State → Expr × State
  | e@(.leaf _ _ _), depth, s =>
    match s.memo e with
    | some r => (r, s)
    | none =>
      if depth ≥ kMaxDepth then (e, s)
      else (e, { s with memo := fun x => if x = e then some e else s.memo x })
  | e@(.unary o t i a), depth, s =>
    match s.memo e with
    | some r => (r, s)
    | none =>
      if depth ≥ kMaxDepth then (e, s)
      else
        let (a', s) := simplify a (depth + 1) s
        s.finish e (.unary o t i a')
  | e@(.binary o t i a b), depth, s =>
    match s.memo e with
    | some r => (r, s)
    | none =>
      if depth ≥ kMaxDepth then (e, s)
      else
        let (a', s) := simplify a (depth + 1) s
        let (b', s) := simplify b (depth + 1) s
        s.finish e (.binary o t i a' b')
  | e@(.ternary o t i a b c), depth, s =>
    match s.memo e with
    | some r => (r, s)
    | none =>
      if depth ≥ kMaxDepth then (e, s)
      else
        let (a', s) := simplify a (depth + 1) s
        let (b', s) := simplify b (depth + 1) s
        let (c', s) := simplify c (depth + 1) s
        s.finish e (.ternary o t i a' b' c')

/-- `simplifyAlgebra` over a function's operands: one walk with one memo. -/
def simplifyAll : List Expr → State → List Expr × State
  | [], s => ([], s)
  | e :: es, s =>
    let (r, s) := simplify e 0 s
    let (rs, s) := simplifyAll es s
    (r :: rs, s)

end Algebra

end Xdec

import Xdec.Rewrite

/-!
# The idiom matchers

Each matcher of `passes/algebra_idioms.cpp` recognises a shape that spans
several nodes and returns the expression the shape stands for.  The two
operand orders of a commutative pair are tried by the source in a loop over
`arm`; here the loop is the alternative `<|>` of its two rounds.
-/

namespace Xdec

namespace Idioms

/-- Whether `a` and `b` are the same unordered pair as `x` and `y`. -/
def samePair (a b x y : Expr) : Bool := (a == x && b == y) || (a == y && b == x)

/-- A binary node's operands when it has the given op. -/
def operandsOf (e : Expr) (op : ExprOp) : Option (Expr × Expr) :=
  match e with
  | .binary o _ _ a b => if o = op then some (a, b) else none
  | _ => none

/-- The operand of a doubling: `v * 2` or `v << 1`. -/
def doubledOperand (e : Expr) : Option Expr :=
  match e with
  | .binary o _ _ a b =>
    if o = .mul then (if b.asConstant = some 2#64 then some a else none)
    else if o = .shl then (if b.asConstant = some 1#64 then some a else none)
    else none
  | _ => none

/-- Whether `bit` is bit `index` of `source`, as a one-bit value. -/
def isBitOf (bit : Expr) (index : Nat) (source : Expr) : Bool :=
  match bit with
  | .unary o t imm x =>
    t.isBoolean && x == source &&
      (if o = .extract then imm == BitVec.ofNat 64 index else o == .trunc && index == 0)
  | _ => false

/-- Which bits of a `width`-bit result a shift can leave set. -/
def reachableBits (op : ExprOp) (width amount : Nat) : U64 :=
  if amount ≥ width then 0#64
  else
    match op with
    | .shl => zeroExtend (~~~0#64 <<< amount) width
    | .shrU => lowMask (width - amount)
    | _ => zeroExtend (~~~0#64) width

/-! ## Carry comparisons -/

structure CarryBound where
  other : Expr
  bound : U64
  type : Ty

/-- One round of the loop of `matchCarryBound`: `sumId` is the comparison
operand tried as the sum, `other` its sibling. -/
def carryArm (sumId other eqLhs : Expr) : Option CarryBound :=
  if sumId ≠ eqLhs then none
  else
    match sumId with
    | .binary o t _ x y =>
      if o ≠ .add ∨ x ≠ other then none
      else if !t.isScalarInteger || t.bits == 0 then none
      else
        match y.asConstant with
        | some added =>
          if added = 0#64 then none
          else some ⟨other, zeroExtend (0#64 - added) t.bits, t⟩
        | none => none
    | _ => none

/-- The shared shape behind both carry-compare idioms. -/
def matchCarryBound (cmpId eqId : Expr) (cmpOp eqOp : ExprOp) : Option CarryBound :=
  match operandsOf cmpId cmpOp, operandsOf eqId eqOp with
  | some (p, q), some (lhs, rhs) =>
    if rhs.asConstant = some 0#64 then carryArm p q lhs <|> carryArm q p lhs else none
  | _, _ => none

def matchCarryCompare (andExpr : Expr) : Option Expr :=
  match andExpr with
  | .binary _ _ _ p q =>
    (matchCarryBound p q .cmpLtU .cmpNe <|> matchCarryBound q p .cmpLtU .cmpNe).map fun m =>
      .mkBinary .cmpLtU (.constant m.type m.bound) m.other
  | _ => none

def matchCarryCompareOr (orExpr : Expr) : Option Expr :=
  match orExpr with
  | .binary _ _ _ p q =>
    (matchCarryBound p q .cmpLeU .cmpEq <|> matchCarryBound q p .cmpLeU .cmpEq).map fun m =>
      .mkBinary .cmpLeU m.other (.constant m.type m.bound)
  | _ => none

/-! ## Sign extension, rotates and shifts -/

/-- One round of `matchSignExtend`: `highHalf` is tried as the spread sign
bit, `lowHalf` as the masked field. -/
def signExtendArm (type : Ty) (highHalf lowHalf : Expr) : Option Expr :=
  match operandsOf highHalf .and, operandsOf lowHalf .and with
  | some (spread, highMask), some (source, lowMaskId) =>
    match highMask.asConstant, lowMaskId.asConstant with
    | some highBits, some lowBits =>
      let fieldBits := countTrailingZeros (~~~lowBits)
      if fieldBits ≠ 1 ∧ fieldBits ≠ 8 ∧ fieldBits ≠ 16 ∧ fieldBits ≠ 32 then none
      else if fieldBits ≥ type.bits ∨ lowBits ≠ lowMask fieldBits ∨
          highBits ≠ zeroExtend (~~~lowBits) type.bits then none
      else
        match spread with
        | .unary o t _ bit =>
          if o ≠ .sext ∨ t ≠ type then none
          else if !isBitOf bit (fieldBits - 1) source then none
          -- A single bit spread across a word is negation.
          else if fieldBits = 1 then some (.mkUnary .neg (.mkBinary .and source lowMaskId))
          else some (.cast .sext type (.cast .trunc (.integer fieldBits) source))
        | _ => none
    | _, _ => none
  | _, _ => none

def matchSignExtend (orExpr : Expr) : Option Expr :=
  match orExpr with
  | .binary _ t _ p q =>
    if !t.isScalarInteger || t.bits == 0 then none
    else signExtendArm t p q <|> signExtendArm t q p
  | _ => none

def matchMaskedRotate (andExpr : Expr) : Option Expr :=
  match andExpr with
  | .binary _ t _ p q =>
    let width := t.bits
    if !t.isScalarInteger || width == 0 then none
    else
      match q.asConstant, p with
      | some mask, .binary o _ _ value amountId =>
        if o ≠ .rotR ∧ o ≠ .rotL then none
        else
          match amountId.asConstant with
          | some amount =>
            if amount = 0#64 ∨ amount.toNat ≥ width then none
            else
              let right := if o = .rotR then amount.toNat else width - amount.toNat
              let fromRight := lowMask (width - right)
              let fromLeft := zeroExtend (~~~fromRight) width
              if mask &&& fromRight = 0#64 then
                some (.mkBinary .and
                  (.mkBinary .shl value (.constant t (BitVec.ofNat 64 (width - right)))) q)
              else if mask &&& fromLeft = 0#64 then
                some (.mkBinary .and
                  (.mkBinary .shrU value (.constant t (BitVec.ofNat 64 right))) q)
              else none
          | none => none
      | _, _ => none
  | _ => none

def matchMaskedShift (andExpr : Expr) : Option Expr :=
  match andExpr with
  | .binary _ t _ p q =>
    let width := t.bits
    if !t.isScalarInteger || width == 0 then none
    else
      match q.asConstant, p with
      | some mask, .binary o _ _ _ amountId =>
        if o ≠ .shl ∧ o ≠ .shrU then none
        else
          match amountId.asConstant with
          | some amount =>
            if amount.toNat ≥ width then none
            else
              let reachable := reachableBits o width amount.toNat
              if mask &&& reachable ≠ reachable then none else some p
          | none => none
      | _, _ => none
  | _ => none

/-! ## Mixed boolean arithmetic -/

/-- Two nodes over one unordered pair, and what they stand for. -/
def pairRule (outer inner result : ExprOp) (lhs rhs : Expr) : Option Expr :=
  match operandsOf lhs outer, operandsOf rhs inner with
  | some (x, y), some (p, q) =>
    if samePair x y p q then some (.mkBinary result x y) else none
  | _, _ => none

/-- One round of `matchMbaAdd`: the sum of a carry and a doubled intersection,
of a union and an intersection, or of two disjoint halves. -/
def mbaAddArm (lhs rhs : Expr) : Option Expr :=
  (doubledOperand rhs).bind (pairRule .xor .and .add lhs)
    <|> pairRule .or .and .add lhs rhs
    <|> pairRule .and .xor .or lhs rhs

def matchMbaAdd (addExpr : Expr) : Option Expr :=
  match addExpr with
  | .binary _ _ _ p q => mbaAddArm p q <|> mbaAddArm q p
  | _ => none

def matchMbaOr (orExpr : Expr) : Option Expr :=
  match orExpr with
  | .binary _ _ _ p q => pairRule .and .xor .or p q <|> pairRule .and .xor .or q p
  | _ => none

def matchMbaXor (xorExpr : Expr) : Option Expr :=
  match xorExpr with
  | .binary _ _ _ p q => pairRule .or .and .xor p q <|> pairRule .or .and .xor q p
  | _ => none

def matchMbaSub (subExpr : Expr) : Option Expr :=
  match subExpr with
  | .binary _ _ _ lhs rhs =>
    pairRule .or .and .xor lhs rhs
      <|> (doubledOperand lhs).bind fun doubled => pairRule .or .xor .add doubled rhs
  | _ => none

def matchObfuscatedIncrement (subExpr : Expr) : Option Expr :=
  match subExpr with
  | .binary _ t _ p q =>
    match operandsOf p .or with
    | some (l, two) =>
      match doubledOperand l with
      | some v =>
        if two.asConstant ≠ some 2#64 then none
        else
          match operandsOf q .xor with
          | some (x, one) =>
            if x ≠ v ∨ one.asConstant ≠ some 1#64 then none
            else some (.mkBinary .add v (.constant t 1#64))
          | none => none
      | none => none
    | none => none
  | _ => none

/-- One round of `matchEvenProduct`. -/
def evenArm (factor other : Expr) : Bool :=
  match factor with
  | .binary o _ _ x one =>
    (o == .sub || o == .add) && one.asConstant == some 1#64 && x == other
  | .unary o _ _ x => o == .not && x == other
  | _ => false

def matchEvenProduct (mul : Expr) : Bool :=
  match mul with
  | .binary o _ _ p q => o == .mul && (evenArm p q || evenArm q p)
  | _ => false

/-! ## Comparisons -/

def matchShiftedCompare (cmpExpr : Expr) : Option Expr :=
  match cmpExpr with
  | .binary op _ _ p q =>
    let mirrored := (operandsOf p .shl).isNone
    let lhs := if mirrored then q else p
    let rhs := if mirrored then p else q
    match operandsOf lhs .shl with
    | some (value, amountId) =>
      match amountId.asConstant with
      | some amount =>
        let width := lhs.bits
        if amount = 0#64 ∨ amount.toNat ≥ width then none
        else
          let narrow := width - amount.toNat
          if narrow ≠ 8 ∧ narrow ≠ 16 ∧ narrow ≠ 32 then none
          else
            let type := Ty.integer narrow
            let other :=
              match rhs.asConstant with
              | some constant =>
                if constant &&& lowMask amount.toNat ≠ 0#64 then none
                else some (Expr.constant type (constant >>> amount.toNat))
              | none =>
                match operandsOf rhs .shl with
                | some (otherValue, otherAmountId) =>
                  if otherAmountId.asConstant ≠ some amount then none
                  else some (.cast .trunc type otherValue)
                | none => none
            other.map fun other =>
              let narrowed := Expr.cast .trunc type value
              if mirrored then .mkBinary op other narrowed
              else .mkBinary op narrowed other
      | none => none
    | none => none
  | _ => none

/-- One round of the inner loop of `matchCancelledSubtrahend`: `innerId` is the
summand tried as the subtraction. -/
def cancelledArm (op : ExprOp) (sumId a innerId : Expr) (k2Id x : Expr) : Option Expr :=
  match operandsOf innerId .sub with
  | some (k1Id, x') =>
    if x' ≠ x then none
    else
      match k1Id.asConstant, k2Id.asConstant with
      | some k1, some k2 =>
        if sumId.bits = 0 then none
        else some (.mkBinary op a (.constant sumId.type (zeroExtend (k2 - k1) sumId.bits)))
      | _, _ => none
  | none => none

def matchCancelledSubtrahend (cmpExpr : Expr) : Option Expr :=
  match cmpExpr with
  | .binary op _ _ p q =>
    if op ≠ .cmpEq ∧ op ≠ .cmpNe then none
    else
      let arm := fun (sumId subId : Expr) =>
        match operandsOf sumId .add, operandsOf subId .sub with
        | some (lhs, rhs), some (k2Id, x) =>
          cancelledArm op sumId rhs lhs k2Id x <|> cancelledArm op sumId lhs rhs k2Id x
        | _, _ => none
      arm p q <|> arm q p
  | _ => none

end Idioms

end Xdec

import Xdec.SymInt

/-!
# What the checker of specifications knows of integers

A semantics rule computes with integers when it is lifted: decoded fields,
parameters, and what is bound to a name.  The checker follows a rule with an
environment of symbolic terms and ranges, refines it inside a branch by the
condition, and reads off it the term and the range of an expression
(`intValueOf`, `rangeOf`).  The engine computes the value.

`toSymOp` has fifteen operators of twenty-five; the others it takes for additions,
where it means to give up on them.  A right shift of 64 bits or more is zero and is
taken for one of 63 by `binaryRange`.  Wherever an expression keeps clear of both,
the term stands for the value and the range has it (`facts_of_run`).
-/

namespace Xdec

/-! ## Expressions -/

inductive UnaryOp where
  | negate | bitNot | logicalNot
deriving DecidableEq

inductive BinaryOp where
  | add | sub | mul | divU | divS | remU | remS | and | or | xor | shl | shrU | shrS | equal
  | notEqual | lessU | lessEqualU | lessS | lessEqualS | greaterU | greaterEqualU | greaterS
  | greaterEqualS | logicalAnd | logicalOr
deriving DecidableEq

/-- A compile-time integer; a call is of a helper, whose value the engine computes. -/
inductive SpecExpr where
  | integer (value : U64)
  | name (name : String)
  | unary (op : UnaryOp) (operand : SpecExpr)
  | binary (op : BinaryOp) (lhs rhs : SpecExpr)
  | conditional (condition ifTrue ifFalse : SpecExpr)
  | call (site : Nat)
deriving DecidableEq

/-! ## The engine -/

def UnaryOp.toIntOp : UnaryOp → IntOp
  | .negate => .negate
  | .bitNot => .not
  | .logicalNot => .logicalNot

def BinaryOp.toIntOp : BinaryOp → IntOp
  | .add => .add
  | .sub => .sub
  | .mul => .mul
  | .divU => .divU
  | .divS => .divS
  | .remU => .remU
  | .remS => .remS
  | .and => .and
  | .or => .or
  | .xor => .xor
  | .shl => .shl
  | .shrU => .shrU
  | .shrS => .shrS
  | .equal => .equal
  | .notEqual => .notEqual
  | .lessU => .lessU
  | .lessEqualU => .lessEqualU
  | .lessS => .lessS
  | .lessEqualS => .lessEqualS
  | .greaterU => .greaterU
  | .greaterEqualU => .greaterEqualU
  | .greaterS => .greaterS
  | .greaterEqualS => .greaterEqualS
  | .logicalAnd => .logicalAnd
  | .logicalOr => .logicalOr

/-- What names and calls are while a rule is lifted. -/
structure LiftStore where
  names : String → U64
  calls : Nat → U64

def LiftStore.bind (store : LiftStore) (name : String) (value : U64) : LiftStore :=
  { store with names := Function.update store.names name value }

/-- What the compiled expression computes; both arms of a conditional are computed. -/
def SpecExpr.run (store : LiftStore) : SpecExpr → Option U64
  | .integer value => some value
  | .name id => some (store.names id)
  | .unary op a => (a.run store).map fun x => applyIntUnary (some op.toIntOp) x
  | .binary op a b =>
    (a.run store).bind fun x => (b.run store).bind fun y =>
      applyIntBinary (some op.toIntOp) x y
  | .conditional c a b =>
    (c.run store).bind fun condition => (a.run store).bind fun x => (b.run store).map fun y =>
      if condition ≠ 0#64 then x else y
  | .call site => some (store.calls site)

/-! ## The checker -/

namespace SpecChecker

/-- A binding, as far as it is one of an integer: its term, and the range a field's
width or a parameter's declaration gives it. -/
structure Binding where
  isInt : Bool
  value : Option SymTerm
  range : Option (U64 × U64)
deriving DecidableEq

abbrev Env := String → Option Binding

/-- The other operators are additions. -/
def toSymOp : BinaryOp → SymOp
  | .add => .add
  | .sub => .sub
  | .mul => .mul
  | .divU => .divU
  | .remU => .remU
  | .and => .and
  | .or => .or
  | .xor => .xor
  | .shl => .shl
  | .shrU => .shrU
  | .shrS => .shrS
  | .equal => .equal
  | .notEqual => .notEqual
  | .lessU => .lessU
  | .lessS => .lessS
  | _ => .add

section Checking

variable (older : SymTerm → SymTerm → Bool)

def intValueOf (env : Env) : SpecExpr → SymTerm
  | .integer value => .const value
  | .name name => ((env name).bind Binding.value).getD .unknown
  | .unary op a =>
    match op with
    | .negate => SymPool.unary .negate (intValueOf env a)
    | .bitNot => SymPool.unary .not (intValueOf env a)
    | .logicalNot => SymPool.binary older .equal (intValueOf env a) (.const 0#64)
  | .binary op a b => SymPool.binary older (toSymOp op) (intValueOf env a) (intValueOf env b)
  | .conditional c a b =>
    SymPool.select (intValueOf env c) (intValueOf env a) (intValueOf env b)
  -- Computed at lift time.
  | .call _ => .unknown

/-- All bits from the highest one down. -/
def saturate (x : U64) : U64 :=
  let x := x ||| x >>> 1
  let x := x ||| x >>> 2
  let x := x ||| x >>> 4
  let x := x ||| x >>> 8
  let x := x ||| x >>> 16
  x ||| x >>> 32

def uint64Max : U64 := ~~~0#64

def binaryRange (op : BinaryOp) (leftLow leftHigh rightLow rightHigh : U64) :
    Option (U64 × U64) :=
  match op with
  | .add =>
    if uint64Max - rightHigh < leftHigh then none
    else some (leftLow + rightLow, leftHigh + rightHigh)
  | .sub =>
    if leftLow < rightHigh then none else some (leftLow - rightHigh, leftHigh - rightLow)
  | .mul =>
    if rightHigh ≠ 0#64 ∧ uint64Max / rightHigh < leftHigh then none
    else some (leftLow * rightLow, leftHigh * rightHigh)
  | .shl =>
    if 64#64 ≤ rightHigh then none
    else if uint64Max >>> rightHigh.toNat < leftHigh then none
    else some (leftLow <<< rightLow.toNat, leftHigh <<< rightHigh.toNat)
  | .shrU => some (leftLow >>> min rightHigh.toNat 63, leftHigh >>> min rightLow.toNat 63)
  | .divU =>
    if rightLow = 0#64 then none else some (leftLow / rightHigh, leftHigh / rightLow)
  | .remU => if rightLow = 0#64 then none else some (0#64, rightHigh - 1#64)
  | .and => some (0#64, if leftHigh ≤ rightHigh then leftHigh else rightHigh)
  | .or | .xor =>
    let larger := if leftHigh ≤ rightHigh then rightHigh else leftHigh
    if larger = uint64Max then none else some (0#64, saturate larger)
  | .equal | .notEqual | .lessU | .lessEqualU | .lessS | .lessEqualS | .greaterU | .greaterEqualU
  | .greaterS | .greaterEqualS | .logicalAnd | .logicalOr => some (0#64, 1#64)
  | .divS | .remS | .shrS => none

/-- The range of a value that is known. -/
def constantRange (env : Env) (e : SpecExpr) : Option (U64 × U64) :=
  (SymPool.asConstant (intValueOf older env e)).map fun constant => (constant, constant)

def rangeOf (env : Env) : SpecExpr → Option (U64 × U64)
  | .integer value => some (value, value)
  | .name name => (env name).bind Binding.range <|> constantRange older env (.name name)
  | .unary op a => constantRange older env (.unary op a)
  | .binary op a b =>
    constantRange older env (.binary op a b) <|>
      (rangeOf env a).bind fun left => (rangeOf env b).bind fun right =>
        binaryRange op left.1 left.2 right.1 right.2
  | .conditional c a b =>
    -- Either arm is reachable.
    constantRange older env (.conditional c a b) <|>
      (rangeOf env a).bind fun left => (rangeOf env b).map fun right =>
        (if left.1 ≤ right.1 then left.1 else right.1,
          if left.2 ≤ right.2 then right.2 else left.2)
  | .call site => constantRange older env (.call site)

/-! ### Environments -/

def substituteBinding (symbolName : String) (value : U64) (binding : Binding) : Binding :=
  match binding.value with
  | none => binding
  | some term =>
    let term := SymPool.substitute older symbolName value term
    match SymPool.asConstant term with
    | none => { binding with value := some term }
    | some folded => { binding with value := some term, range := some (folded, folded) }

def substituteEnv (env : Env) (symbolName : String) (value : U64) : Env :=
  fun name => (env name).map (substituteBinding older symbolName value)

/-- A name compared with a literal, on either side. -/
def nameAndLiteral : SpecExpr → SpecExpr → Option (String × U64)
  | .name name, .integer value => some (name, value)
  | .integer value, .name name => some (name, value)
  | _, _ => none

/-- The value that is left when a name has two and not this one. -/
def otherValue (binding : Binding) (value : U64) : Option U64 :=
  match binding.range with
  | none => none
  | some (low, high) =>
    if high - low ≠ 1#64 then none
    else if value = low then some high
    else if value = high then some low
    else none

/-- Refines by the fact the condition gives in a branch: that a name that is bound to
a symbol has a value. -/
def applyRefinement (condition : SpecExpr) (positive : Bool) (env : Env) : Env :=
  match condition with
  | .binary op lhs rhs =>
    if op ≠ .equal ∧ op ≠ .notEqual then env
    else
      match nameAndLiteral lhs rhs with
      | none => env
      | some (name, literal) =>
        match env name with
        | some ⟨true, some (.symbol symbolName), range⟩ =>
          if positive = (op == .equal) then substituteEnv older env symbolName literal
          else
            match otherValue ⟨true, some (.symbol symbolName), range⟩ literal with
            | none => env
            | some value => substituteEnv older env symbolName value
        | _ => env
  | _ => env

def Env.set (env : Env) (name : String) (binding : Binding) : Env :=
  Function.update env name (some binding)

def reservedNames : List String := ["insn_pc", "insn_len", "opcode"]

/-- The environment of an instruction with these fields and their widths. -/
def instructionEnv (insnWidth : Nat) (fields : List (String × Nat)) : Env :=
  let env := fields.foldl (fun (env : Env) (field : String × Nat) =>
    if (env field.1).isSome ∨ field.1 ∈ reservedNames then env
    else env.set field.1 ⟨true, some (.symbol field.1), some (0#64, lowMask field.2)⟩) fun _ => none
  ((env.set "insn_pc" ⟨true, some (.symbol "insn_pc"), none⟩).set
    "insn_len" ⟨true, some (.const (BitVec.ofNat 64 (insnWidth / 8))), none⟩).set
    "opcode" ⟨true, some (.symbol "opcode"), none⟩

structure Param where
  name : String
  isInt : Bool
  range : Option (U64 × U64)
deriving DecidableEq

/-- The environment of a function: its parameters are symbols of their own. -/
def functionEnv (function : String) (params : List Param) : Env :=
  params.foldl (fun (env : Env) (param : Param) =>
    env.set param.name
      (if param.isInt then
        ⟨true, some (.symbol (function ++ "." ++ param.name)), param.range⟩
      else ⟨false, none, none⟩)) fun _ => none

/-! ### Rules -/

/-- The statements that matter to names; what is bound to a name may be no integer. -/
inductive SpecStmt where
  | letInt (name : String) (value : SpecExpr)
  | letOther (name : String)
  | ifElse (condition : SpecExpr) (thenBody elseBody : List SpecStmt)
  | other

/-- A place in a rule: what is left of the body, what the checker has there, and what
the engine has there. -/
structure Place where
  body : List SpecStmt
  env : Env
  store : LiftStore

/-- The checker and the engine go on together.  A branch is entered when the engine
takes it, and what is bound in it ends with it. -/
inductive Step : Place → Place → Prop where
  | letInt {name : String} {value : SpecExpr} {rest : List SpecStmt} {env : Env}
      {store : LiftStore} {x : U64} (hrun : value.run store = some x) :
      Step ⟨.letInt name value :: rest, env, store⟩
        ⟨rest, env.set name ⟨true, some (intValueOf older env value), none⟩, store.bind name x⟩
  | letOther {name : String} {rest : List SpecStmt} {env : Env} {store : LiftStore} (x : U64) :
      Step ⟨.letOther name :: rest, env, store⟩
        ⟨rest, env.set name ⟨false, none, none⟩, store.bind name x⟩
  | enter {condition : SpecExpr} {thenBody elseBody rest : List SpecStmt} {env : Env}
      {store : LiftStore} {x : U64} (hrun : condition.run store = some x) :
      Step ⟨.ifElse condition thenBody elseBody :: rest, env, store⟩
        ⟨if x ≠ 0#64 then thenBody else elseBody,
          applyRefinement older condition (decide (x ≠ 0#64)) env, store⟩
  | leave {condition : SpecExpr} {thenBody elseBody rest : List SpecStmt} {env : Env}
      {store : LiftStore} :
      Step ⟨.ifElse condition thenBody elseBody :: rest, env, store⟩ ⟨rest, env, store⟩
  | other {rest : List SpecStmt} {env : Env} {store : LiftStore} :
      Step ⟨.other :: rest, env, store⟩ ⟨rest, env, store⟩

end Checking

/-- A rule begins with fields of their widths, or with parameters in their ranges, and
the symbols stand for them. -/
inductive Starts (symbols : String → U64) : Place → Prop where
  | instruction (insnWidth : Nat) (fields : List (String × Nat)) (body : List SpecStmt)
      (store : LiftStore) (hfields : ∀ field ∈ fields, store.names field.1 ≤ lowMask field.2)
      (hlength : store.names "insn_len" = BitVec.ofNat 64 (insnWidth / 8))
      (hsymbols : ∀ name, symbols name = store.names name) :
      Starts symbols ⟨body, instructionEnv insnWidth fields, store⟩
  | function (function : String) (params : List Param) (body : List SpecStmt) (store : LiftStore)
      (hranges : ∀ param ∈ params, ∀ range, param.range = some range →
        range.1 ≤ store.names param.name ∧ store.names param.name ≤ range.2)
      (hsymbols : ∀ param ∈ params,
        symbols (function ++ "." ++ param.name) = store.names param.name) :
      Starts symbols ⟨body, functionEnv function params, store⟩

/-! ## Where the checker is right -/

/-- The operators `toSymOp` has a case for. -/
def translated : BinaryOp → Bool
  | .divS | .remS | .lessEqualU | .lessEqualS | .greaterU | .greaterEqualU | .greaterS
  | .greaterEqualS | .logicalAnd | .logicalOr => false
  | _ => true

/-- A value that is computed with a helper's; the checker knows nothing of it. -/
def fromCall : SpecExpr → Bool
  | .call _ => true
  | .unary _ a => fromCall a
  | .binary _ a b => fromCall a || fromCall b
  | _ => false

section Clear

variable (store : LiftStore)

/-- Every operator that matters has a case, or comes to the sum of its operands. -/
def translates : SpecExpr → Bool
  | .unary _ a => translates a
  | .binary op a b =>
    fromCall a || fromCall b ||
      translates a && translates b &&
        (translated op ||
          (SpecExpr.binary op a b).run store == (SpecExpr.binary .add a b).run store)
  | .conditional c a b =>
    translates c &&
      (c.run store).all fun condition =>
        if condition ≠ 0#64 then translates a else translates b
  | _ => true

/-- No right shift that matters is of 64 bits or more, unless its operand has no
highest bit. -/
def shiftsFit : SpecExpr → Bool
  | .unary _ a => shiftsFit a
  | .binary op a b =>
    fromCall a || fromCall b ||
      shiftsFit a && shiftsFit b &&
        (op != .shrU || (a.run store).all fun x => (b.run store).all fun y =>
          decide (x < 0x8000000000000000#64) || decide (y < 64#64))
  | .conditional c a b =>
    shiftsFit c &&
      (c.run store).all fun condition =>
        if condition ≠ 0#64 then shiftsFit a else shiftsFit b
  | _ => true

end Clear

/-- What is bound next is translated. -/
def Place.Clear (place : Place) : Prop :=
  match place.body with
  | .letInt _ value :: _ => translates place.store value = true
  | _ => True

/-- What the checker says of an expression is true of its value. -/
structure FactHolds (older : SymTerm → SymTerm → Bool) (symbols : String → U64) (env : Env)
    (e : SpecExpr) (value : U64) : Prop where
  term : intValueOf older env e ≠ .unknown → (intValueOf older env e).value symbols = value
  range : ∀ bounds, rangeOf older env e = some bounds → bounds.1 ≤ value ∧ value ≤ bounds.2

/-! ## Ranges -/

section Ranges

variable {op : BinaryOp} {a b x v leftLow leftHigh rightLow rightHigh : U64} {bounds : U64 × U64}

theorem zero_le_word (x : U64) : 0#64 ≤ x := by
  rw [BitVec.le_def]
  exact Nat.zero_le _

theorem asInteger_le (p : Bool) : asInteger p ≤ 1#64 := by
  cases p <;> decide

/-- The `n` bits from bit `top` down. -/
def FilledBelow (x : U64) (top n : Nat) : Prop :=
  ∀ i, i ≤ top → top < i + n → x.getLsbD i = true

theorem filledBelow_step {top n : Nat} (h : FilledBelow x top n) :
  FilledBelow (x ||| x >>> n) top (n + n) := by
  intro i hi hn
  rw [BitVec.getLsbD_or, BitVec.getLsbD_ushiftRight, Bool.or_eq_true]
  by_cases hnear : top < i + n
  · exact .inl (h i hi hnear)
  · exact .inr (h (n + i) (by omega) (by omega))

/-- What is below the next power of two is at most the saturated number. -/
theorem le_saturate (hv : v.toNat < 2 ^ (Nat.log2 x.toNat + 1)) (hx : x ≠ 0#64) :
  v ≤ saturate x := by
  have hpos : x.toNat ≠ 0 := fun h => hx (BitVec.eq_of_toNat_eq h)
  have htop : FilledBelow x (Nat.log2 x.toNat) 1 := by
    intro i hi hn
    obtain rfl : i = Nat.log2 x.toNat := by omega
    rw [BitVec.getLsbD]
    exact Nat.testBit_log2 hpos
  have hfull : FilledBelow (saturate x) (Nat.log2 x.toNat) 64 :=
    filledBelow_step (filledBelow_step (filledBelow_step (filledBelow_step (filledBelow_step
      (filledBelow_step htop)))))
  have hwidth : Nat.log2 x.toNat < 64 := (Nat.log2_lt hpos).mpr x.isLt
  rw [BitVec.le_def]
  refine Nat.le_of_testBit fun i hi => ?_
  have hlow : i < Nat.log2 x.toNat + 1 :=
    (Nat.pow_lt_pow_iff_right (by decide)).mp ((Nat.ge_two_pow_of_testBit hi).trans_lt hv)
  exact hfull i (by omega) (by omega)

theorem add_range (hfit : ¬ uint64Max - rightHigh < leftHigh) (ha : leftLow ≤ a ∧ a ≤ leftHigh)
  (hb : rightLow ≤ b ∧ b ≤ rightHigh) :
  leftLow + rightLow ≤ a + b ∧ a + b ≤ leftHigh + rightHigh := by
  have hmax : uint64Max.toNat = 2 ^ 64 - 1 := by decide
  have hright := rightHigh.isLt
  rw [BitVec.lt_def, BitVec.toNat_sub_of_le (by rw [BitVec.le_def, hmax]; omega), hmax] at hfit
  simp only [BitVec.le_def] at ha hb ⊢
  rw [BitVec.toNat_add_of_lt (by omega), BitVec.toNat_add_of_lt (by omega),
    BitVec.toNat_add_of_lt (by omega)]
  omega

theorem sub_range (hfit : ¬ leftLow < rightHigh) (ha : leftLow ≤ a ∧ a ≤ leftHigh)
  (hb : rightLow ≤ b ∧ b ≤ rightHigh) :
  leftLow - rightHigh ≤ a - b ∧ a - b ≤ leftHigh - rightLow := by
  simp only [BitVec.lt_def, BitVec.le_def] at hfit ha hb ⊢
  rw [BitVec.toNat_sub_of_le (BitVec.le_def.mpr (by omega)),
    BitVec.toNat_sub_of_le (BitVec.le_def.mpr (by omega)),
    BitVec.toNat_sub_of_le (BitVec.le_def.mpr (by omega))]
  omega

theorem mul_range (hfit : ¬ (rightHigh ≠ 0#64 ∧ uint64Max / rightHigh < leftHigh))
  (ha : leftLow ≤ a ∧ a ≤ leftHigh) (hb : rightLow ≤ b ∧ b ≤ rightHigh) :
  leftLow * rightLow ≤ a * b ∧ a * b ≤ leftHigh * rightHigh := by
  have hmax : uint64Max.toNat = 2 ^ 64 - 1 := by decide
  have hprod : leftHigh.toNat * rightHigh.toNat < 2 ^ 64 := by
    by_cases hzero : rightHigh = 0#64
    · rw [hzero]
      exact Nat.pow_pos (by decide)
    · have hle : leftHigh.toNat ≤ uint64Max.toNat / rightHigh.toNat := by
        have hnot := fun hlt => hfit ⟨hzero, hlt⟩
        rw [BitVec.lt_def, BitVec.toNat_udiv] at hnot
        exact Nat.le_of_not_lt hnot
      have hmul := (Nat.mul_le_mul_right rightHigh.toNat hle).trans (Nat.div_mul_le_self _ _)
      rw [hmax] at hmul
      omega
  simp only [BitVec.le_def] at ha hb ⊢
  have hab : a.toNat * b.toNat ≤ leftHigh.toNat * rightHigh.toNat := Nat.mul_le_mul ha.2 hb.2
  have hlow : leftLow.toNat * rightLow.toNat ≤ a.toNat * b.toNat := Nat.mul_le_mul ha.1 hb.1
  rw [BitVec.toNat_mul_of_lt (by omega), BitVec.toNat_mul_of_lt (by omega),
    BitVec.toNat_mul_of_lt hprod]
  exact ⟨hlow, hab⟩

theorem shl_range (hshort : ¬ 64#64 ≤ rightHigh)
  (hfit : ¬ uint64Max >>> rightHigh.toNat < leftHigh) (ha : leftLow ≤ a ∧ a ≤ leftHigh)
  (hb : rightLow ≤ b ∧ b ≤ rightHigh) :
  leftLow <<< rightLow.toNat ≤ a <<< b.toNat ∧
    a <<< b.toNat ≤ leftHigh <<< rightHigh.toNat ∧ ¬ 64#64 ≤ b := by
  have hmax : uint64Max.toNat = 2 ^ 64 - 1 := by decide
  have hsixty : (64#64).toNat = 64 := by decide
  have hprod : leftHigh.toNat * 2 ^ rightHigh.toNat < 2 ^ 64 := by
    rw [BitVec.lt_def, BitVec.toNat_ushiftRight, Nat.shiftRight_eq_div_pow, hmax] at hfit
    have hmul := (Nat.mul_le_mul_right (2 ^ rightHigh.toNat) (Nat.le_of_not_lt hfit)).trans
      (Nat.div_mul_le_self _ _)
    omega
  simp only [BitVec.le_def, hsixty] at hshort ha hb ⊢
  have hpow : ∀ {x y : Nat}, x ≤ y → 2 ^ x ≤ 2 ^ y := fun h => Nat.pow_le_pow_right (by decide) h
  have hab : a.toNat * 2 ^ b.toNat ≤ leftHigh.toNat * 2 ^ rightHigh.toNat :=
    Nat.mul_le_mul ha.2 (hpow hb.2)
  have hlow : leftLow.toNat * 2 ^ rightLow.toNat ≤ a.toNat * 2 ^ b.toNat :=
    Nat.mul_le_mul ha.1 (hpow hb.1)
  simp only [BitVec.toNat_shiftLeft, Nat.shiftLeft_eq]
  rw [Nat.mod_eq_of_lt (by omega), Nat.mod_eq_of_lt (by omega), Nat.mod_eq_of_lt hprod]
  exact ⟨hlow, hab, by omega⟩

theorem shrU_range (hshift : a < 0x8000000000000000#64 ∨ b < 64#64)
  (ha : leftLow ≤ a ∧ a ≤ leftHigh) (hb : rightLow ≤ b ∧ b ≤ rightHigh) :
  leftLow >>> min rightHigh.toNat 63 ≤ (if 64#64 ≤ b then 0#64 else a >>> b.toNat) ∧
    (if 64#64 ≤ b then 0#64 else a >>> b.toNat) ≤ leftHigh >>> min rightLow.toNat 63 := by
  have hsixty : (64#64).toNat = 64 := by decide
  have htop : (0x8000000000000000#64).toNat = 2 ^ 63 := by decide
  simp only [BitVec.lt_def, BitVec.le_def, hsixty, htop] at hshift ha hb ⊢
  split
  · rename_i hlong
    have hsmall : leftLow.toNat < 2 ^ 63 := by omega
    have hmin : min rightHigh.toNat 63 = 63 := by omega
    refine ⟨?_, Nat.zero_le _⟩
    rw [BitVec.toNat_ushiftRight, hmin, Nat.shiftRight_eq_div_pow, Nat.div_eq_of_lt hsmall]
    exact Nat.zero_le _
  · rename_i hshort
    have hpow : ∀ {x y : Nat}, x ≤ y → 2 ^ x ≤ 2 ^ y :=
      fun h => Nat.pow_le_pow_right (by decide) h
    simp only [BitVec.toNat_ushiftRight, Nat.shiftRight_eq_div_pow]
    refine ⟨Nat.div_le_div ha.1 (hpow (by omega)) (Nat.pow_pos (by decide)).ne',
      Nat.div_le_div ha.2 (hpow (by omega)) (Nat.pow_pos (by decide)).ne'⟩

theorem divU_range (hfit : ¬ rightLow = 0#64) (ha : leftLow ≤ a ∧ a ≤ leftHigh)
  (hb : rightLow ≤ b ∧ b ≤ rightHigh) :
  leftLow / rightHigh ≤ a / b ∧ a / b ≤ leftHigh / rightLow ∧ ¬ b = 0#64 := by
  have hpos : 0 < rightLow.toNat := Nat.pos_of_ne_zero fun h => hfit (BitVec.eq_of_toNat_eq h)
  simp only [BitVec.le_def] at ha hb ⊢
  simp only [BitVec.toNat_udiv]
  refine ⟨Nat.div_le_div ha.1 hb.2 (by omega), Nat.div_le_div ha.2 hb.1 hpos.ne', ?_⟩
  rintro rfl
  simp only [BitVec.toNat_zero] at hb
  omega

theorem remU_range (hfit : ¬ rightLow = 0#64) (hb : rightLow ≤ b ∧ b ≤ rightHigh) :
  a % b ≤ rightHigh - 1#64 ∧ ¬ b = 0#64 := by
  have hpos : 0 < rightLow.toNat := Nat.pos_of_ne_zero fun h => hfit (BitVec.eq_of_toNat_eq h)
  have hone : (1#64).toNat = 1 := by decide
  simp only [BitVec.le_def] at hb ⊢
  rw [BitVec.toNat_sub_of_le (BitVec.le_def.mpr (by omega)), BitVec.toNat_umod, hone]
  have hlt := Nat.mod_lt a.toNat (y := b.toNat) (by omega)
  refine ⟨by omega, ?_⟩
  rintro rfl
  simp only [BitVec.toNat_zero] at hb
  omega

/-- The bits of two numbers up to `x` are below the next power of two. -/
theorem bitwise_range (hlt : ∀ n, a.toNat < 2 ^ n → b.toNat < 2 ^ n → v.toNat < 2 ^ n)
  (ha : a ≤ x) (hb : b ≤ x) : v ≤ saturate x := by
  simp only [BitVec.le_def] at ha hb
  by_cases hx : x = 0#64
  · subst hx
    simp only [BitVec.toNat_zero] at ha hb
    have hv := hlt 0 (by omega) (by omega)
    rw [BitVec.le_def]
    omega
  · have hpos : x.toNat ≠ 0 := fun h => hx (BitVec.eq_of_toNat_eq h)
    have hnext : x.toNat < 2 ^ (Nat.log2 x.toNat + 1) := (Nat.log2_lt hpos).mp (Nat.lt_succ_self _)
    exact le_saturate (hlt _ (by omega) (by omega)) hx

/-- **Interval arithmetic.**  Values in the ranges of the operands give one in the range
of the result. -/
theorem binaryRange_sound (h : binaryRange op leftLow leftHigh rightLow rightHigh = some bounds)
  (hrun : applyIntBinary (some op.toIntOp) a b = some v)
  (ha : leftLow ≤ a ∧ a ≤ leftHigh) (hb : rightLow ≤ b ∧ b ≤ rightHigh)
  (hshift : op = .shrU → a < 0x8000000000000000#64 ∨ b < 64#64) :
  bounds.1 ≤ v ∧ v ≤ bounds.2 := by
  have hlarger : ∀ {n}, (∀ n, a.toNat < 2 ^ n → b.toNat < 2 ^ n → v.toNat < 2 ^ n) →
      n = (if leftHigh ≤ rightHigh then rightHigh else leftHigh) → v ≤ saturate n := by
    intro n hlt hn
    simp only [BitVec.le_def] at ha hb hn
    have hmax : a ≤ n ∧ b ≤ n := by
      simp only [BitVec.le_def]
      split at hn <;> subst hn <;> omega
    exact bitwise_range hlt hmax.1 hmax.2
  unfold binaryRange at h
  cases op with
  | add =>
    obtain ⟨hfit, h⟩ := Option.ite_none_left_eq_some.mp h
    cases hrun
    cases h
    exact add_range hfit ha hb
  | sub =>
    obtain ⟨hfit, h⟩ := Option.ite_none_left_eq_some.mp h
    cases hrun
    cases h
    exact sub_range hfit ha hb
  | mul =>
    obtain ⟨hfit, h⟩ := Option.ite_none_left_eq_some.mp h
    cases hrun
    cases h
    exact mul_range hfit ha hb
  | shl =>
    obtain ⟨hshort, h⟩ := Option.ite_none_left_eq_some.mp h
    obtain ⟨hfit, h⟩ := Option.ite_none_left_eq_some.mp h
    cases hrun
    cases h
    obtain ⟨hlow, hhigh, hb⟩ := shl_range hshort hfit ha hb
    rw [if_neg hb]
    exact ⟨hlow, hhigh⟩
  | shrU =>
    cases hrun
    cases h
    exact shrU_range (hshift rfl) ha hb
  | divU =>
    obtain ⟨hfit, h⟩ := Option.ite_none_left_eq_some.mp h
    cases hrun
    cases h
    obtain ⟨hlow, hhigh, hb⟩ := divU_range hfit ha hb
    rw [if_neg hb]
    exact ⟨hlow, hhigh⟩
  | remU =>
    obtain ⟨hfit, h⟩ := Option.ite_none_left_eq_some.mp h
    cases hrun
    cases h
    obtain ⟨hhigh, hb⟩ := remU_range hfit hb
    rw [if_neg hb]
    exact ⟨zero_le_word _, hhigh⟩
  | and =>
    cases hrun
    cases h
    refine ⟨zero_le_word _, ?_⟩
    simp only [BitVec.le_def] at ha hb ⊢
    have hleft := Nat.and_le_left (n := a.toNat) (m := b.toNat)
    have hright := Nat.and_le_right (n := a.toNat) (m := b.toNat)
    rw [BitVec.toNat_and]
    split <;> omega
  | or =>
    obtain ⟨-, h⟩ := Option.ite_none_left_eq_some.mp h
    cases hrun
    cases h
    refine ⟨zero_le_word _, hlarger (fun n hn hn' => ?_) rfl⟩
    rw [BitVec.toNat_or]
    exact Nat.or_lt_two_pow hn hn'
  | xor =>
    obtain ⟨-, h⟩ := Option.ite_none_left_eq_some.mp h
    cases hrun
    cases h
    refine ⟨zero_le_word _, hlarger (fun n hn hn' => ?_) rfl⟩
    rw [BitVec.toNat_xor]
    exact Nat.xor_lt_two_pow hn hn'
  | divS | remS | shrS => cases h
  | equal | notEqual | lessU | lessEqualU | lessS | lessEqualS | greaterU | greaterEqualU
  | greaterS | greaterEqualS | logicalAnd | logicalOr =>
    cases hrun
    cases h
    exact ⟨zero_le_word _, asInteger_le _⟩

end Ranges

/-! ## Terms -/

/-- What the checker has of names is true of what they are. -/
structure Sound (symbols : String → U64) (env : Env) (store : LiftStore) : Prop where
  term : ∀ name binding term, env name = some binding → binding.value = some term →
    term ≠ .unknown → term.value symbols = store.names name
  range : ∀ name binding bounds, env name = some binding → binding.range = some bounds →
    bounds.1 ≤ store.names name ∧ store.names name ≤ bounds.2

section Facts

variable {older : SymTerm → SymTerm → Bool} {symbols : String → U64} {env : Env}
  {store : LiftStore} {e : SpecExpr} {op : BinaryOp} {a b v : U64}

theorem intValueOf_fromCall (h : fromCall e = true) : intValueOf older env e = .unknown := by
  induction e with
  | integer _ => cases h
  | name _ => cases h
  | unary op a ih => cases op <;> rw [intValueOf, ih h] <;> rfl
  | binary op a b iha ihb =>
    rw [fromCall, Bool.or_eq_true] at h
    rw [intValueOf, SymPool.binary, if_pos]
    exact h.imp iha ihb
  | conditional _ _ _ => cases h
  | call _ => rfl

theorem rangeOf_fromCall (h : fromCall e = true) : rangeOf older env e = none := by
  have hconstant : ∀ e, fromCall e = true → constantRange older env e = none := by
    intro e he
    rw [constantRange, intValueOf_fromCall he]
    rfl
  induction e with
  | integer _ => cases h
  | name _ => cases h
  | unary op a _ => exact hconstant _ h
  | binary op a b iha ihb =>
    rw [rangeOf, hconstant _ h]
    rw [fromCall, Bool.or_eq_true] at h
    rcases h with ha | hb
    · rw [iha ha]
      rfl
    · rw [ihb hb]
      cases rangeOf older env a <;> rfl
  | conditional _ _ _ => cases h
  | call _ => exact hconstant _ h

/-- An operator with a case is the engine's. -/
theorem apply_toSymOp (htranslated : translated op = true)
  (hrun : applyIntBinary (some op.toIntOp) a b = some v) : (toSymOp op).apply a b = v := by
  cases op <;> first | (cases htranslated; done) | skip
  case divU | remU =>
    cases hrun
    by_cases hb : b = 0#64 <;> simp [toSymOp, SymOp.apply, SymPool.foldBinary, hb]
  all_goals exact Option.some.inj hrun

theorem apply_not_translated (htranslated : translated op = false) :
  (toSymOp op).apply a b = a + b := by
  cases op <;> cases htranslated <;> rfl

/-- **Terms.** -/
theorem intValueOf_sound (hsound : Sound symbols env store) (hclear : translates store e = true)
  (hrun : e.run store = some v) (hknown : intValueOf older env e ≠ .unknown) :
  (intValueOf older env e).value symbols = v := by
  induction e generalizing v with
  | integer value => exact Option.some.inj hrun
  | name name =>
    rw [← Option.some.inj hrun]
    rw [intValueOf] at hknown ⊢
    cases hterm : (env name).bind Binding.value with
    | none =>
      rw [hterm] at hknown
      exact absurd rfl hknown
    | some term =>
      rw [hterm, Option.getD_some] at hknown
      rw [Option.getD_some]
      obtain ⟨binding, hbinding, hvalue⟩ := Option.bind_eq_some_iff.mp hterm
      exact hsound.term name binding term hbinding hvalue hknown
  | unary op a ih =>
    obtain ⟨x, hx, rfl⟩ := Option.map_eq_some_iff.mp hrun
    cases op with
    | negate | bitNot =>
      rw [intValueOf] at hknown ⊢
      rw [SymPool.value_unary hknown, ih hclear hx (SymPool.unary_ne_unknown hknown)]
      rfl
    | logicalNot =>
      rw [intValueOf] at hknown ⊢
      rw [SymPool.value_binary hknown, ih hclear hx (SymPool.binary_ne_unknown hknown).1]
      simp [SymOp.apply, SymPool.foldBinary, SymTerm.value, UnaryOp.toIntOp, applyIntUnary,
        asInteger]
  | binary op a b iha ihb =>
    obtain ⟨x, hx, h⟩ := Option.bind_eq_some_iff.mp hrun
    obtain ⟨y, hy, hv⟩ := Option.bind_eq_some_iff.mp h
    rw [intValueOf] at hknown ⊢
    obtain ⟨hka, hkb⟩ := SymPool.binary_ne_unknown hknown
    have hcalls : (fromCall a || fromCall b) = false := by
      rw [Bool.or_eq_false_iff]
      exact ⟨Bool.eq_false_iff.mpr fun h => hka (intValueOf_fromCall h),
        Bool.eq_false_iff.mpr fun h => hkb (intValueOf_fromCall h)⟩
    rw [translates, hcalls, Bool.false_or, Bool.and_eq_true, Bool.and_eq_true, Bool.or_eq_true,
      beq_iff_eq] at hclear
    obtain ⟨⟨hca, hcb⟩, hop⟩ := hclear
    rw [SymPool.value_binary hknown, iha hca hx hka, ihb hcb hy hkb]
    by_cases htranslated : translated op = true
    · exact apply_toSymOp htranslated hv
    · have hsum := hop.resolve_left htranslated
      rw [Bool.not_eq_true] at htranslated
      rw [hrun] at hsum
      have hadd : (SpecExpr.binary .add a b).run store = some (x + y) := by
        rw [SpecExpr.run, hx, Option.bind_some, hy, Option.bind_some]
        rfl
      rw [apply_not_translated htranslated]
      exact (Option.some.inj (hsum.trans hadd)).symm
  | conditional c a b ihc iha ihb =>
    obtain ⟨condition, hc, h⟩ := Option.bind_eq_some_iff.mp hrun
    obtain ⟨x, hx, h⟩ := Option.bind_eq_some_iff.mp h
    obtain ⟨y, hy, rfl⟩ := Option.map_eq_some_iff.mp h
    rw [translates, hc, Option.all_some, Bool.and_eq_true] at hclear
    rw [intValueOf] at hknown ⊢
    have hterm : intValueOf older env c ≠ .unknown →
        (intValueOf older env c).value symbols = condition := fun h => ihc hclear.1 hc h
    obtain ⟨hvalue, harm⟩ := SymPool.value_select hknown hterm
    rw [hvalue]
    by_cases hcond : condition ≠ 0#64
    · rw [if_pos hcond] at harm ⊢
      rw [if_pos hcond]
      exact iha (by simpa [hcond] using hclear.2) hx harm
    · rw [if_neg hcond] at harm ⊢
      rw [if_neg hcond]
      exact ihb (by simpa [hcond] using hclear.2) hy harm
  | call site => exact absurd rfl hknown

/-- **Ranges.** -/
theorem rangeOf_sound (hsound : Sound symbols env store) (hclear : translates store e = true)
  (hfits : shiftsFit store e = true) (hrun : e.run store = some v) {bounds : U64 × U64}
  (hrange : rangeOf older env e = some bounds) : bounds.1 ≤ v ∧ v ≤ bounds.2 := by
  have hconstant : ∀ {e v bounds}, translates store e = true → e.run store = some v →
      constantRange older env e = some bounds → bounds.1 ≤ v ∧ v ≤ bounds.2 := by
    intro e v bounds hclear hrun hrange
    obtain ⟨constant, hterm, rfl⟩ := Option.map_eq_some_iff.mp hrange
    have hterm := SymPool.eq_const_of_asConstant hterm
    have hvalue : (intValueOf older env e).value symbols = v :=
      intValueOf_sound hsound hclear hrun (by rw [hterm]; simp)
    rw [hterm] at hvalue
    obtain rfl : constant = v := hvalue
    exact ⟨BitVec.le_refl _, BitVec.le_refl _⟩
  induction e generalizing v bounds with
  | integer value =>
    cases hrun
    cases hrange
    exact ⟨BitVec.le_refl _, BitVec.le_refl _⟩
  | name name =>
    rw [rangeOf, Option.orElse_eq_orElse, Option.orElse_eq_or, Option.or_eq_some_iff] at hrange
    rcases hrange with hrange | ⟨-, hrange⟩
    · obtain ⟨binding, hbinding, hbounds⟩ := Option.bind_eq_some_iff.mp hrange
      rw [← Option.some.inj hrun]
      exact hsound.range name binding bounds hbinding hbounds
    · exact hconstant hclear hrun hrange
  | unary op a _ => exact hconstant hclear hrun hrange
  | binary op a b iha ihb =>
    have hcalls : (fromCall a || fromCall b) = false := by
      rw [Bool.eq_false_iff]
      intro h
      rw [rangeOf_fromCall (e := .binary op a b) h] at hrange
      cases hrange
    rw [rangeOf, Option.orElse_eq_orElse, Option.orElse_eq_or, Option.or_eq_some_iff] at hrange
    rcases hrange with hrange | ⟨-, hrange⟩
    · exact hconstant hclear hrun hrange
    · obtain ⟨left, hleft, hrange⟩ := Option.bind_eq_some_iff.mp hrange
      obtain ⟨right, hright, hrange⟩ := Option.bind_eq_some_iff.mp hrange
      obtain ⟨x, hx, h⟩ := Option.bind_eq_some_iff.mp hrun
      obtain ⟨y, hy, hv⟩ := Option.bind_eq_some_iff.mp h
      rw [translates, hcalls, Bool.false_or, Bool.and_eq_true, Bool.and_eq_true] at hclear
      rw [shiftsFit, hcalls, Bool.false_or, Bool.and_eq_true, Bool.and_eq_true] at hfits
      refine binaryRange_sound hrange hv (iha hclear.1.1 hfits.1.1 hx hleft)
        (ihb hclear.1.2 hfits.1.2 hy hright) ?_
      rintro rfl
      simpa [hx, hy] using hfits.2
  | conditional c a b _ iha ihb =>
    rw [rangeOf, Option.orElse_eq_orElse, Option.orElse_eq_or, Option.or_eq_some_iff] at hrange
    rcases hrange with hrange | ⟨-, hrange⟩
    · exact hconstant hclear hrun hrange
    · obtain ⟨left, hleft, hrange⟩ := Option.bind_eq_some_iff.mp hrange
      obtain ⟨right, hright, rfl⟩ := Option.map_eq_some_iff.mp hrange
      obtain ⟨condition, hc, h⟩ := Option.bind_eq_some_iff.mp hrun
      obtain ⟨x, hx, h⟩ := Option.bind_eq_some_iff.mp h
      obtain ⟨y, hy, rfl⟩ := Option.map_eq_some_iff.mp h
      rw [translates, hc, Option.all_some, Bool.and_eq_true] at hclear
      rw [shiftsFit, hc, Option.all_some, Bool.and_eq_true] at hfits
      simp only [BitVec.le_def]
      by_cases hcond : condition ≠ 0#64
      · obtain ⟨hlow, hhigh⟩ := iha (by simpa [hcond] using hclear.2)
          (by simpa [hcond] using hfits.2) hx hleft
        simp only [BitVec.le_def] at hlow hhigh
        rw [if_pos hcond]
        constructor <;> split <;> omega
      · obtain ⟨hlow, hhigh⟩ := ihb (by simpa [hcond] using hclear.2)
          (by simpa [hcond] using hfits.2) hy hright
        simp only [BitVec.le_def] at hlow hhigh
        rw [if_neg hcond]
        constructor <;> split <;> omega
  | call site => exact hconstant hclear hrun hrange

/-! ## Environments -/

variable {name : String} {binding : Binding} {x : U64}

theorem Sound.set (hsound : Sound symbols env store)
  (hterm : ∀ term, binding.value = some term → term ≠ .unknown → term.value symbols = x)
  (hrange : ∀ bounds, binding.range = some bounds → bounds.1 ≤ x ∧ x ≤ bounds.2)
  {store' : LiftStore} (hname : store'.names name = x)
  (hothers : ∀ other, other ≠ name → store'.names other = store.names other) :
  Sound symbols (env.set name binding) store' := by
  have hget : ∀ other b, Env.set env name binding other = some b →
      (other = name ∧ b = binding) ∨ (other ≠ name ∧ env other = some b) := by
    intro other b hb
    by_cases hother : other = name
    · subst hother
      rw [Env.set, Function.update_self] at hb
      exact .inl ⟨rfl, (Option.some.inj hb).symm⟩
    · rw [Env.set, Function.update_of_ne hother] at hb
      exact .inr ⟨hother, hb⟩
  constructor
  · intro other b term hb hvalue hknown
    rcases hget other b hb with ⟨rfl, rfl⟩ | ⟨hother, hb⟩
    · rw [hname]
      exact hterm term hvalue hknown
    · rw [hothers other hother]
      exact hsound.term other b term hb hvalue hknown
  · intro other b bounds hb hbounds
    rcases hget other b hb with ⟨rfl, rfl⟩ | ⟨hother, hb⟩
    · rw [hname]
      exact hrange bounds hbounds
    · rw [hothers other hother]
      exact hsound.range other b bounds hb hbounds

/-- A binding of the value the name has already. -/
theorem Sound.set_same (hsound : Sound symbols env store)
  (hterm : ∀ term, binding.value = some term → term ≠ .unknown →
    term.value symbols = store.names name)
  (hrange : ∀ bounds, binding.range = some bounds →
    bounds.1 ≤ store.names name ∧ store.names name ≤ bounds.2) :
  Sound symbols (env.set name binding) store :=
  hsound.set hterm hrange rfl fun _ _ => rfl

theorem Sound.empty : Sound symbols (fun _ => none) store :=
  ⟨fun _ _ _ h => (nomatch h), fun _ _ _ h => (nomatch h)⟩

theorem Sound.foldl {α : Type} {step : Env → α → Env} {xs : List α}
  (hstep : ∀ env, ∀ x ∈ xs, Sound symbols env store → Sound symbols (step env x) store)
  (hsound : Sound symbols env store) : Sound symbols (xs.foldl step env) store := by
  induction xs generalizing env with
  | nil => exact hsound
  | cons x xs ih =>
    exact ih (fun env y hy => hstep env y (List.mem_cons_of_mem _ hy))
      (hstep env x (List.mem_cons_self ..) hsound)

theorem sound_of_starts {place : Place} (h : Starts symbols place) :
  Sound symbols place.env place.store := by
  cases h with
  | instruction insnWidth fields body store hfields hlength hsymbols =>
    have hsymbol : ∀ {name : String} {term : SymTerm}, some (.symbol name) = some term →
        term ≠ .unknown → term.value symbols = store.names name := by
      rintro name term h -
      cases h
      exact hsymbols name
    have hbase : Sound symbols (fields.foldl (fun (env : Env) (field : String × Nat) =>
        if (env field.1).isSome ∨ field.1 ∈ reservedNames then env
        else env.set field.1 ⟨true, some (.symbol field.1), some (0#64, lowMask field.2)⟩)
        fun _ => none) store := by
      refine Sound.foldl (fun env field hfield hsound => ?_) Sound.empty
      split
      · exact hsound
      · refine hsound.set_same (fun term => hsymbol) fun bounds hbounds => ?_
        cases hbounds
        exact ⟨zero_le_word _, hfields field hfield⟩
    refine ((hbase.set_same (fun term => hsymbol) (fun _ h => by cases h)).set_same ?_
      (fun _ h => by cases h)).set_same (fun term => hsymbol) (fun _ h => by cases h)
    intro term h _
    cases h
    exact hlength.symm
  | function function params body store hranges hsymbols =>
    refine Sound.foldl (fun env param hparam hsound => ?_) Sound.empty
    refine hsound.set_same (fun term hterm _ => ?_) fun bounds hbounds => ?_
    · split at hterm
      · cases hterm
        exact hsymbols param hparam
      · cases hterm
    · split at hbounds
      · exact hranges param hparam bounds hbounds
      · cases hbounds

theorem Sound.substituteEnv {symbolName : String} {x : U64} (hsound : Sound symbols env store)
  (hname : symbols symbolName = x) :
  Sound symbols (substituteEnv older env symbolName x) store := by
  have hsubstituted : ∀ {name b term}, env name = some b → b.value = some term →
      SymPool.substitute older symbolName x term ≠ .unknown →
      (SymPool.substitute older symbolName x term).value symbols = store.names name := by
    intro name b term hb hvalue hknown
    have hterm : term ≠ .unknown := by
      rintro rfl
      exact hknown rfl
    rw [SymPool.value_substitute hname hknown]
    exact hsound.term name b term hb hvalue hterm
  constructor
  · intro name b' term' hb' hvalue' hknown
    obtain ⟨b, hb, rfl⟩ := Option.map_eq_some_iff.mp hb'
    unfold substituteBinding at hvalue'
    split at hvalue'
    · rename_i hnone
      rw [hnone] at hvalue'
      cases hvalue'
    · rename_i term hvalue
      dsimp only at hvalue'
      split at hvalue' <;> cases hvalue' <;> exact hsubstituted hb hvalue hknown
  · intro name b' bounds hb' hbounds
    obtain ⟨b, hb, rfl⟩ := Option.map_eq_some_iff.mp hb'
    unfold substituteBinding at hbounds
    split at hbounds
    · exact hsound.range name b bounds hb hbounds
    · rename_i term hvalue
      dsimp only at hbounds
      split at hbounds
      · exact hsound.range name b bounds hb hbounds
      · rename_i folded hfolded
        cases hbounds
        have hconst := SymPool.eq_const_of_asConstant hfolded
        have hsame := hsubstituted hb hvalue (by rw [hconst]; simp)
        rw [hconst] at hsame
        obtain rfl : folded = store.names name := hsame
        exact ⟨BitVec.le_refl _, BitVec.le_refl _⟩

/-- What a comparison that refines says of the name. -/
theorem run_nameAndLiteral {lhs rhs : SpecExpr} {literal : U64}
  (hnames : nameAndLiteral lhs rhs = some (name, literal)) (hop : op = .equal ∨ op = .notEqual)
  (hrun : (SpecExpr.binary op lhs rhs).run store = some x) :
  decide (x ≠ 0#64) = (op == .equal) ↔ store.names name = literal := by
  have hcompare : ∀ y z : U64, (y = z ↔ store.names name = literal) →
      applyIntBinary (some op.toIntOp) y z = some x →
      (decide (x ≠ 0#64) = (op == .equal) ↔ store.names name = literal) := by
    intro y z hiff hv
    rw [← hiff]
    rcases hop with rfl | rfl <;> cases hv <;> by_cases hyz : y = z <;> simp [hyz, asInteger]
  unfold nameAndLiteral at hnames
  split at hnames
  · cases hnames
    exact hcompare _ _ Iff.rfl hrun
  · cases hnames
    exact hcompare _ _ eq_comm hrun
  · cases hnames

theorem otherValue_sound {value other : U64}
  (h : otherValue binding value = some other) (hne : x ≠ value)
  (hrange : ∀ bounds, binding.range = some bounds → bounds.1 ≤ x ∧ x ≤ bounds.2) : x = other := by
  unfold otherValue at h
  split at h
  · cases h
  · rename_i low high hbounds
    obtain ⟨hlow, hhigh⟩ : low ≤ x ∧ x ≤ high := hrange _ hbounds
    split at h
    · cases h
    · rename_i htwo
      have hnext : high.toNat = low.toNat + 1 := by
        have hsub := congrArg BitVec.toNat (not_not.mp htwo)
        rw [BitVec.toNat_sub_of_le (BitVec.le_trans hlow hhigh)] at hsub
        simp only [BitVec.le_def] at hlow hhigh
        have hone : (1#64).toNat = 1 := by decide
        omega
      simp only [BitVec.le_def] at hlow hhigh
      have hcases : x = low ∨ x = high := by
        rcases Nat.lt_or_ge low.toNat x.toNat with hlt | hge
        · exact .inr (BitVec.eq_of_toNat_eq (by omega))
        · exact .inl (BitVec.eq_of_toNat_eq (by omega))
      split at h
      · rename_i hvalue
        cases h
        exact hcases.resolve_left (hvalue ▸ hne)
      · split at h
        · rename_i hvalue
          cases h
          exact hcases.resolve_right (hvalue ▸ hne)
        · cases h

/-- **Refinement.**  In the branch the engine takes. -/
theorem Sound.applyRefinement {condition : SpecExpr} {x : U64} (hsound : Sound symbols env store)
  (hrun : condition.run store = some x) :
  Sound symbols (applyRefinement older condition (decide (x ≠ 0#64)) env) store := by
  unfold SpecChecker.applyRefinement
  split
  · rename_i op lhs rhs
    split
    · exact hsound
    · rename_i hop
      have hop : op = .equal ∨ op = .notEqual := by
        by_contra hneither
        exact hop (not_or.mp hneither)
      split
      · exact hsound
      · rename_i name literal hnames
        have hfact := run_nameAndLiteral hnames hop hrun
        split
        · rename_i symbolName range hbinding
          have hsymbol : symbols symbolName = store.names name :=
            hsound.term name _ _ hbinding rfl (by simp)
          split
          · rename_i hpositive
            exact hsound.substituteEnv (hsymbol.trans (hfact.mp hpositive))
          · rename_i hnegative
            split
            · exact hsound
            · rename_i other hother
              refine hsound.substituteEnv (hsymbol.trans ?_)
              exact otherValue_sound hother (fun h => hnegative (hfact.mpr h))
                fun bounds => hsound.range name _ bounds hbinding
        · exact hsound
  · exact hsound

/-! ## Runs -/

/-- **One step.** -/
theorem sound_step {p q : Place} (hstep : Step older p q) (hclear : p.Clear)
  (h : Sound symbols p.env p.store) : Sound symbols q.env q.store := by
  cases hstep with
  | letInt hrun =>
    refine h.set (fun term hterm hknown => ?_) (fun _ h => by cases h)
      (Function.update_self ..) fun other hother => Function.update_of_ne hother ..
    cases hterm
    exact intValueOf_sound h hclear hrun hknown
  | letOther x =>
    exact h.set (fun _ h => by cases h) (fun _ h => by cases h) (Function.update_self ..)
      fun other hother => Function.update_of_ne hother ..
  | enter hrun => exact h.applyRefinement hrun
  | leave => exact h
  | other => exact h

/-- A step from a place where what is bound is translated. -/
def ClearStep (older : SymTerm → SymTerm → Bool) (p q : Place) : Prop := Step older p q ∧ p.Clear

theorem sound_of_run {start place : Place} (hstart : Starts symbols start)
  (hrun : Relation.ReflTransGen (ClearStep older) start place) :
  Sound symbols place.env place.store := by
  induction hrun with
  | refl => exact sound_of_starts hstart
  | tail _ hstep ih => exact sound_step hstep.1 hstep.2 ih

/-- **The checker's facts.**  Along a rule that binds only what is translated, what the
checker says of an expression that is translated, and shifts no more than `binaryRange`
thinks, is true of what the engine computes. -/
theorem facts_of_run {start place : Place} (hstart : Starts symbols start)
    (hrun : Relation.ReflTransGen (ClearStep older) start place) {e : SpecExpr} {v : U64}
    (hvalue : e.run place.store = some v) (hclear : translates place.store e = true)
    (hfits : shiftsFit place.store e = true) : FactHolds older symbols place.env e v := by
  have hsound := sound_of_run hstart hrun
  exact ⟨intValueOf_sound hsound hclear hvalue,
    fun bounds => rangeOf_sound hsound hclear hfits hvalue⟩

end Facts

/-! ## A comparison of two fields -/

/-- All fields and the address are one; an instruction has four bytes. -/
def ones : LiftStore := ⟨fun name => if name = "insn_len" then 4#64 else 1#64, fun _ => 0#64⟩

def twoFields : Place :=
  ⟨[.other], instructionEnv 32 [("a", 2), ("b", 2)], ones⟩

def atMost : SpecExpr := .binary .lessEqualU (.name "a") (.name "b")

theorem starts_twoFields : Starts ones.names twoFields := by
  refine .instruction 32 [("a", 2), ("b", 2)] _ ones ?_ rfl fun _ => rfl
  intro field hfield
  rcases List.mem_cons.mp hfield with rfl | hfield
  · decide
  · obtain rfl := List.mem_singleton.mp hfield
    decide

/-- One is at most one, and the term of the comparison is two. -/
theorem comparison_differs :
    ¬ ∀ older symbols start place, Starts symbols start →
      Relation.ReflTransGen (Step older) start place → ∀ e v, e.run place.store = some v →
        FactHolds older symbols place.env e v := by
  intro h
  have hfact := h (fun _ _ => false) ones.names twoFields twoFields starts_twoFields .refl atMost
    1#64 (by decide)
  have hterm : intValueOf (fun _ _ => false) twoFields.env atMost =
      .binary .add (.symbol "a") (.symbol "b") := by decide
  have hvalue := hfact.term (by rw [hterm]; simp)
  rw [hterm] at hvalue
  exact absurd hvalue (by decide)

example : rangeOf (fun _ _ => false) twoFields.env
    (.binary .lessEqualU (.integer 2#64) (.integer 3#64)) = some (5#64, 5#64) := by decide

def oneField : Place :=
  ⟨[.ifElse (.binary .equal (.name "sf") (.integer 1#64)) [.other] []],
    instructionEnv 32 [("sf", 1)], ones⟩

/-- A width under the condition that says which it is. -/
theorem facts_of_run_width :
    FactHolds (fun _ _ => false) ones.names
      (applyRefinement (fun _ _ => false) (.binary .equal (.name "sf") (.integer 1#64)) true
        oneField.env) (.binary .shl (.integer 32#64) (.name "sf")) 64#64 := by
  have hstart : Starts ones.names oneField := by
    refine .instruction 32 [("sf", 1)] _ ones ?_ rfl fun _ => rfl
    intro field hfield
    obtain rfl := List.mem_singleton.mp hfield
    decide
  have hcondition : (SpecExpr.binary .equal (.name "sf") (.integer 1#64)).run oneField.store =
      some 1#64 := by decide
  have hstep : ClearStep (fun _ _ => false) oneField _ := ⟨.enter hcondition, trivial⟩
  exact facts_of_run hstart (.single hstep) (by decide) (by decide) (by decide)

end SpecChecker

end Xdec

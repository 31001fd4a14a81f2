import Xdec.SpecEngine

/-!
# Symbolic integers

The checker of specifications knows a width or an index as a term over decoded
fields and parameters.  Terms are folded as they are built, so that two spellings
of one value become one term; terms that are equal are one node of the pool, whose
nodes have an order.

A term stands for a value under every assignment of its symbols, and folding keeps
it (`value_binary`, `value_substitute`).  A term with an unknown part is unknown as
a whole and stands for nothing.
-/

namespace Xdec

inductive SymOp where
  | add | sub | mul | divU | remU | and | or | xor | shl | shrU | shrS | not | negate | equal
  | notEqual | lessU | lessS
deriving DecidableEq

/-- `SymNode`, with its operands in place. -/
inductive SymTerm where
  | const (value : U64)
  | symbol (name : String)
  | unknown
  | unary (op : SymOp) (operand : SymTerm)
  | binary (op : SymOp) (lhs rhs : SymTerm)
  | select (condition ifTrue ifFalse : SymTerm)
deriving DecidableEq

namespace SymPool

def asConstant : SymTerm → Option U64
  | .const value => some value
  | _ => none

/-! ## Folding -/

def foldUnary (op : SymOp) (a : U64) : Option U64 :=
  match op with
  | .not => some (~~~a)
  | .negate => some (~~~a + 1#64)
  | _ => none

/-- An operation on two literals; a division by zero is left unfolded. -/
def foldBinary (op : SymOp) (a b : U64) : Option U64 :=
  match op with
  | .add => some (a + b)
  | .sub => some (a - b)
  | .mul => some (a * b)
  | .divU => if b = 0#64 then none else some (a / b)
  | .remU => if b = 0#64 then none else some (a % b)
  | .and => some (a &&& b)
  | .or => some (a ||| b)
  | .xor => some (a ^^^ b)
  | .shl => some (if 64#64 ≤ b then 0#64 else a <<< b.toNat)
  | .shrU => some (if 64#64 ≤ b then 0#64 else a >>> b.toNat)
  | .shrS =>
    some (if 64#64 ≤ b then (if a.msb then ~~~0#64 else 0#64) else a.sshiftRight b.toNat)
  | .equal => some (asInteger (a == b))
  | .notEqual => some (asInteger (a != b))
  | .lessU => some (asInteger (a.ult b))
  | .lessS => some (asInteger (a.slt b))
  | _ => none

/-- A literal that leaves the other operand as it is. -/
def foldIdentity (op : SymOp) (literal : U64) (literalIsRight : Bool) (other : SymTerm) :
    Option SymTerm :=
  match op with
  | .add | .or | .xor => if literal = 0#64 then some other else none
  | .sub | .shl | .shrU | .shrS =>
    if literal = 0#64 ∧ literalIsRight = true then some other else none
  | .mul => if literal = 1#64 then some other else none
  | .divU => if literal = 1#64 ∧ literalIsRight = true then some other else none
  | _ => none

def isCommutative : SymOp → Bool
  | .add | .mul | .and | .or | .xor | .equal | .notEqual => true
  | _ => false

/-- An operation with a literal on at least one side. -/
def foldLiterals (op : SymOp) (lhs rhs : SymTerm) : Option SymTerm :=
  match asConstant lhs, asConstant rhs with
  | some left, some right => (foldBinary op left right).map .const
  | some left, none => foldIdentity op left false rhs
  | none, some right => foldIdentity op right true lhs
  | none, none => none

/-- An operation on one term twice. -/
def foldSame (op : SymOp) (lhs rhs : SymTerm) : Option SymTerm :=
  if lhs = rhs then
    match op with
    | .sub | .xor => some (.const 0#64)
    | .and | .or => some lhs
    | .equal => some (.const 1#64)
    | .notEqual | .lessU | .lessS => some (.const 0#64)
    | _ => none
  else none

/-- For `y - term`, the `y`. -/
def subtrahendOf (candidate term : SymTerm) : Option SymTerm :=
  match candidate with
  | .binary .sub y x => if x = term then some y else none
  | _ => none

/-- For a sum with the term on one side, the other side. -/
def addendBesides (sum term : SymTerm) : Option SymTerm :=
  match sum with
  | .binary .add x y => if x = term then some y else if y = term then some x else none
  | _ => none

/-- `x + (y - x)` and `(x + y) - y`. -/
def foldDifference (op : SymOp) (lhs rhs : SymTerm) : Option SymTerm :=
  match op with
  | .add => subtrahendOf rhs lhs <|> subtrahendOf lhs rhs
  | .sub => addendBesides lhs rhs
  | _ => none

def unary (op : SymOp) (operand : SymTerm) : SymTerm :=
  if operand = .unknown then .unknown
  else (((asConstant operand).bind (foldUnary op)).map .const).getD (.unary op operand)

section Pool

-- Which of two nodes the pool made first.
variable (older : SymTerm → SymTerm → Bool)

def binary (op : SymOp) (lhs rhs : SymTerm) : SymTerm :=
  if lhs = .unknown ∨ rhs = .unknown then .unknown
  else
    (foldLiterals op lhs rhs <|> foldSame op lhs rhs <|> foldDifference op lhs rhs).getD
      (if isCommutative op && older rhs lhs then .binary op rhs lhs else .binary op lhs rhs)

def select (condition ifTrue ifFalse : SymTerm) : SymTerm :=
  match asConstant condition with
  | some value => if value ≠ 0#64 then ifTrue else ifFalse
  | none =>
    if ifTrue = ifFalse then ifTrue
    else if condition = .unknown ∨ ifTrue = .unknown ∨ ifFalse = .unknown then .unknown
    else .select condition ifTrue ifFalse

/-- Replaces a symbol, and folds what changes. -/
def substitute (name : String) (value : U64) : SymTerm → SymTerm
  | .const v => .const v
  | .unknown => .unknown
  | .symbol s => if s = name then .const value else .symbol s
  | .unary op a =>
    let a' := substitute name value a
    if a' = a then .unary op a else unary op a'
  | .binary op a b =>
    let a' := substitute name value a
    let b' := substitute name value b
    if a' = a ∧ b' = b then .binary op a b else binary older op a' b'
  | .select c a b =>
    let c' := substitute name value c
    let a' := substitute name value a
    let b' := substitute name value b
    if c' = c ∧ a' = a ∧ b' = b then .select c a b else select c' a' b'

end Pool

end SymPool

/-! ## Values -/

open SymPool

/-- A quotient by zero is zero, as everywhere in a specification. -/
def SymOp.apply (op : SymOp) (a b : U64) : U64 := (foldBinary op a b).getD 0#64

def SymTerm.value (symbols : String → U64) : SymTerm → U64
  | .const v => v
  | .symbol name => symbols name
  | .unknown => 0#64
  | .unary op a => (foldUnary op (a.value symbols)).getD 0#64
  | .binary op a b => op.apply (a.value symbols) (b.value symbols)
  | .select c a b => if c.value symbols ≠ 0#64 then a.value symbols else b.value symbols

namespace SymPool

section Values

variable {older : SymTerm → SymTerm → Bool} {symbols : String → U64} {op : SymOp}
  {a b c t : SymTerm} {x : U64}

theorem eq_const_of_asConstant (h : asConstant t = some x) : t = .const x := by
  cases t <;> cases h
  rfl

theorem unary_ne_unknown (h : unary op a ≠ .unknown) : a ≠ .unknown := by
  rintro rfl
  exact h rfl

theorem value_unary (h : unary op a ≠ .unknown) :
  (unary op a).value symbols = (foldUnary op (a.value symbols)).getD 0#64 := by
  have hknown := unary_ne_unknown h
  unfold unary
  rw [if_neg hknown]
  cases hfold : (asConstant a).bind (foldUnary op) with
  | none => rfl
  | some y =>
    obtain ⟨x, hx, hy⟩ := Option.bind_eq_some_iff.mp hfold
    rw [eq_const_of_asConstant hx]
    simp only [Option.map_some, Option.getD_some, SymTerm.value, hy]

/-- What the folds know of the operations. -/
theorem apply_rules (x y : U64) :
  SymOp.add.apply x y = x + y ∧ SymOp.sub.apply x y = x - y ∧ SymOp.mul.apply x y = x * y ∧
    SymOp.and.apply x y = x &&& y ∧ SymOp.or.apply x y = x ||| y ∧
    SymOp.xor.apply x y = x ^^^ y ∧ SymOp.equal.apply x y = asInteger (x == y) ∧
    SymOp.notEqual.apply x y = asInteger (x != y) ∧
    SymOp.lessU.apply x y = asInteger (x.ult y) ∧ SymOp.lessS.apply x y = asInteger (x.slt y) :=
  ⟨rfl, rfl, rfl, rfl, rfl, rfl, rfl, rfl, rfl, rfl⟩

theorem apply_comm (h : isCommutative op = true) (x y : U64) : op.apply x y = op.apply y x := by
  cases op <;> simp only [isCommutative, Bool.false_eq_true] at h <;>
    simp only [apply_rules]
  case add => exact BitVec.add_comm ..
  case mul => exact BitVec.mul_comm ..
  case and => exact BitVec.and_comm ..
  case or => exact BitVec.or_comm ..
  case xor => exact BitVec.xor_comm ..
  case equal => rw [Bool.beq_comm]
  case notEqual => rw [bne_comm]

theorem foldIdentity_value {literal : U64} {literalIsRight : Bool}
  (h : foldIdentity op literal literalIsRight a = some t) :
  t.value symbols = if literalIsRight then op.apply (a.value symbols) literal
    else op.apply literal (a.value symbols) := by
  cases op <;> simp only [foldIdentity, reduceCtorEq, Option.ite_none_right_eq_some,
    Option.some.injEq] at h <;> obtain ⟨hliteral, rfl⟩ := h
  case add | or | xor | mul =>
    subst hliteral
    cases literalIsRight <;> simp [apply_rules]
  all_goals
    obtain ⟨rfl, rfl⟩ := hliteral
    simp [SymOp.apply, foldBinary]

theorem foldLiterals_value (h : foldLiterals op a b = some t) :
  t.value symbols = op.apply (a.value symbols) (b.value symbols) := by
  unfold foldLiterals at h
  split at h
  · rename_i left right hleft hright
    obtain ⟨y, hy, rfl⟩ := Option.map_eq_some_iff.mp h
    rw [eq_const_of_asConstant hleft, eq_const_of_asConstant hright]
    simp only [SymTerm.value, SymOp.apply, hy, Option.getD_some]
  · rename_i left hleft _
    rw [foldIdentity_value h, eq_const_of_asConstant hleft]
    rfl
  · rename_i right _ hright
    rw [foldIdentity_value h, eq_const_of_asConstant hright]
    rfl
  · cases h

theorem foldSame_value (h : foldSame op a b = some t) :
  t.value symbols = op.apply (a.value symbols) (b.value symbols) := by
  unfold foldSame at h
  split at h
  · rename_i hsame
    subst hsame
    cases op <;> cases h <;> simp [SymTerm.value, apply_rules, asInteger, BitVec.ult,
      BitVec.slt]
  · cases h

theorem subtrahendOf_value (h : subtrahendOf a b = some t) :
  t.value symbols = a.value symbols + b.value symbols := by
  unfold subtrahendOf at h
  split at h
  · split at h
    · rename_i hterm
      cases h
      subst hterm
      exact (BitVec.sub_add_cancel ..).symm
    · cases h
  · cases h

theorem addendBesides_value (h : addendBesides a b = some t) :
  t.value symbols = a.value symbols - b.value symbols := by
  unfold addendBesides at h
  split at h
  · split at h
    · rename_i hterm
      cases h
      subst hterm
      rw [SymTerm.value, (apply_rules _ _).1, BitVec.add_comm, BitVec.add_sub_cancel]
    · split at h
      · rename_i hterm
        cases h
        subst hterm
        exact (BitVec.add_sub_cancel ..).symm
      · cases h
  · cases h

theorem foldDifference_value (h : foldDifference op a b = some t) :
  t.value symbols = op.apply (a.value symbols) (b.value symbols) := by
  unfold foldDifference at h
  split at h
  · rw [Option.orElse_eq_orElse, Option.orElse_eq_or, Option.or_eq_some_iff] at h
    rcases h with h | ⟨-, h⟩
    · rw [subtrahendOf_value h, BitVec.add_comm]
      rfl
    · rw [subtrahendOf_value h]
      rfl
  · rw [addendBesides_value h]
    rfl
  · cases h

theorem binary_ne_unknown (h : binary older op a b ≠ .unknown) : a ≠ .unknown ∧ b ≠ .unknown := by
  rw [← not_or]
  intro hunknown
  rw [binary, if_pos hunknown] at h
  exact h rfl

/-- **Folding.**  A term that is built stands for the operation on what its operands
stand for. -/
theorem value_binary (h : binary older op a b ≠ .unknown) :
  (binary older op a b).value symbols = op.apply (a.value symbols) (b.value symbols) := by
  obtain ⟨ha, hb⟩ := binary_ne_unknown h
  unfold binary
  rw [if_neg (not_or.mpr ⟨ha, hb⟩)]
  cases hfold : foldLiterals op a b <|> foldSame op a b <|> foldDifference op a b with
  | some t =>
    rw [Option.getD_some]
    simp only [Option.orElse_eq_orElse, Option.orElse_eq_or, Option.or_eq_some_iff] at hfold
    rcases hfold with hfold | ⟨-, hfold | ⟨-, hfold⟩⟩
    · exact foldLiterals_value hfold
    · exact foldSame_value hfold
    · exact foldDifference_value hfold
  | none =>
    rw [Option.getD_none]
    split
    · rename_i hswap
      rw [SymTerm.value, apply_comm (Bool.and_eq_true_iff.mp hswap).1]
    · rfl

/-- The arm that is taken is known, and the condition is known or does not matter. -/
theorem value_select (h : select c a b ≠ .unknown) {condition : U64}
  (hc : c ≠ .unknown → c.value symbols = condition) :
  (select c a b).value symbols = (if condition ≠ 0#64 then a else b).value symbols ∧
    (if condition ≠ 0#64 then a else b) ≠ .unknown := by
  unfold select at h ⊢
  cases hvalue : asConstant c with
  | some value =>
    rw [hvalue] at h
    obtain rfl := eq_const_of_asConstant hvalue
    have hsame : value = condition := hc (by simp)
    subst hsame
    exact ⟨rfl, h⟩
  | none =>
    rw [hvalue] at h
    dsimp only at h ⊢
    split at h
    · rename_i hsame
      subst hsame
      rw [if_pos rfl, ite_self]
      exact ⟨rfl, h⟩
    · rename_i hdiffer
      split at h
      · exact absurd rfl h
      · rename_i hknown
        obtain ⟨hcond, harms⟩ := not_or.mp hknown
        obtain ⟨ha, hb⟩ := not_or.mp harms
        rw [if_neg hdiffer, if_neg hknown, SymTerm.value, hc hcond]
        split
        · exact ⟨rfl, ha⟩
        · exact ⟨rfl, hb⟩

/-- An operand that substitution leaves has the same value behind it. -/
theorem value_of_unchanged {symbols' : String → U64} {name : String}
  (hsame : substitute older name x t = t)
  (h : substitute older name x t ≠ .unknown →
    (substitute older name x t).value symbols = t.value symbols') :
  t.value symbols = t.value symbols' := by
  by_cases hunknown : t = .unknown
  · subst hunknown
    rfl
  · rw [hsame] at h
    exact h hunknown

/-- **Substitution.**  A term whose symbol is replaced stands for what the term stands
for where the symbol has the value. -/
theorem value_substitute_update {name : String} (h : substitute older name x t ≠ .unknown) :
  (substitute older name x t).value symbols = t.value (Function.update symbols name x) := by
  induction t with
  | const v => rfl
  | unknown => rfl
  | symbol s =>
    rw [substitute]
    split
    · rename_i hs
      rw [hs]
      exact (Function.update_self name x symbols).symm
    · rename_i hs
      exact (Function.update_of_ne hs x symbols).symm
  | unary op a ih =>
    rw [substitute] at h ⊢
    split
    · rename_i hsame
      rw [SymTerm.value, SymTerm.value, value_of_unchanged hsame ih]
    · rename_i hchanged
      rw [if_neg hchanged] at h
      rw [value_unary h, ih (unary_ne_unknown h)]
      rfl
  | binary op a b iha ihb =>
    rw [substitute] at h ⊢
    split
    · rename_i hsame
      rw [SymTerm.value, SymTerm.value, value_of_unchanged hsame.1 iha,
        value_of_unchanged hsame.2 ihb]
    · rename_i hchanged
      rw [if_neg hchanged] at h
      obtain ⟨ha, hb⟩ := binary_ne_unknown h
      rw [value_binary h, iha ha, ihb hb]
      rfl
  | select c a b ihc iha ihb =>
    rw [substitute] at h ⊢
    split
    · rename_i hsame
      rw [SymTerm.value, SymTerm.value, value_of_unchanged hsame.1 ihc,
        value_of_unchanged hsame.2.1 iha, value_of_unchanged hsame.2.2 ihb]
    · rename_i hchanged
      rw [if_neg hchanged] at h
      obtain ⟨hvalue, hknown⟩ := value_select h ihc
      rw [hvalue, SymTerm.value]
      split
      · rename_i hcond
        rw [if_pos hcond] at hknown
        exact iha hknown
      · rename_i hcond
        rw [if_neg hcond] at hknown
        exact ihb hknown

/-- A symbol that has the value can be replaced by it. -/
theorem value_substitute {name : String} (hname : symbols name = x)
  (h : substitute older name x t ≠ .unknown) :
  (substitute older name x t).value symbols = t.value symbols := by
  rw [value_substitute_update h, ← hname, Function.update_eq_self]

end Values

end SymPool

end Xdec

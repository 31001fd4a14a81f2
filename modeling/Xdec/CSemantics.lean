import Mathlib

/-!
# C integer expressions

Types, conversions and the evaluation of C expressions over an `int` of 32
bits, a `long` of 64 and two's complement.  Operands below `int` are promoted,
the two sides of an arithmetic operator are brought to their common type, and
an operation the standard leaves undefined has no value.

Variables and functions are parameters: `N` names the variables, `H` the
functions, and a `Library` says what the functions take and return.
-/

namespace Xdec

/-- An integer type.  One bit is `bool`. -/
structure CType where
  bits : Nat
  signed : Bool
deriving DecidableEq

namespace CType

def bool : CType := ⟨1, false⟩

def int : CType := ⟨32, true⟩

/-- The values of the type. -/
def InRange (t : CType) (v : Int) : Prop :=
  if t.signed then -2 ^ (t.bits - 1) ≤ v ∧ v < 2 ^ (t.bits - 1) else 0 ≤ v ∧ v < 2 ^ t.bits

instance (t : CType) (v : Int) : Decidable (t.InRange v) := by
  unfold InRange
  infer_instance

/-- Conversion to the type: a truth test for `bool`, else reduction modulo the
size of the type. -/
def convert (t : CType) (v : Int) : Int :=
  if t.bits = 1 then if v = 0 then 0 else 1
  else if t.signed then v.bmod (2 ^ t.bits) else v % 2 ^ t.bits

/-- Integer promotion. -/
def promote (t : CType) : CType := if t.bits < 32 then int else t

/-- The usual arithmetic conversions.  Between types of one size unsigned wins,
otherwise the larger type. -/
def common (s t : CType) : CType :=
  let s := s.promote
  let t := t.promote
  if s.bits = t.bits then ⟨s.bits, s.signed && t.signed⟩
  else if t.bits < s.bits then s else t

/-- A result of arithmetic in the type: unsigned wraps, signed overflow is
undefined. -/
def arith (t : CType) (r : Int) : Option Int :=
  if t.signed then if t.InRange r then some r else none else some (r % 2 ^ t.bits)

/-- A bitwise operator on the representations. -/
def bitwise (t : CType) (f : Nat → Nat → Nat) (x y : Int) : Int :=
  t.convert (f (x % 2 ^ t.bits).toNat (y % 2 ^ t.bits).toNat)

/-- The type of a hexadecimal literal: the first of `int`, `unsigned`, `long`
and `unsigned long` that holds it. -/
def ofLiteral (n : Nat) : CType :=
  if n < 2 ^ 31 then int
  else if n < 2 ^ 32 then ⟨32, false⟩
  else if n < 2 ^ 63 then ⟨64, true⟩
  else ⟨64, false⟩

end CType

/-- Binary operators. -/
inductive CBinary where
  | add | sub | mul | div | rem | and | or | xor | shl | shr | eq | ne | lt | le | gt | ge
deriving DecidableEq

/-- Unary operators. -/
inductive CUnary where
  | neg | compl | lnot
deriving DecidableEq

/-- Truth as an `int`. -/
def truthInt (p : Prop) [Decidable p] : Int := if p then 1 else 0

namespace CBinary

def typeOf (op : CBinary) (s t : CType) : CType :=
  match op with
  | .shl | .shr => s.promote
  | .eq | .ne | .lt | .le | .gt | .ge => CType.int
  | _ => CType.common s t

/-- The value of an operator on operands of types `s` and `t`. -/
def apply (op : CBinary) (s t : CType) (x y : Int) : Option Int :=
  let c := CType.common s t
  let l := s.promote
  match op with
  | .add => c.arith (c.convert x + c.convert y)
  | .sub => c.arith (c.convert x - c.convert y)
  | .mul => c.arith (c.convert x * c.convert y)
  | .div => if c.convert y = 0 then none else c.arith ((c.convert x).tdiv (c.convert y))
  | .rem =>
    if c.convert y = 0 then none
    -- The remainder is undefined where the quotient is.
    else (c.arith ((c.convert x).tdiv (c.convert y))).bind fun _ =>
      c.arith ((c.convert x).tmod (c.convert y))
  | .and => some (c.bitwise (· &&& ·) x y)
  | .or => some (c.bitwise (· ||| ·) x y)
  | .xor => some (c.bitwise (· ^^^ ·) x y)
  | .shl =>
    if y < 0 ∨ l.bits ≤ y then none
    else if l.signed ∧ x < 0 then none
    else l.arith (x * 2 ^ y.toNat)
  | .shr => if y < 0 ∨ l.bits ≤ y then none else some (x / 2 ^ y.toNat)
  | .eq => some (truthInt (c.convert x = c.convert y))
  | .ne => some (truthInt (c.convert x ≠ c.convert y))
  | .lt => some (truthInt (c.convert x < c.convert y))
  | .le => some (truthInt (c.convert x ≤ c.convert y))
  | .gt => some (truthInt (c.convert y < c.convert x))
  | .ge => some (truthInt (c.convert y ≤ c.convert x))

end CBinary

namespace CUnary

def typeOf (op : CUnary) (t : CType) : CType :=
  match op with
  | .lnot => CType.int
  | _ => t.promote

def apply (op : CUnary) (t : CType) (x : Int) : Option Int :=
  match op with
  | .neg => t.promote.arith (-x)
  | .compl => t.promote.arith (-x - 1)
  | .lnot => some (truthInt (x = 0))

end CUnary

/-- An expression over variables `N` and functions `H`.  A variable carries its
declared type. -/
inductive CExpr (N H : Type) where
  | lit (n : Nat)
  | var (x : N) (t : CType)
  | cast (t : CType) (a : CExpr N H)
  | unary (op : CUnary) (a : CExpr N H)
  | binary (op : CBinary) (a b : CExpr N H)
  | cond (c a b : CExpr N H)
  | call1 (h : H) (a : CExpr N H)
  | call2 (h : H) (a b : CExpr N H)
deriving DecidableEq

/-- What the functions take, return and compute.  A function that is not
declared has no value anywhere. -/
structure CLibrary (H : Type) where
  first : H → CType
  second : H → CType
  result : H → CType
  body1 : H → Int → Option Int
  body2 : H → Int → Int → Option Int

namespace CExpr

variable {N H : Type} (lib : CLibrary H)

def typeOf : CExpr N H → CType
  | lit n => CType.ofLiteral n
  | var _ t => t
  | cast t _ => t
  | unary op a => op.typeOf (typeOf a)
  | binary op a b => op.typeOf (typeOf a) (typeOf b)
  | cond _ a b => CType.common (typeOf a) (typeOf b)
  | call1 h _ => lib.result h
  | call2 h _ _ => lib.result h

/-- The value of an expression, if its evaluation is defined. -/
def eval (vars : N → Option Int) : CExpr N H → Option Int
  | lit n => some n
  | var x _ => vars x
  | cast t a => (eval vars a).map t.convert
  | unary op a => (eval vars a).bind (op.apply (typeOf lib a))
  | binary op a b =>
    (eval vars a).bind fun x => (eval vars b).bind fun y =>
      op.apply (typeOf lib a) (typeOf lib b) x y
  | cond c a b =>
    (eval vars c).bind fun z =>
      (if z ≠ 0 then eval vars a else eval vars b).map
        (CType.common (typeOf lib a) (typeOf lib b)).convert
  | call1 h a => (eval vars a).bind fun x => lib.body1 h ((lib.first h).convert x)
  | call2 h a b =>
    (eval vars a).bind fun x => (eval vars b).bind fun y =>
      lib.body2 h ((lib.first h).convert x) ((lib.second h).convert y)

/-- The variables an expression reads. -/
def reads : CExpr N H → List N
  | lit _ => []
  | var x _ => [x]
  | cast _ a => reads a
  | unary _ a => reads a
  | binary _ a b => reads a ++ reads b
  | cond c a b => reads c ++ (reads a ++ reads b)
  | call1 _ a => reads a
  | call2 _ a b => reads a ++ reads b

end CExpr

/-! ## Laws of the conversions -/

namespace CType

/-- The types of the platform. -/
def Std (t : CType) : Prop :=
  (t.bits = 1 ∧ t.signed = false) ∨ t.bits = 8 ∨ t.bits = 16 ∨ t.bits = 32 ∨ t.bits = 64

/-- The types arithmetic is done in. -/
def Wide (t : CType) : Prop := t.bits = 32 ∨ t.bits = 64

variable {s t : CType} {v x y : Int}

theorem Wide.std (h : t.Wide) : t.Std := by
  unfold Wide at h
  unfold Std
  omega

theorem Std.pos (h : t.Std) : 0 < t.bits := by
  unfold Std at h
  omega

theorem wide_promote (h : t.Std) : t.promote.Wide := by
  unfold promote
  unfold Std at h
  split
  · exact Or.inl rfl
  · unfold Wide
    omega

theorem wide_common (hs : s.Std) (ht : t.Std) : (common s t).Wide := by
  have hs' := wide_promote hs
  have ht' := wide_promote ht
  unfold common Wide at *
  grind

theorem bits_le_promote : t.bits ≤ t.promote.bits := by
  unfold promote
  split
  · simp only [int]
    omega
  · exact le_rfl

theorem common_bits : (common s t).bits = max s.promote.bits t.promote.bits := by
  unfold common
  grind

theorem inRange_signed (h : t.signed = true) :
  t.InRange v ↔ -2 ^ (t.bits - 1) ≤ v ∧ v < 2 ^ (t.bits - 1) := by
  unfold InRange
  rw [if_pos h]

theorem inRange_unsigned (h : t.signed = false) : t.InRange v ↔ 0 ≤ v ∧ v < 2 ^ t.bits := by
  unfold InRange
  rw [if_neg (by simp [h])]

theorem convert_unsigned (h : t.signed = false) (hb : t.bits ≠ 1) :
  t.convert v = v % 2 ^ t.bits := by
  unfold convert
  rw [if_neg hb, if_neg (by simp [h])]

theorem convert_signed (h : t.signed = true) (hb : t.bits ≠ 1) :
  t.convert v = v.bmod (2 ^ t.bits) := by
  unfold convert
  rw [if_neg hb, if_pos h]

private theorem two_mul_half {n : Nat} (h : 0 < n) : (2 : Int) ^ n = 2 * 2 ^ (n - 1) := by
  obtain ⟨m, rfl⟩ : ∃ m, n = m + 1 := ⟨n - 1, by omega⟩
  rw [Nat.add_sub_cancel, pow_succ]
  ring

theorem convert_inRange (h : t.Std) : t.InRange (t.convert v) := by
  by_cases hb : t.bits = 1
  · have hs : t.signed = false := by
      unfold Std at h
      grind
    rw [inRange_unsigned hs, convert, if_pos hb, hb]
    split <;> omega
  · cases hs : t.signed with
    | false =>
      rw [inRange_unsigned hs, convert_unsigned hs hb]
      exact ⟨Int.emod_nonneg _ (by positivity), Int.emod_lt_of_pos _ (by positivity)⟩
    | true =>
      rw [inRange_signed hs, convert_signed hs hb]
      have hpow := two_mul_half h.pos
      have hle := Int.le_bmod (x := v) (m := 2 ^ t.bits) (by positivity)
      have hlt := Int.bmod_lt (x := v) (m := 2 ^ t.bits) (by positivity)
      push_cast at hle hlt
      omega

theorem convert_of_inRange (h : t.Std) (hv : t.InRange v) : t.convert v = v := by
  by_cases hb : t.bits = 1
  · have hs : t.signed = false := by
      unfold Std at h
      grind
    rw [inRange_unsigned hs, hb] at hv
    rw [convert, if_pos hb]
    split <;> omega
  · cases hs : t.signed with
    | false =>
      rw [inRange_unsigned hs] at hv
      rw [convert_unsigned hs hb, Int.emod_eq_of_lt hv.1 hv.2]
    | true =>
      rw [inRange_signed hs] at hv
      have hpow := two_mul_half h.pos
      rw [convert_signed hs hb]
      refine Int.bmod_eq_of_le ?_ ?_ <;> push_cast <;> omega

/-- Conversion changes a value by a multiple of the size of the type. -/
theorem convert_emod (hb : t.bits ≠ 1) : t.convert v % 2 ^ t.bits = v % 2 ^ t.bits := by
  cases hs : t.signed with
  | false => rw [convert_unsigned hs hb, Int.emod_emod]
  | true =>
    rw [convert_signed hs hb]
    have h := Int.bmod_emod (x := v) (m := 2 ^ t.bits)
    push_cast at h
    exact h

theorem inRange_promote (h : t.Std) (hv : t.InRange v) : t.promote.InRange v := by
  unfold promote
  split
  · unfold InRange at *
    unfold Std at h
    simp only [int, if_true]
    rcases h with ⟨h, hs⟩ | h | h | h | h <;> rw [h] at hv <;> split at hv <;> omega
  · exact hv

/-- A signed common type holds the values of both sides. -/
theorem inRange_common_left (hs : s.Std) (ht : t.Std) (hv : s.InRange v)
  (hc : (common s t).signed = true) : (common s t).InRange v := by
  have hv' := inRange_promote hs hv
  have hs' := wide_promote hs
  have ht' := wide_promote ht
  unfold common at *
  unfold Wide at hs' ht'
  unfold InRange at *
  grind

theorem common_comm (hs : s.Std) (ht : t.Std) : common s t = common t s := by
  have hs' := wide_promote hs
  have ht' := wide_promote ht
  unfold common Wide at *
  grind

end CType

namespace CBinary

end CBinary

end Xdec

import Xdec.Denote

/-!
# Operators as functions on numbers

A well-typed integer expression of width `w` denotes a number below `2 ^ w`.
`binSem` and `unSem` say what each operator does to those numbers, and
`nat_binary_iff`, `nat_unary_iff` and the cast lemmas say that the interpreter
computes it.  Rewriting is proved sound at this level; nothing above it looks
at a pair of words.
-/

namespace Xdec

/-- The number an expression denotes. -/
def nat (env : Env) (e : Expr) : Option Nat := (den env e).map U128.toNat

theorem nat_eq_some {env : Env} {e : Expr} {n : Nat} :
  nat env e = some n ↔ ∃ v, den env e = some v ∧ v.toNat = n := by
  simp [nat]

/-- Equal numbers are equal values. -/
theorem den_eq_some_iff {env : Env} {e : Expr} {v : U128} :
  den env e = some v ↔ nat env e = some v.toNat := by
  rw [nat_eq_some]
  constructor
  · exact fun h => ⟨v, h, rfl⟩
  · intro h
    obtain ⟨u, hu, heq⟩ := h
    rw [hu, U128.eq_of_toNat_eq heq]

/-! ## The functions -/

/-- Rotation of a `w`-bit number right by `n`. -/
def rotSem (w x n : Nat) : Nat := x / 2 ^ (n % w) + x % 2 ^ (n % w) * 2 ^ (w - n % w)

/-- A number read as signed orders as the number moved by half the range. -/
def biased (w x : Nat) : Nat := (x + 2 ^ (w - 1)) % 2 ^ w

/-- Truth as a number. -/
def truth (p : Prop) [Decidable p] : Nat := if p then 1 else 0

/-- What a binary operator does to numbers of width `w`. -/
def binSem : ExprOp → Option (Nat → Nat → Nat → Nat)
  | .add => some fun w x y => (x + y) % 2 ^ w
  | .sub => some fun w x y => (x + (2 ^ w - y)) % 2 ^ w
  | .mul => some fun w x y => x * y % 2 ^ w
  | .and => some fun _ x y => x &&& y
  | .or => some fun _ x y => x ||| y
  | .xor => some fun _ x y => x ^^^ y
  -- A shift amount is narrowed to a 32-bit `unsigned` first.
  | .shl => some fun w x y => x * 2 ^ (y % 2 ^ 32) % 2 ^ w
  | .shrU => some fun _ x y => x / 2 ^ (y % 2 ^ 32)
  | .shrS => some fun w x y =>
    if x < 2 ^ (w - 1) then x / 2 ^ (y % 2 ^ 32)
    else x / 2 ^ (y % 2 ^ 32) + (2 ^ w - 2 ^ (w - y % 2 ^ 32))
  | .rotR => some fun w x y => rotSem w x (y % 2 ^ 32)
  | .rotL => some fun w x y => rotSem w x (w - y % 2 ^ 32 % w)
  | .cmpEq => some fun _ x y => truth (x = y)
  | .cmpNe => some fun _ x y => truth (x ≠ y)
  | .cmpLtU => some fun _ x y => truth (x < y)
  | .cmpLeU => some fun _ x y => truth (x ≤ y)
  | .cmpLtS => some fun w x y => truth (biased w x < biased w y)
  | .cmpLeS => some fun w x y => truth (biased w x ≤ biased w y)
  | _ => none

/-- What a unary operator does to numbers of width `w`. -/
def unSem : ExprOp → Option (Nat → Nat → Nat)
  | .neg => some fun w x => (2 ^ w - x) % 2 ^ w
  | .not => some fun w x => 2 ^ w - 1 - x
  | _ => none

theorem shiftAmount_eq (b : U128) : shiftAmount b = b.toNat % 2 ^ 32 := by
  have h := b.lo.isLt
  unfold shiftAmount U128.toNat
  omega

theorem boolValue_truth {b : Bool} {p : Prop} [Decidable p] (h : b = true ↔ p) :
  (boolValue b).toNat = truth p := by
  rw [boolValue_toNat, truth]
  by_cases hp : p <;> simp [hp, h]

variable {f : Nat → Nat → Nat → Nat}

/-- One application of a binary operator to fitting values. -/
theorem applyOp_binary (env : Env) {op : ExprOp} {t : Ty} {i : U64}
  {a b : Expr} {x y : U128} (hf : binSem op = some f) (hpos : 0 < a.bits) (hw : a.bits ≤ 128)
  (ht : op.info.result = .sameAsOperands → t.bits = a.bits)
  (hx : x.toNat < 2 ^ a.bits) (hy : y.toNat < 2 ^ a.bits) :
  ∃ v, applyOp env (.binary op t i a b) [x, y] = .ok v ∧
    v.toNat = f a.bits x.toNat y.toNat := by
  have hbits : (Expr.binary op t i a b).bits = t.bits := rfl
  have hop0 : (Expr.binary op t i a b).operandBits 0 = a.bits := rfl
  have heq : ∀ u v : U128, u = v ↔ u.toNat = v.toNat :=
    fun u v => ⟨fun h => h ▸ rfl, U128.eq_of_toNat_eq⟩
  have hwords : (x.lo == y.lo && x.hi == y.hi) = true ↔ x = y := by
    cases x
    cases y
    simp
  have hwordsNe : (x.lo != y.lo || x.hi != y.hi) = true ↔ x ≠ y := by
    cases x
    cases y
    simp [bne_iff_ne]
    grind
  cases op <;> simp only [binSem, reduceCtorEq, Option.some.injEq] at hf <;> subst hf <;>
    refine ⟨_, rfl, ?_⟩ <;>
    simp only [ExprOp.info, forall_const, reduceCtorEq, false_implies] at ht <;>
    simp only [hbits, hop0, ht, List.getD_cons_zero, List.getD_cons_succ]
  case add => exact U128.add_toNat hw
  case sub => exact U128.sub_toNat_of_lt hw hy
  case mul => exact U128.mulLow_toNat hw
  case and =>
    rw [U128.mask_toNat, U128.and_toNat]
    exact Nat.mod_eq_of_lt (Nat.and_lt_two_pow _ hy)
  case or =>
    rw [U128.mask_toNat, U128.or_toNat]
    exact Nat.mod_eq_of_lt (Nat.or_lt_two_pow hx hy)
  case xor =>
    rw [U128.mask_toNat, U128.xor_toNat]
    exact Nat.mod_eq_of_lt (Nat.xor_lt_two_pow hx hy)
  case shl => rw [U128.shl_toNat hw, shiftAmount_eq]
  case shrU => rw [U128.shrU_toNat hx, shiftAmount_eq]
  case shrS => rw [U128.shrS_toNat hpos hw hx, shiftAmount_eq]
  case rotR => rw [U128.rotR_toNat hpos hw hx, shiftAmount_eq, rotSem]
  case rotL =>
    unfold U128.rotL
    rw [U128.rotR_toNat hpos hw hx, shiftAmount_eq, rotSem]
  case cmpEq => exact boolValue_truth (hwords.trans (heq x y))
  case cmpNe => exact boolValue_truth (hwordsNe.trans (not_congr (heq x y)))
  case cmpLtU =>
    refine boolValue_truth ?_
    rw [U128.cmpU_eq, beq_iff_eq, Nat.compare_eq_lt]
  case cmpLeU =>
    refine boolValue_truth ?_
    rw [U128.cmpU_eq, bne_iff_ne, Nat.compare_ne_gt]
  case cmpLtS =>
    refine boolValue_truth ?_
    rw [U128.cmpS_eq hpos hw hx hy, beq_iff_eq, Nat.compare_eq_lt]
    rfl
  case cmpLeS =>
    refine boolValue_truth ?_
    rw [U128.cmpS_eq hpos hw hx hy, bne_iff_ne, Nat.compare_ne_gt]
    rfl

/-! ## Reading an integer-typed node -/

variable {ctx : Ctx} {env : Env} {op : ExprOp} {t : Ty} {i : U64} {a b c : Expr} {n : Nat}

theorem nodeOk_binary (hwt : (Expr.binary op t i a b).wellTyped ctx = true) :
  a.wellTyped ctx = true ∧ b.wellTyped ctx = true :=
  ⟨Expr.wellTyped_operand hwt (by simp), Expr.wellTyped_operand hwt (by simp)⟩

/-- Both operands of an operator of the table have one type, which is also the
result's unless that is a truth value. -/
theorem binary_types (hf : binSem op = some f)
  (hwt : (Expr.binary op t i a b).wellTyped ctx = true) :
  b.type = a.type ∧ (op.info.result = .sameAsOperands → a.type = t) ∧
    (op.info.result ≠ .sameAsOperands → t.isBoolean = true) := by
  have hok := Expr.nodeOk_of_wellTyped hwt
  simp only [Expr.nodeOk, Bool.and_eq_true] at hok
  have hres := hok.1.1.2
  cases op <;> simp only [binSem, reduceCtorEq] at hf <;>
    simp_all [Expr.resultRuleOk, ExprOp.info]

/-- A value of integer type fits, and the type has a supported width. -/
theorem nat_lt (hfits : env.Fits ctx) (hwt : a.wellTyped ctx = true)
  (hint : a.type.isInteger = true) (h : nat env a = some n) :
  n < 2 ^ a.bits ∧ 0 < a.bits ∧ a.bits ≤ 128 := by
  obtain ⟨v, hv, rfl⟩ := nat_eq_some.mp h
  obtain ⟨hflags, -, hpos⟩ := integer_node (Expr.nodeOk_of_wellTyped hwt) hint
  obtain ⟨hwide, -⟩ := den_some_iff.mp hv
  refine ⟨den_lt hfits hwt hint hv, hpos, ?_⟩
  by_contra hgt
  exact hwide ⟨by omega, hflags⟩

theorem readsFlags_of_binSem (hf : binSem op = some f) :
  op.readsFlags = false := by
  cases op <;> first | rfl | simp [binSem] at hf

/-- **Binary operators.**  The number of a node is the operator's function of
the numbers of its operands. -/
theorem nat_binary_iff (hf : binSem op = some f)
  (hfits : env.Fits ctx) (hwt : (Expr.binary op t i a b).wellTyped ctx = true)
  (hint : a.type.isInteger = true) :
  nat env (.binary op t i a b) = some n ↔
    ∃ x y, nat env a = some x ∧ nat env b = some y ∧ n = f a.bits x y := by
  obtain ⟨hawt, hbwt⟩ := nodeOk_binary hwt
  obtain ⟨hab, hsame, hbool⟩ := binary_types hf hwt
  have hread : ∀ v, readArg op v = v := by
    intro v
    simp [readArg, readsFlags_of_binSem hf]
  have htbits : op.info.result = .sameAsOperands → t.bits = a.bits := fun h => by
    rw [Expr.bits, hsame h]
  -- Both readings apply the operator to the same two fitting values.
  have hval : ∀ x y, den env a = some x → den env b = some y →
      ∃ v, applyOp env (.binary op t i a b) [x, y] = .ok v ∧
        v.toNat = f a.bits x.toNat y.toNat ∧ ¬ (t.bits > 128 ∧ t.isFlags = false) := by
    intro x y hx hy
    obtain ⟨hxlt, hpos, hw⟩ := nat_lt hfits hawt hint (nat_eq_some.mpr ⟨x, hx, rfl⟩)
    obtain ⟨hylt, -, -⟩ :=
      nat_lt hfits hbwt (hab ▸ hint) (nat_eq_some.mpr ⟨y, hy, rfl⟩)
    rw [Expr.bits, hab] at hylt
    obtain ⟨v, hv, hvn⟩ := applyOp_binary env (t := t) (i := i) (b := b) hf hpos hw
      htbits hxlt hylt
    refine ⟨v, hv, hvn, ?_⟩
    intro hwide
    by_cases hr : op.info.result = .sameAsOperands
    · rw [htbits hr] at hwide
      exact absurd hwide.1 (by omega)
    · have hb := hbool hr
      simp only [Ty.isBoolean, Bool.and_eq_true, beq_iff_eq] at hb
      have hok := Expr.nodeOk_of_wellTyped hwt
      simp only [Expr.nodeOk, Bool.and_eq_true, Ty.valid, hb.1, Expr.type_binary,
        beq_iff_eq] at hok
      have hgt := hwide.1
      simp only [Ty.bits, hb.2, hok.1.1.1.2.2] at hgt
      omega
  rw [nat_eq_some]
  simp only [den_binary_iff, hread]
  constructor
  · intro h
    obtain ⟨v, ⟨-, x, y, hx, hy, happ⟩, rfl⟩ := h
    obtain ⟨u, hu, hun, -⟩ := hval x y hx hy
    obtain rfl := Except.ok.inj (hu.symm.trans happ)
    exact ⟨_, _, nat_eq_some.mpr ⟨x, hx, rfl⟩, nat_eq_some.mpr ⟨y, hy, rfl⟩, hun⟩
  · intro h
    obtain ⟨_, _, hnx, hny, rfl⟩ := h
    obtain ⟨x, hx, rfl⟩ := nat_eq_some.mp hnx
    obtain ⟨y, hy, rfl⟩ := nat_eq_some.mp hny
    obtain ⟨u, hu, hun, hwide⟩ := hval x y hx hy
    exact ⟨u, ⟨hwide, x, y, hx, hy, hu⟩, hun⟩

/-- A unary node whose operator computes `g` on the operand's number. -/
theorem nat_unary_of {g : Nat → Nat}
  (hval : ∀ x, den env a = some x →
    ∃ v, applyOp env (.unary op t i a) [readArg op x] = .ok v ∧ v.toNat = g x.toNat ∧
      t.bits ≤ 128) :
  nat env (.unary op t i a) = some n ↔ ∃ x, nat env a = some x ∧ n = g x := by
  rw [nat_eq_some]
  simp only [den_unary_iff]
  constructor
  · intro h
    obtain ⟨v, ⟨-, x, hx, happ⟩, rfl⟩ := h
    obtain ⟨u, hu, hun, -⟩ := hval x hx
    obtain rfl := Except.ok.inj (hu.symm.trans happ)
    exact ⟨_, nat_eq_some.mpr ⟨x, hx, rfl⟩, hun⟩
  · intro h
    obtain ⟨_, hnx, rfl⟩ := h
    obtain ⟨x, hx, rfl⟩ := nat_eq_some.mp hnx
    obtain ⟨u, hu, hun, hw⟩ := hval x hx
    exact ⟨u, ⟨fun h => absurd h.1 (Nat.not_lt.mpr hw), x, hx, hu⟩, hun⟩

/-- **Unary operators.**  The number of a node is the operator's function of
the number of its operand. -/
theorem nat_unary_iff {f : Nat → Nat → Nat} (hf : unSem op = some f)
  (hfits : env.Fits ctx) (hwt : (Expr.unary op t i a).wellTyped ctx = true)
  (hint : a.type.isInteger = true) :
  nat env (.unary op t i a) = some n ↔ ∃ x, nat env a = some x ∧ n = f a.bits x := by
  have hawt : a.wellTyped ctx = true := Expr.wellTyped_operand hwt (by simp)
  have hsame : t = a.type := by
    have hok := Expr.nodeOk_of_wellTyped hwt
    simp only [Expr.nodeOk, Bool.and_eq_true] at hok
    have hres := hok.1.1.2
    cases op <;> simp only [unSem, reduceCtorEq] at hf <;>
      simp_all [Expr.resultRuleOk, ExprOp.info]
  subst hsame
  refine nat_unary_of fun x hx => ?_
  obtain ⟨hxlt, hpos, hw⟩ := nat_lt hfits hawt hint (nat_eq_some.mpr ⟨x, hx, rfl⟩)
  cases op <;> simp only [unSem, reduceCtorEq, Option.some.injEq] at hf <;> subst hf
  case neg =>
    refine ⟨_, rfl, ?_, hw⟩
    refine (U128.sub_toNat_of_lt (a := U128.zero) hw hxlt).trans ?_
    rw [U128.toNat_zero, Nat.zero_add]
  case not =>
    have hsum := NatBits.xor_add_two_mul_and x.toNat (2 ^ a.bits - 1)
    rw [Nat.and_two_pow_sub_one_eq_mod, Nat.mod_eq_of_lt hxlt] at hsum
    have hxor : (U128.xor x (U128.maskOf a.bits)).toNat = 2 ^ a.bits - 1 - x.toNat := by
      rw [U128.xor_toNat, U128.maskOf_toNat, Nat.min_eq_left hw]
      omega
    exact ⟨_, rfl, hxor, hw⟩

/-- An integer-typed constant denotes its immediate, cut to the width. -/
theorem nat_const (hw : t.bits ≤ 128) :
  nat env (.leaf .const t i) = some (i.toNat % 2 ^ t.bits) := by
  refine nat_eq_some.mpr ⟨U128.mask (word i) t.bits, ?_, ?_⟩
  · exact den_leaf_iff.mpr ⟨fun h => absurd h.1 (Nat.not_lt.mpr hw), rfl⟩
  · rw [U128.mask_toNat, word_toNat]

/-! ## Casts -/

theorem nat_trunc_iff (hw : t.bits ≤ 128) :
  nat env (.unary .trunc t i a) = some n ↔ ∃ x, nat env a = some x ∧ n = x % 2 ^ t.bits :=
  nat_unary_of fun x _ => ⟨_, rfl, U128.mask_toNat x _, hw⟩

theorem nat_zext_iff (hfits : env.Fits ctx) (hawt : a.wellTyped ctx = true)
  (hint : a.type.isInteger = true) (hw : t.bits ≤ 128) :
  nat env (.unary .zext t i a) = some n ↔ ∃ x, nat env a = some x ∧ n = x := by
  refine nat_unary_of fun x hx => ?_
  obtain ⟨hxlt, -, -⟩ := nat_lt hfits hawt hint (nat_eq_some.mpr ⟨x, hx, rfl⟩)
  exact ⟨_, rfl, U128.zext_toNat hxlt _, hw⟩

theorem nat_sext_iff (hfits : env.Fits ctx) (hawt : a.wellTyped ctx = true)
  (hint : a.type.isInteger = true) (hle : a.bits ≤ t.bits) (hw : t.bits ≤ 128) :
  nat env (.unary .sext t i a) = some n ↔ ∃ x, nat env a = some x ∧
    n = if x < 2 ^ (a.bits - 1) then x else x + (2 ^ t.bits - 2 ^ a.bits) := by
  refine nat_unary_of (g := fun x => if x < 2 ^ (a.bits - 1) then x
    else x + (2 ^ t.bits - 2 ^ a.bits)) fun x hx => ?_
  obtain ⟨hxlt, hpos, -⟩ := nat_lt hfits hawt hint (nat_eq_some.mpr ⟨x, hx, rfl⟩)
  exact ⟨_, rfl, U128.sext_toNat hpos hle hw hxlt, hw⟩

theorem nat_extract_iff (hfits : env.Fits ctx) (hawt : a.wellTyped ctx = true)
  (hint : a.type.isInteger = true) (hw : t.bits ≤ 128) :
  nat env (.unary .extract t i a) = some n ↔ ∃ x, nat env a = some x ∧
    n = x / 2 ^ (i.toNat % 2 ^ 32) % 2 ^ t.bits := by
  refine nat_unary_of (g := fun x => x / 2 ^ (i.toNat % 2 ^ 32) % 2 ^ t.bits) fun x hx => ?_
  obtain ⟨hxlt, -, -⟩ := nat_lt hfits hawt hint (nat_eq_some.mpr ⟨x, hx, rfl⟩)
  exact ⟨_, rfl, U128.extract_toNat hxlt _ _, hw⟩

end Xdec

import Xdec.Value

/-!
# Sound replacement of integer expressions

A rewrite is judged by what it does to the interpreter: the replacement has
the type of the original, is well typed, descends no deeper, and denotes the
same number in every state in which the original denotes one.  `Replaces` is
that judgement, and `Replaces.eval` turns it back into a statement about
`Interpreter::eval` at any depth.

`IntTyped ctx w e` says that `e` is a well-typed expression of the integer
type of width `w`.  Its rules build and take apart the nodes the rewriting
rules match.
-/

namespace Xdec

variable {ctx : Ctx} {env : Env} {w n : Nat} {o : ExprOp} {t : Ty} {i : U64} {a b c e r : Expr}

/-! ## Depth of a node -/

theorem need_unary (hr : o.readsFlags = false) :
  need (.unary o t i a) false = need a false + 1 := by
  simp [need, needEnter, levels, hr]

theorem need_binary (hr : o.readsFlags = false) :
  need (.binary o t i a b) false = max (need a false) (need b false) + 1 := by
  simp [need, needEnter, levels, hr]

theorem need_ternary (hr : o.readsFlags = false) :
  need (.ternary o t i a b c) false =
    max (need a false) (max (need b false) (need c false)) + 1 := by
  simp [need, needEnter, levels, hr]

@[simp] theorem need_leaf : need (.leaf o t i) false = 0 := by
  simp [need, needEnter, levels]

/-! ## Integer-typed expressions -/

/-- A well-typed expression of the integer type of width `w`. -/
structure IntTyped (ctx : Ctx) (w : Nat) (e : Expr) : Prop where
  wellTyped : e.wellTyped ctx = true
  type : e.type = Ty.integer w

theorem IntTyped.bits (h : IntTyped ctx w e) : e.bits = w := by
  rw [Expr.bits, h.type, Ty.bits_integer]

theorem IntTyped.isInteger (h : IntTyped ctx w e) : e.type.isInteger = true := by
  rw [h.type]
  rfl

theorem IntTyped.pos (h : IntTyped ctx w e) : 0 < w := by
  have hok := Expr.nodeOk_of_wellTyped h.wellTyped
  have := (integer_node hok h.isInteger).2.2
  rwa [h.bits] at this

/-- A number of an integer-typed expression fits. -/
theorem IntTyped.lt (h : IntTyped ctx w e) (hfits : env.Fits ctx) (hn : nat env e = some n) :
  n < 2 ^ w ∧ w ≤ 128 := by
  obtain ⟨hlt, -, hw⟩ := nat_lt hfits h.wellTyped h.isInteger hn
  rw [h.bits] at hlt hw
  exact ⟨hlt, hw⟩

/-- Operators of the table whose result has the type of the operands. -/
def sameOp (o : ExprOp) : Bool := (binSem o).isSome && o.info.result == .sameAsOperands

/-- Operators of the table that compare. -/
def cmpOp (o : ExprOp) : Bool := (binSem o).isSome && o.info.result == .boolean

theorem IntTyped.operands (h : IntTyped ctx w (.binary o t i a b)) (hop : sameOp o = true) :
  IntTyped ctx w a ∧ IntTyped ctx w b := by
  simp only [sameOp, Bool.and_eq_true, Option.isSome_iff_exists, beq_iff_eq] at hop
  obtain ⟨⟨f, hf⟩, hres⟩ := hop
  obtain ⟨hawt, hbwt⟩ := nodeOk_binary h.wellTyped
  obtain ⟨hab, hsame, -⟩ := binary_types hf h.wellTyped
  have ht : t = Ty.integer w := h.type
  have hat : a.type = Ty.integer w := (hsame hres).trans ht
  exact ⟨⟨hawt, hat⟩, hbwt, hab.trans hat⟩

theorem IntTyped.operand (h : IntTyped ctx w (.unary o t i a)) (hop : (unSem o).isSome = true) :
  IntTyped ctx w a := by
  have hawt : a.wellTyped ctx = true := Expr.wellTyped_operand h.wellTyped (by simp)
  have hok := Expr.nodeOk_of_wellTyped h.wellTyped
  have ht : t = Ty.integer w := h.type
  simp only [Expr.nodeOk, Bool.and_eq_true] at hok
  have hres := hok.1.1.2
  refine ⟨hawt, ?_⟩
  cases o <;> simp only [unSem, Option.isSome_none, Bool.false_eq_true] at hop <;>
    simp_all [Expr.resultRuleOk, ExprOp.info]

/-- A comparison of integers: its type, and the operands. -/
theorem cmp_typed (hwt : (Expr.binary o t i a b).wellTyped ctx = true) (hop : cmpOp o = true)
  (ha : a.type = Ty.integer w) :
  IntTyped ctx w a ∧ IntTyped ctx w b ∧ t = Ty.boolean := by
  simp only [cmpOp, Bool.and_eq_true, Option.isSome_iff_exists, beq_iff_eq] at hop
  obtain ⟨⟨f, hf⟩, hres⟩ := hop
  obtain ⟨hawt, hbwt⟩ := nodeOk_binary hwt
  obtain ⟨hab, -, hbool⟩ := binary_types hf hwt
  have ht := hbool (by rw [hres]; decide)
  have hok := Expr.nodeOk_of_wellTyped hwt
  simp only [Expr.nodeOk, Bool.and_eq_true, Expr.type_binary] at hok
  simp only [Ty.isBoolean, Bool.and_eq_true, beq_iff_eq] at ht
  have htint : t.isInteger = true := by simp [Ty.isInteger, ht.1]
  obtain ⟨hteq, -⟩ := Ty.eq_integer hok.1.1.1.2 htint
  refine ⟨⟨hawt, ha⟩, ⟨hbwt, hab.trans ha⟩, ?_⟩
  have hl : t.lanes = 1 := by
    rw [hteq]
    rfl
  obtain ⟨k, eb, l⟩ := t
  simp only at ht hl
  simp [Ty.boolean, Ty.integer, ht.1, ht.2, hl]

/-! ## Building -/

theorem valid_of_wellTyped (h : e.wellTyped ctx = true) : e.type.valid = true := by
  have hok := Expr.nodeOk_of_wellTyped h
  simp only [Expr.nodeOk, Bool.and_eq_true] at hok
  exact hok.1.1.1.2

theorem IntTyped.mkBinary (ha : IntTyped ctx w a) (hb : IntTyped ctx w b)
  (hop : sameOp o = true) : IntTyped ctx w (.mkBinary o a b) := by
  have hv := valid_of_wellTyped ha.wellTyped
  have hab : b.type = a.type := hb.type.trans ha.type.symm
  have haw := ha.wellTyped
  have hbw := hb.wellTyped
  have htype := ha.type
  unfold Expr.mkBinary
  cases o <;> simp only [sameOp, binSem, ExprOp.info, Option.isSome_none, Bool.false_and,
    Bool.false_eq_true, Option.isSome_some, Bool.true_and, beq_iff_eq, reduceCtorEq] at hop <;>
    refine ⟨?_, htype⟩ <;>
    simp [Expr.wellTyped, Expr.nodeOk, Expr.operandCount, ExprOp.info, Expr.resultRuleOk,
      Expr.opRuleOk, ExprOp.yieldsFloat, hv, hab, haw, hbw]

theorem wellTyped_mkCompare (ha : IntTyped ctx w a) (hb : IntTyped ctx w b)
  (hop : cmpOp o = true) :
  (Expr.mkBinary o a b).wellTyped ctx = true ∧
    (Expr.mkBinary o a b).type = Ty.boolean := by
  have hab : b.type = a.type := hb.type.trans ha.type.symm
  have haw := ha.wellTyped
  have hbw := hb.wellTyped
  have hvalid : Ty.boolean.valid = true := by decide
  have hbool : Ty.boolean.isBoolean = true := by decide
  unfold Expr.mkBinary
  cases o <;> simp only [cmpOp, binSem, ExprOp.info, Option.isSome_none, Bool.false_and,
    Bool.false_eq_true, Option.isSome_some, Bool.true_and, beq_iff_eq, reduceCtorEq] at hop <;>
    simp [Expr.wellTyped, Expr.nodeOk, Expr.operandCount, ExprOp.info, Expr.resultRuleOk,
      Expr.opRuleOk, ExprOp.yieldsFloat, hvalid, hbool, hab, haw, hbw]

theorem IntTyped.mkUnary (ha : IntTyped ctx w a) (hop : (unSem o).isSome = true) :
  IntTyped ctx w (.mkUnary o a) := by
  have hv := valid_of_wellTyped ha.wellTyped
  have haw := ha.wellTyped
  have htype := ha.type
  unfold Expr.mkUnary
  cases o <;> simp only [unSem, Option.isSome_none, Bool.false_eq_true] at hop <;>
    refine ⟨?_, htype⟩ <;>
    simp [Expr.wellTyped, Expr.nodeOk, Expr.operandCount, ExprOp.info, Expr.resultRuleOk,
      Expr.opRuleOk, ExprOp.yieldsFloat, hv, haw]

theorem valid_integer (hpos : 0 < w) (hw : w ≤ 2048) : (Ty.integer w).valid = true := by
  simp [Ty.integer, Ty.valid, hpos, hw, Ty.kMaxBits]

theorem IntTyped.constant (hpos : 0 < w) (hw : w ≤ 2048) (k : U64) :
  IntTyped ctx w (.constant (.integer w) k) := by
  refine ⟨?_, rfl⟩
  have hv := valid_integer hpos hw
  have hint : (Ty.integer w).isFloat = false := rfl
  unfold Expr.constant
  rw [Ty.bits_integer]
  by_cases h : w ≥ 64
  · simp [Expr.wellTyped, Expr.nodeOk, Expr.operandCount, ExprOp.info, Expr.resultRuleOk,
      Expr.opRuleOk, ExprOp.yieldsFloat, hv, Expr.bits, Nat.not_lt.mpr h]
  · have hidem : zeroExtend (zeroExtend k w) w = zeroExtend k w := by
      apply zeroExtend_of_le
      rw [zeroExtend_toNat]
      exact Nat.mod_lt _ (Nat.two_pow_pos w)
    simp [Expr.wellTyped, Expr.nodeOk, Expr.operandCount, ExprOp.info, Expr.resultRuleOk,
      Expr.opRuleOk, ExprOp.yieldsFloat, hv, Expr.bits, h, hidem]

theorem nat_constant (hw : w ≤ 128) (k : U64) :
  nat env (.constant (.integer w) k) = some (k.toNat % 2 ^ w) := by
  unfold Expr.constant
  rw [nat_const (by simpa using hw), Ty.bits_integer]
  split
  · rfl
  · rw [zeroExtend_toNat, Nat.mod_mod]

theorem IntTyped.asConstant (h : IntTyped ctx w e) (hw : w ≤ 128) {k : U64}
  (hk : e.asConstant = some k) :
  e = .leaf .const (.integer w) k ∧ (∀ env, nat env e = some k.toNat) ∧ k.toNat < 2 ^ w := by
  have hok := Expr.nodeOk_of_wellTyped h.wellTyped
  have hop : e.op = .const ∧ e.immediate = k := by
    unfold Expr.asConstant at hk
    split at hk
    · rename_i hop
      exact ⟨hop, Option.some.inj hk⟩
    · cases hk
  have hleaf : e = .leaf .const (.integer w) k := by
    have ht := h.type
    cases e <;> simp_all [Expr.nodeOk, Expr.operandCount, ExprOp.info]
  have hlt : k.toNat < 2 ^ w := by
    subst hleaf
    have hpos := h.pos
    by_cases h64 : 64 ≤ w
    · exact Nat.lt_of_lt_of_le k.isLt (Nat.pow_le_pow_right (by decide) h64)
    · have hlt64 : w < 64 := by omega
      have hscalar : (Ty.integer w).isScalarInteger = true := by
        simp [Ty.isScalarInteger, Ty.integer, hpos, hlt64.le]
      simp [Expr.nodeOk, Expr.opRuleOk, hscalar, Expr.bits, hlt64] at hok
      rw [hok.1.2, zeroExtend_toNat]
      exact Nat.mod_lt _ (Nat.two_pow_pos w)
  refine ⟨hleaf, fun env => ?_, hlt⟩
  rw [hleaf, nat_const (by simp; omega), Ty.bits_integer, Nat.mod_eq_of_lt hlt]

/-! ## Reading -/

variable {f : Nat → Nat → Nat → Nat}

theorem nat_binary_of_type (hf : binSem o = some f) (hfits : env.Fits ctx)
  (hwt : (Expr.binary o t i a b).wellTyped ctx = true) (ha : a.type = Ty.integer w) :
  nat env (.binary o t i a b) = some n ↔
    ∃ x y, nat env a = some x ∧ nat env b = some y ∧ n = f w x y := by
  have hbits : a.bits = w := by rw [Expr.bits, ha, Ty.bits_integer]
  rw [nat_binary_iff hf hfits hwt (by rw [ha]; rfl), hbits]

theorem IntTyped.nat_iff (h : IntTyped ctx w (.binary o t i a b)) (hop : sameOp o = true)
  (hf : binSem o = some f) (hfits : env.Fits ctx) :
  nat env (.binary o t i a b) = some n ↔
    ∃ x y, nat env a = some x ∧ nat env b = some y ∧ n = f w x y :=
  nat_binary_of_type hf hfits h.wellTyped (h.operands hop).1.type

variable {x : Nat} {C : Env → Prop}

theorem nat_mkBinary (ha : IntTyped ctx w a) (hb : IntTyped ctx w b) (hop : sameOp o = true)
  (hf : binSem o = some f) (hfits : env.Fits ctx) {y : Nat}
  (hx : nat env a = some x) (hy : nat env b = some y) :
  nat env (.mkBinary o a b) = some (f w x y) :=
  (nat_binary_of_type hf hfits (ha.mkBinary hb hop).wellTyped ha.type).mpr ⟨x, y, hx, hy, rfl⟩

theorem nat_mkCompare (ha : IntTyped ctx w a) (hb : IntTyped ctx w b) (hop : cmpOp o = true)
  (hf : binSem o = some f) (hfits : env.Fits ctx) {y : Nat}
  (hx : nat env a = some x) (hy : nat env b = some y) :
  nat env (.mkBinary o a b) = some (f w x y) :=
  (nat_binary_of_type hf hfits (wellTyped_mkCompare ha hb hop).1 ha.type).mpr
    ⟨x, y, hx, hy, rfl⟩

theorem IntTyped.nat_unary {g : Nat → Nat → Nat} (h : IntTyped ctx w (.unary o t i a))
  (hg : unSem o = some g) (hfits : env.Fits ctx) :
  nat env (.unary o t i a) = some n ↔ ∃ x, nat env a = some x ∧ n = g w x := by
  have ha := h.operand (by rw [hg]; rfl)
  rw [nat_unary_iff hg hfits h.wellTyped ha.isInteger, ha.bits]

theorem nat_mkUnary {g : Nat → Nat → Nat} (ha : IntTyped ctx w a)
  (hg : unSem o = some g) (hfits : env.Fits ctx) (hx : nat env a = some x) :
  nat env (.mkUnary o a) = some (g w x) :=
  ((ha.mkUnary (by rw [hg]; rfl)).nat_unary hg hfits).mpr ⟨x, hx, rfl⟩

/-! ## Casts -/

/-- A one-bit type is the integer type of width one. -/
theorem IntTyped.of_isBoolean (hwt : e.wellTyped ctx = true) (hb : e.type.isBoolean = true) :
  IntTyped ctx 1 e := by
  simp only [Ty.isBoolean, Bool.and_eq_true, beq_iff_eq] at hb
  have hint : e.type.isInteger = true := by simp [Ty.isInteger, hb.1]
  obtain ⟨heq, -⟩ := Ty.eq_integer (valid_of_wellTyped hwt) hint
  have hlanes : e.type.lanes = 1 := by
    rw [heq]
    rfl
  refine ⟨hwt, heq.trans ?_⟩
  rw [Ty.bits, hb.2, hlanes]

/-- A cast between integer types that its own rule allows. -/
theorem IntTyped.cast (ha : IntTyped ctx w a) (hpos : 0 < n) (hn : n ≤ 2048)
  (hop : (o = .trunc ∧ n ≤ w) ∨ ((o = .zext ∨ o = .sext) ∧ w ≤ n)) :
  IntTyped ctx n (.cast o (.integer n) a) := by
  have hv := valid_integer hpos hn
  have haw := ha.wellTyped
  have hab := ha.bits
  refine ⟨?_, rfl⟩
  unfold Expr.cast
  rw [Expr.bits] at hab
  rcases hop with ⟨rfl, hle⟩ | ⟨rfl | rfl, hle⟩ <;>
    simp [Expr.wellTyped, Expr.nodeOk, Expr.operandCount, ExprOp.info, Expr.resultRuleOk,
      Expr.opRuleOk, ExprOp.yieldsFloat, Expr.bits, hv, haw, hab, hle]

theorem nat_cast_trunc (hn : n ≤ 128) (hx : nat env a = some x) :
  nat env (.cast .trunc (.integer n) a) = some (x % 2 ^ n) :=
  (nat_trunc_iff (by simpa using hn)).mpr ⟨x, hx, by rw [Ty.bits_integer]⟩

theorem nat_cast_sext (hfits : env.Fits ctx) (ha : IntTyped ctx w a) (hle : w ≤ n)
  (hn : n ≤ 128) (hx : nat env a = some x) :
  nat env (.cast .sext (.integer n) a) =
    some (if x < 2 ^ (w - 1) then x else x + (2 ^ n - 2 ^ w)) := by
  refine (nat_sext_iff hfits ha.wellTyped ha.isInteger ?_ (by simpa using hn)).mpr ⟨x, hx, ?_⟩
  · rw [ha.bits, Ty.bits_integer]
    exact hle
  · rw [ha.bits, Ty.bits_integer]

/-! ## Replacement -/

/-- `r` has the type of `e` and descends no deeper, and in a state in which `e`
denotes a number, `r` denotes that number exactly when the state meets `C`. -/
structure ReplacesWhen (ctx : Ctx) (C : Env → Prop) (e r : Expr) : Prop where
  wellTyped : r.wellTyped ctx = true
  type : r.type = e.type
  need_le : need r false ≤ need e false
  nat_iff : ∀ {env : Env}, env.Fits ctx → ∀ {n}, nat env e = some n →
    (nat env r = some n ↔ C env)

/-- **Conditional replacement and the interpreter.**  Where the interpreter
returns a value for the original, it returns the same value for the
replacement exactly when the condition holds. -/
theorem ReplacesWhen.eval_iff {d : Nat} {v : U128}
  (h : ReplacesWhen ctx C e r) (hwt : e.wellTyped ctx = true) (hfits : env.Fits ctx)
  (hv : eval env e d = .ok v) : eval env r d = .ok v ↔ C env := by
  obtain ⟨hden, hneed⟩ := (eval_ok_iff hwt).mp hv
  have hle := h.need_le
  rw [← h.nat_iff hfits (den_eq_some_iff.mp hden), eval_ok_iff h.wellTyped, den_eq_some_iff]
  exact ⟨fun h => h.1, fun h => ⟨h, by omega⟩⟩

/-- `r` may stand in the place of `e`. -/
structure Replaces (ctx : Ctx) (e r : Expr) : Prop where
  wellTyped : r.wellTyped ctx = true
  type : r.type = e.type
  need_le : need r false ≤ need e false
  nat_eq : ∀ {env : Env}, env.Fits ctx → ∀ {n}, nat env e = some n → nat env r = some n

theorem Replaces.replacesWhen (h : Replaces ctx e r) (hC : ∀ env, C env) :
  ReplacesWhen ctx C e r :=
  ⟨h.wellTyped, h.type, h.need_le, fun hfits _ hn => ⟨fun _ => hC _, fun _ => h.nat_eq hfits hn⟩⟩

theorem Replaces.refl (hwt : e.wellTyped ctx = true) : Replaces ctx e e :=
  ⟨hwt, rfl, Nat.le_refl _, fun _ => id⟩

/-- **Replacement and the interpreter.**  Whatever the interpreter returns for
the original, at any depth, it returns for the replacement. -/
theorem Replaces.eval {d : Nat} {v : U128} (h : Replaces ctx e r)
  (hwt : e.wellTyped ctx = true) (hfits : env.Fits ctx) (hv : eval env e d = .ok v) :
  eval env r d = .ok v :=
  ((h.replacesWhen (C := fun _ => True) fun _ => trivial).eval_iff hwt hfits hv).mpr trivial

/-! ## Replacement in one state -/

/-- In the state `env`, `r` may stand in the place of `e`: as a value and as a
flags operand. -/
structure Preserves (ctx : Ctx) (env : Env) (e r : Expr) : Prop where
  wellTyped : r.wellTyped ctx = true
  type : r.type = e.type
  need_le : ∀ m, need r m ≤ need e m
  den_eq : ∀ {v}, den env e = some v → den env r = some v

theorem Preserves.refl (hwt : e.wellTyped ctx = true) : Preserves ctx env e e :=
  ⟨hwt, rfl, fun _ => Nat.le_refl _, fun h => h⟩

theorem Preserves.trans {q : Expr} (h : Preserves ctx env e r) (h' : Preserves ctx env r q) :
  Preserves ctx env e q :=
  ⟨h'.wellTyped, h'.type.trans h.type, fun m => (h'.need_le m).trans (h.need_le m),
    fun hv => h'.den_eq (h.den_eq hv)⟩

/-- Whatever the interpreter returns for the original it returns for the
replacement. -/
theorem Preserves.eval {d : Nat} {v : U128} (h : Preserves ctx env e r)
  (hwt : e.wellTyped ctx = true) (hv : eval env e d = .ok v) : eval env r d = .ok v := by
  obtain ⟨hden, hneed⟩ := (eval_ok_iff hwt).mp hv
  have hle := h.need_le false
  exact (eval_ok_iff h.wellTyped).mpr ⟨h.den_eq hden, by omega⟩

/-- Only a flag definition is entered as flags without a further level. -/
theorem need_true (h : e.op ≠ .flagDef) : need e true = need e false + 1 := by
  rw [need_eq]
  simp [needEnter, h]

theorem need_true_le (e : Expr) : need e true ≤ need e false + 1 := by
  rw [need_eq]
  by_cases h : e.op = .flagDef
  · have hr : ExprOp.flagDef.readsFlags = false := rfl
    simp [needEnter, h, hr]
  · simp [needEnter, h]

theorem op_ne_flagDef (hwt : e.wellTyped ctx = true) (ht : e.type.isFlags = false) :
  e.op ≠ .flagDef := by
  intro hop
  have hok := Expr.nodeOk_of_wellTyped hwt
  simp [Expr.nodeOk, Expr.resultRuleOk, hop, ExprOp.info, ht] at hok

theorem ReplacesWhen.preserves (h : ReplacesWhen ctx C e r)
  (hwt : e.wellTyped ctx = true) (ht : e.type.isFlags = false) (hfits : env.Fits ctx)
  (hC : C env) : Preserves ctx env e r := by
  refine ⟨h.wellTyped, h.type, ?_, ?_⟩
  · intro m
    have hle := h.need_le
    cases m with
    | false => exact hle
    | true =>
      rw [need_true (op_ne_flagDef hwt ht), need_true (op_ne_flagDef h.wellTyped (h.type ▸ ht))]
      omega
  · intro v hv
    exact den_eq_some_iff.mpr ((h.nat_iff hfits (den_eq_some_iff.mp hv)).mpr hC)

theorem Replaces.preserves (h : Replaces ctx e r) (hwt : e.wellTyped ctx = true)
  (ht : e.type.isFlags = false) (hfits : env.Fits ctx) : Preserves ctx env e r :=
  (h.replacesWhen (C := fun _ => True) fun _ => trivial).preserves hwt ht hfits trivial

/-! ### Congruence -/

/-- A node is checked through the types of its operands only. -/
theorem nodeOk_congr {e' : Expr} (ho : e'.op = e.op) (ht : e'.type = e.type)
  (hi : e'.immediate = e.immediate)
  (hops : e'.operands.map Expr.type = e.operands.map Expr.type) :
  e'.nodeOk ctx = e.nodeOk ctx := by
  have hlen : e'.operands.length = e.operands.length := by
    simpa using congrArg List.length hops
  have hrule : e'.resultRuleOk = e.resultRuleOk := by
    have hall : ∀ xs : List Expr, xs.all (fun x => x.type == e.type) =
        (xs.map Expr.type).all (fun u => u == e.type) := by
      intro xs
      rw [List.all_map]
      rfl
    unfold Expr.resultRuleOk
    rw [ho, ht, hall, hall, hops]
    cases e <;> cases e' <;> simp_all
  have hop : e'.opRuleOk ctx = e.opRuleOk ctx := by
    unfold Expr.opRuleOk
    simp only [ho, ht, hi, Expr.bits]
    clear hrule
    generalize e.operands = xs at hops hlen ⊢
    generalize e'.operands = ys at hops hlen ⊢
    -- The rules look at two operands at most, and at the number of all.
    match xs, ys with
    | [], [] => rfl
    | [x], [y] => cases e.op <;> simp_all
    | x :: x' :: xs, y :: y' :: ys =>
      simp only [List.map_cons, List.cons.injEq, List.length_cons] at hops hlen
      obtain ⟨h1, h2, -⟩ := hops
      cases e.op <;> simp only [h1, h2, hlen, List.length_cons]
    | [], y :: ys => cases hlen
    | x :: xs, [] => cases hlen
    | [x], y :: y' :: ys => simp at hlen
    | x :: x' :: xs, [y] => simp at hlen
  unfold Expr.nodeOk Expr.operandCount
  rw [ho, ht, hlen, hrule, hop]

/-- An operator reads a node through its own fields and its operands' types. -/
theorem applyOp_congr {e' : Expr} (ho : e'.op = e.op) (ht : e'.type = e.type)
  (hi : e'.immediate = e.immediate)
  (hops : e'.operands.map Expr.type = e.operands.map Expr.type) (args : List U128) :
  applyOp env e' args = applyOp env e args := by
  have hbits : ∀ k, e'.operandBits k = e.operandBits k := by
    intro k
    have hget : ∀ xs : List Expr, (xs.getD k (Expr.undefined Ty.voidType)).bits =
        ((xs.map Expr.type).getD k Ty.voidType).bits := by
      intro xs
      simp only [List.getD_eq_getElem?_getD, List.getElem?_map]
      cases xs[k]? <;> rfl
    rw [Expr.operandBits, Expr.operandBits, hget, hget, hops]
  unfold applyOp
  simp only [ho, ht, hi, Expr.bits, hbits]

section Operands

variable {xs ys : List Expr}

theorem map_type_of_preserves (h : List.Forall₂ (Preserves ctx env) xs ys) :
  ys.map Expr.type = xs.map Expr.type := by
  induction h with
  | nil => rfl
  | cons h _ ih => simp [h.type, ih]

theorem levels_le_of_preserves (h : List.Forall₂ (Preserves ctx env) xs ys) (m : Bool) :
  levels (ys.map fun x => need x m) ≤ levels (xs.map fun x => need x m) := by
  induction h with
  | nil => exact Nat.le_refl _
  | cons h _ ih =>
    have := h.need_le m
    simp only [List.map_cons, levels, List.foldr_cons] at ih ⊢
    omega

theorem forall₂_den_of_preserves {args : List U128}
  (h : List.Forall₂ (Preserves ctx env) xs ys)
  (hargs : List.Forall₂ (fun x u => den env x = some u) xs args) :
  List.Forall₂ (fun x u => den env x = some u) ys args := by
  induction h generalizing args with
  | nil => exact hargs
  | cons h _ ih =>
    obtain ⟨u, us, hu, hus, rfl⟩ := List.forall₂_cons_left_iff.mp hargs
    exact .cons (h.den_eq hu) (ih hus)

end Operands

/-- **Congruence.**  Replacing the operands of a node preserves the node. -/
theorem Preserves.node {e' : Expr} (hwt : e.wellTyped ctx = true) (ho : e'.op = e.op)
  (ht : e'.type = e.type) (hi : e'.immediate = e.immediate)
  (hops : List.Forall₂ (Preserves ctx env) e.operands e'.operands) :
  Preserves ctx env e e' := by
  have htypes := map_type_of_preserves hops
  refine ⟨?_, ht, ?_, ?_⟩
  · refine Expr.wellTyped_iff.mpr ⟨?_, ?_⟩
    · rw [nodeOk_congr ho ht hi htypes]
      exact Expr.nodeOk_of_wellTyped hwt
    · intro x hx
      obtain ⟨y, hy⟩ := exists_of_forall₂ hops.flip hx
      exact hy.wellTyped
  · intro m
    rw [need_eq, need_eq]
    cases m with
    | false =>
      simp only [needEnter, List.map_map, ho]
      exact levels_le_of_preserves hops _
    | true =>
      simp only [needEnter, List.map_map, ho]
      split
      · exact levels_le_of_preserves hops _
      · exact Nat.succ_le_succ (levels_le_of_preserves hops _)
  · intro v hv
    obtain ⟨hwide, args, hargs, happ⟩ := den_some_iff.mp hv
    refine den_some_iff.mpr ⟨?_, args, forall₂_den_of_preserves hops hargs, ?_⟩
    · rw [Expr.bits, ht]
      exact hwide
    · rw [ho, applyOp_congr ho ht hi htypes]
      exact happ

end Xdec

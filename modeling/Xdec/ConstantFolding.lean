import Xdec.BottomUp
import Xdec.Ceval

/-!
# Folding constants

`foldConstants` asks the evaluator about every node it rebuilds and puts a
constant in the place of the answer.  Three things can go wrong at a node the
evaluator covers.  Its type may be a vector, which `Function::constant` refuses
by an assertion.  The evaluator may answer where the interpreter does not, or
answer something else.  And an answer of more than 64 bits is not written as a
constant: the tree stays, and a node above it reads what the evaluator carried,
which after a narrowing bitcast has bits the interpreter cuts off.

Everywhere else the fold keeps the type and the value of every part of an
expression (`foldConstants_keeps`).
-/

namespace Xdec

/-! ## The walk -/

/-- `Function::constant`; `none` where its assertion fails. -/
def assertedConstant (type : Ty) (value : U64) : Option Expr :=
  if (type.isInteger = true ∧ type.bits ≤ 128) ∨ type.isFloat = true then
    some (Expr.constant type value)
  else none

/-- Leaves never change, and a flags-typed result has no constant.  An answer
wider than a constant can spell leaves the tree. -/
def foldConstantNode (e rebuilt : Expr) : Option Expr :=
  if e.operands = [] then some e
  else if rebuilt.type.isFlags then some rebuilt
  else
    match tryEvalConst rebuilt with
    | some value =>
      if value.hi = 0#64 then assertedConstant rebuilt.type value.lo else some rebuilt
    | none => some rebuilt

def foldConstants (e : Expr) : Option Expr := Expr.foldFrom foldConstantNode e

/-! ## Where the fold fails -/

/-- The walk asks about the node, and the evaluator covers it. -/
structure FoldAsked (s : Expr) : Prop where
  inner : s.operands ≠ []
  notFlags : s.type.isFlags = false
  foldable : foldable s = true

/-- The remainder of a value that is not zero by zero. -/
def RemainderByZero (env : Env) (s : Expr) : Prop :=
  (s.op = .remU ∨ s.op = .remS) ∧ ∃ args,
    List.Forall₂ (fun x u => den env x = some u) s.operands args ∧
      (args.getD 1 U128.zero).toNat = 0 ∧ (args.getD 0 U128.zero).toNat ≠ 0

/-- A bitcast to fewer bits than its operand has, of more than 64. -/
def CutsWideValue (env : Env) (s : Expr) : Prop :=
  s.op = .bitcast ∧ ∃ args,
    List.Forall₂ (fun x u => den env x = some u) s.operands args ∧
      2 ^ s.bits ≤ (args.getD 0 U128.zero).toNat ∧ 2 ^ 64 ≤ (args.getD 0 U128.zero).toNat

/-- A vector whose lanes fit one word: the constant the walk asks for is refused. -/
def VectorOfWord (env : Env) (s : Expr) : Prop :=
  s.type.isVector = true ∧ ∃ v, den env s = some v ∧ v.toNat < 2 ^ 64

/-- The interpreter has no value for the node: a high multiply of a width other
than 64, a division of more than 64 bits, or a constant of more than 128 bits
below. -/
def Unsupported (env : Env) (s : Expr) : Prop := den env s = none

def FoldFails (env : Env) (s : Expr) : Prop :=
  FoldAsked s ∧
    (VectorOfWord env s ∨ Unsupported env s ∨ RemainderByZero env s ∨ CutsWideValue env s)

/-- A part that folds to an expression of its type and its value. -/
def ConstantsKeep (env : Env) (s : Expr) : Prop :=
  ∃ r, foldConstants s = some r ∧ r.type = s.type ∧ den env r = den env s

/-! ## One node -/

section Node

variable {ctx : Ctx} {env : Env} {e r s y : Expr} {args : List U128} {c v : U128}

/-- A valid type of some width that is no flags bundle is a number's or a vector's. -/
theorem isVector_of_refused {t : Ty} {k : U64} (hflags : t.isFlags = false)
  (hvalid : t.valid = true) (hpos : t.bits ≠ 0) (hw : t.bits ≤ 128)
  (h : assertedConstant t k = none) : t.isVector = true := by
  obtain ⟨kind, elementBits, lanes⟩ := t
  cases kind <;>
    simp_all [assertedConstant, Ty.isInteger, Ty.isFloat, Ty.isVector, Ty.isFlags, Ty.valid,
      Ty.bits]

theorem nodeVerified_congr {e' : Expr} (ho : e'.op = e.op) (ht : e'.type = e.type)
  (hi : e'.immediate = e.immediate)
  (hops : e'.operands.map Expr.type = e.operands.map Expr.type) :
  e'.nodeVerified ctx = e.nodeVerified ctx := by
  have hnode : e'.nodeOk ctx = e.nodeOk ctx := nodeOk_congr ho ht hi hops
  have hsplit : ∀ x : Expr, x.nodeOk ctx =
      (x.nodeVerified ctx && (!x.op.yieldsFloat || x.type.isFloat)) := fun _ => rfl
  rw [hsplit, hsplit, ho, ht] at hnode
  by_cases hfloat : (!e.op.yieldsFloat || e.type.isFloat) = true
  · simpa only [hfloat, Bool.and_true] using hnode
  · -- A float operator has no rule of its own but the result rule.
    have hyields : e.op.yieldsFloat = true := by
      by_contra hnot
      simp [hnot] at hfloat
    have hlen : e'.operands.length = e.operands.length := by
      simpa using congrArg List.length hops
    have hall : ∀ xs : List Expr, xs.all (fun x => x.type == e.type) =
        (xs.map Expr.type).all (fun u => u == e.type) := by
      intro xs
      rw [List.all_map]
      rfl
    unfold Expr.nodeVerified Expr.resultRuleOk Expr.opRuleOk Expr.operandCount
    rw [ho, ht, hlen, hall, hall, hops]
    revert hyields
    cases e.op <;> simp [ExprOp.yieldsFloat, ExprOp.info]

theorem yieldsFloat_of_foldableOp (h : foldableOp e = true) : e.op.yieldsFloat = false := by
  by_contra hf
  revert h hf
  unfold foldableOp
  split
  · intro h
    rw [beq_iff_eq.mp h]
    decide
  · split
    · simp
    · cases e.op <;> simp [ExprOp.yieldsFloat]

theorem nodeOk_of_verified (hver : e.nodeVerified ctx = true) (hf : e.op.yieldsFloat = false) :
  e.nodeOk ctx = true := by
  change (e.nodeVerified ctx && (!e.op.yieldsFloat || e.type.isFloat)) = true
  rw [hver, hf]
  rfl

theorem wellTyped_of_foldable (hver : e.verified ctx = true) (hfold : foldable e = true) :
  e.wellTyped ctx = true := by
  induction e with
  | leaf o t i =>
    rw [foldable, beq_iff_eq] at hfold
    subst hfold
    exact Expr.wellTyped_iff.mpr
      ⟨nodeOk_of_verified (Expr.verified_iff.mp hver).1 rfl, by rintro x ⟨⟩⟩
  | unary o t i a iha =>
    simp only [foldable, Bool.and_eq_true] at hfold
    obtain ⟨hnode, hops⟩ := Expr.verified_iff.mp hver
    simp only [Expr.operands_unary, List.forall_mem_singleton] at hops
    exact Expr.wellTyped_iff.mpr
      ⟨nodeOk_of_verified hnode (yieldsFloat_of_foldableOp hfold.1), by
        simpa using iha hops hfold.2⟩
  | binary o t i a b iha ihb =>
    simp only [foldable, Bool.and_eq_true] at hfold
    obtain ⟨hnode, hops⟩ := Expr.verified_iff.mp hver
    simp only [Expr.operands_binary, List.forall_mem_cons] at hops
    exact Expr.wellTyped_iff.mpr
      ⟨nodeOk_of_verified hnode (yieldsFloat_of_foldableOp hfold.1.1), by
        simpa using ⟨iha hops.1 hfold.1.2, ihb hops.2.1 hfold.2⟩⟩
  | ternary o t i a b c iha ihb ihc =>
    simp only [foldable, Bool.and_eq_true] at hfold
    obtain ⟨hnode, hops⟩ := Expr.verified_iff.mp hver
    simp only [Expr.operands_ternary, List.forall_mem_cons] at hops
    exact Expr.wellTyped_iff.mpr
      ⟨nodeOk_of_verified hnode (yieldsFloat_of_foldableOp hfold.1.1.1), by
        simpa using ⟨iha hops.1 hfold.1.1.2, ihb hops.2.1 hfold.1.2, ihc hops.2.2.1 hfold.2⟩⟩

theorem foldable_of_evalRec {d : Nat} (hver : e.verified ctx = true)
  (h : evalRec e d = some c) : foldable e = true := by
  induction e using Expr.operandInduction generalizing d c with
  | step e ih =>
    obtain ⟨-, ⟨hop, -⟩ | ⟨hop, hne, args, hargs, hfold⟩⟩ := evalRec_some_iff.mp h
    · have hok := nodeOk_of_verified (Expr.verified_iff.mp hver).1 (by rw [hop]; rfl)
      exact (foldable_iff hok).mpr (.inl hop)
    · have hcovered : foldableOp e = true := by
        rw [← foldOp_isSome e args, hfold]
        rfl
      have hok := nodeOk_of_verified (Expr.verified_iff.mp hver).1
        (yieldsFloat_of_foldableOp hcovered)
      refine (foldable_iff hok).mpr (.inr ⟨hne, hcovered, fun x hx => ?_⟩)
      obtain ⟨u, hu⟩ := exists_of_forall₂ hargs hx
      exact ih x hx ((Expr.verified_iff.mp hver).2 x hx) hu

theorem wellTyped_of_evalRec {d : Nat} (hver : e.verified ctx = true)
  (h : evalRec e d = some c) : e.wellTyped ctx = true :=
  wellTyped_of_foldable hver (foldable_of_evalRec hver h)

theorem constant_wellTyped {t : Ty} (hvalid : t.valid = true) (k : U64) :
  (Expr.constant t k).wellTyped ctx = true := by
  unfold Expr.constant
  by_cases h : t.bits ≥ 64
  · simp [Expr.wellTyped, Expr.nodeOk, Expr.operandCount, ExprOp.info, Expr.resultRuleOk,
      Expr.opRuleOk, ExprOp.yieldsFloat, hvalid, Expr.bits, Nat.not_lt.mpr h]
  · have hidem : zeroExtend (zeroExtend k t.bits) t.bits = zeroExtend k t.bits := by
      apply zeroExtend_of_le
      rw [zeroExtend_toNat]
      exact Nat.mod_lt _ (Nat.two_pow_pos _)
    simp [Expr.wellTyped, Expr.nodeOk, Expr.operandCount, ExprOp.info, Expr.resultRuleOk,
      Expr.opRuleOk, ExprOp.yieldsFloat, hvalid, Expr.bits, h, hidem]

theorem mask_constant (t : Ty) {c : U128} (hc : c.hi = 0#64) :
  U128.mask (word (Expr.constant t c.lo).immediate) t.bits = U128.mask c t.bits := by
  have hlo : c.toNat = c.lo.toNat := by
    unfold U128.toNat
    rw [hc]
    rfl
  apply U128.eq_of_toNat_eq
  rw [U128.mask_toNat, U128.mask_toNat, word_toNat, hlo]
  unfold Expr.constant
  split
  · rfl
  · rw [Expr.immediate_leaf, zeroExtend_toNat, Nat.mod_mod]

theorem forall₂_den_unique {args' : List U128}
  (h : List.Forall₂ (fun x u => den env x = some u) s.operands args)
  (h' : List.Forall₂ (fun x u => den env x = some u) s.operands args') : args = args' :=
  List.right_unique_forall₂' (fun _ _ _ h h' => Option.some.inj (h.symm.trans h')) h h'

theorem hi_eq_zero_iff : c.toNat < 2 ^ 64 ↔ c.hi = 0#64 := by
  have hlo := c.lo.isLt
  unfold U128.toNat
  constructor
  · intro h
    apply BitVec.eq_of_toNat_eq
    simp only [BitVec.toNat_ofNat, Nat.zero_mod]
    omega
  · intro h
    rw [h]
    simp only [BitVec.toNat_ofNat, Nat.zero_mod]
    omega

theorem carried_bitcast (hop : s.op = .bitcast) (h : foldOp s args = some c) :
  args.getD 0 U128.zero = c := by
  unfold foldOp at h
  simp only [hop] at h
  split at h
  · cases h
  · split at h
    · cases h
    · exact Option.some.inj h

/-- The evaluator's switch gives what the interpreter's gives, where that gives
something, no remainder by zero is asked, and no bits are cut. -/
theorem applyOp_of_asked (hwt : s.wellTyped ctx = true)
  (hden : List.Forall₂ (fun x u => den env x = some u) s.operands args) (hfit : ArgsFit s args)
  (hfold : foldOp s args = some c) (hv : den env s = some v)
  (hrem : ¬ RemainderByZero env s)
  (hcut : s.op = .bitcast → ¬ 2 ^ s.bits ≤ (args.getD 0 U128.zero).toNat) :
  applyOp env s (args.map (readArg s.op)) = .ok c := by
  refine applyOp_of_foldOp env hwt hden.length_eq.symm hfit hfold ?_
  intro hdiv
  obtain ⟨-, args', hargs', happ⟩ := den_some_iff.mp hv
  obtain rfl := forall₂_den_unique hden hargs'
  unfold DivergesAt at hdiv
  cases hop : s.op <;> simp only [hop] at hdiv <;> simp only [applyOp, hop] at happ
  case mulHiU | mulHiS =>
    rw [if_pos hdiv] at happ
    cases happ
  case divU | divS =>
    rw [if_pos hdiv] at happ
    cases happ
  case remU | remS =>
    rcases hdiv with hwide | hzero
    · rw [if_pos hwide] at happ
      cases happ
    · exact hrem ⟨by simp [hop], args, hden, hzero⟩
  case bitcast => exact hcut hop hdiv

end Node

/-! ## What the walk leaves -/

/-- What stands in the place of `x`: its type and its value in no larger a tree,
covered by the evaluator exactly where `x` is, and what the evaluator carries for
it is its value. -/
structure Residual (ctx : Ctx) (env : Env) (x y : Expr) : Prop where
  verified : y.verified ctx = true
  type : y.type = x.type
  den_eq : den env y = den env x
  foldable : foldable y = foldable x
  height : y.height ≤ x.height
  carried : ∀ {d c v}, evalRec y d = some c → den env y = some v →
    den env y = some c ∧ c.toNat < 2 ^ y.type.valueBits

section Residual

variable {ctx : Ctx} {env : Env} {e r y : Expr} {ys : List Expr} {args : List U128} {c v : U128}
  {d : Nat}

theorem carried_const (hwt : y.wellTyped ctx = true) (hop : y.op = .const)
  (h : evalRec y d = some c) (hv : den env y = some v) :
  den env y = some c ∧ c.toNat < 2 ^ y.type.valueBits := by
  have hwide : ¬ y.bits > 128 := by
    intro hw
    refine (den_some_iff.mp hv).1 ⟨hw, ?_⟩
    by_contra hf
    have hvalid := valid_of_wellTyped hwt
    simp only [Bool.not_eq_false, Ty.isFlags, beq_iff_eq] at hf
    simp only [Ty.valid, hf, Bool.and_eq_true, beq_iff_eq] at hvalid
    simp [Expr.bits, Ty.bits, hvalid.1] at hw
  obtain ⟨-, ⟨-, rfl⟩ | ⟨hne, -⟩⟩ := evalRec_some_iff.mp h
  · exact const_refines hwt hop hwide
  · exact absurd hop hne

theorem Residual.leaf (hver : e.verified ctx = true) (hnil : e.operands = []) :
  Residual ctx env e e := by
  refine ⟨hver, rfl, rfl, rfl, Nat.le_refl _, ?_⟩
  intro d c v h hv
  obtain ⟨-, ⟨hop, -⟩ | ⟨-, hne, -⟩⟩ := evalRec_some_iff.mp h
  · exact carried_const (wellTyped_of_evalRec hver h) hop h hv
  · exact absurd hnil hne

/-- The node over what stands for its operands. -/
structure Rebuilt (ctx : Ctx) (env : Env) (e t : Expr) : Prop where
  op : t.op = e.op
  type : t.type = e.type
  verified : t.verified ctx = true
  den_eq : den env t = den env e
  foldable : foldable t = foldable e
  height : t.height ≤ e.height
  operands : List.Forall₂ (Residual ctx env) e.operands t.operands

variable {t : Expr}

/-- What the evaluator covers depends on a node through the types below it. -/
theorem foldableOp_congr (ho : t.op = e.op) (ht : t.type = e.type)
  (htypes : t.operands.map Expr.type = e.operands.map Expr.type) :
  foldableOp t = foldableOp e := by
  have hbits : ∀ k, t.operandBits k = e.operandBits k := by
    intro k
    have hget : ∀ xs : List Expr, (xs.getD k (Expr.undefined Ty.voidType)).bits =
        ((xs.map Expr.type).getD k Ty.voidType).bits := by
      intro xs
      simp only [List.getD_eq_getElem?_getD, List.getElem?_map]
      cases xs[k]? <;> rfl
    rw [Expr.operandBits, Expr.operandBits, hget, hget, htypes]
  unfold foldableOp
  simp only [ho, ht, Expr.bits, hbits]

theorem foldable_withOperands
  (hops : List.Forall₂ (fun x y => y.type = x.type ∧ foldable y = foldable x) e.operands ys) :
  foldable (e.withOperands ys) = foldable e := by
  obtain ⟨ho, ht, -, hys⟩ := Expr.withOperands_spec hops.length_eq.symm
  have hop : foldableOp (e.withOperands ys) = foldableOp e := by
    refine foldableOp_congr ho ht ?_
    rw [hys]
    exact Expr.map_eq_of_forall₂ hops fun _ _ h => h.1
  cases e with
  | leaf o t i =>
    cases hops
    rfl
  | unary o t i a =>
    obtain ⟨a', as, ha, has, rfl⟩ := List.forall₂_cons_left_iff.mp hops
    cases has
    simp only [Expr.withOperands, foldable] at hop ⊢
    rw [hop, ha.2]
  | binary o t i a b =>
    obtain ⟨a', as, ha, has, rfl⟩ := List.forall₂_cons_left_iff.mp hops
    obtain ⟨b', bs, hb, hbs, rfl⟩ := List.forall₂_cons_left_iff.mp has
    cases hbs
    simp only [Expr.withOperands, foldable] at hop ⊢
    rw [hop, ha.2, hb.2]
  | ternary o t i a b c =>
    obtain ⟨a', as, ha, has, rfl⟩ := List.forall₂_cons_left_iff.mp hops
    obtain ⟨b', bs, hb, hbs, rfl⟩ := List.forall₂_cons_left_iff.mp has
    obtain ⟨c', cs, hc, hcs, rfl⟩ := List.forall₂_cons_left_iff.mp hbs
    cases hcs
    simp only [Expr.withOperands, foldable] at hop ⊢
    rw [hop, ha.2, hb.2, hc.2]

theorem rebuilt_of_residuals (hver : e.verified ctx = true)
  (hops : List.Forall₂ (Residual ctx env) e.operands ys) :
  Rebuilt ctx env e (e.withOperands ys) := by
  obtain ⟨ho, ht, hi, hys⟩ := Expr.withOperands_spec hops.length_eq.symm
  have hmapped := Expr.map_eq_of_forall₂ hops fun _ _ h => h.type
  have hdens := Expr.map_eq_of_forall₂ hops fun _ _ h => h.den_eq
  have htypes : (e.withOperands ys).operands.map Expr.type = e.operands.map Expr.type := by
    rw [hys]
    exact hmapped
  refine ⟨ho, ht, Expr.verified_iff.mpr ⟨?_, ?_⟩, ?_, ?_, ?_, ?_⟩
  · rw [nodeVerified_congr ho ht hi htypes]
    exact (Expr.verified_iff.mp hver).1
  · intro y hy
    rw [hys] at hy
    obtain ⟨x, -, hxy⟩ := Expr.mem_left_of_forall₂ hops.flip hy
    exact hxy.verified
  · rw [den_eq, den_eq env e, hys, hdens]
    unfold denNode
    rw [Expr.bits, ht, ho]
    simp only [applyOp_congr ho ht hi htypes]
  · exact foldable_withOperands (hops.imp fun _ _ h => ⟨h.type, h.foldable⟩)
  · refine height_le_of_operands fun y hy => ?_
    rw [hys] at hy
    obtain ⟨x, hx, hxy⟩ := Expr.mem_left_of_forall₂ hops.flip hy
    have hle := hxy.height
    have hlt := Expr.height_lt_of_mem hx
    omega
  · rw [hys]
    exact hops

theorem Rebuilt.wellTyped (h : Rebuilt ctx env e t) (heval : evalRec t d = some c) :
  t.wellTyped ctx = true :=
  wellTyped_of_evalRec h.verified heval

/-- What the evaluator carries for the operands of a node is their values. -/
theorem Rebuilt.argsFit (h : Rebuilt ctx env e t)
  (hargs : List.Forall₂ (fun x u => evalRec x d = some u) t.operands args)
  (hv : den env t = some v) :
  List.Forall₂ (fun x u => den env x = some u) t.operands args ∧ ArgsFit t args := by
  refine args_of_operands env hargs ?_
  intro y hy u hu
  obtain ⟨x, -, hxy⟩ := Expr.mem_left_of_forall₂ h.operands.flip hy
  obtain ⟨-, us, hus, -⟩ := den_some_iff.mp hv
  obtain ⟨w, hw⟩ := exists_of_forall₂ hus hy
  exact hxy.carried hu hw

/-- The conditions of a node are those of the node it was built from. -/
theorem Rebuilt.values (h : Rebuilt ctx env e t)
  (hargs : List.Forall₂ (fun x u => den env x = some u) t.operands args) :
  List.Forall₂ (fun x u => den env x = some u) e.operands args := by
  have hall := h.operands
  revert hargs hall
  generalize e.operands = xs
  generalize t.operands = ys
  intro hargs hall
  induction hall generalizing args with
  | nil => exact hargs
  | cons hxy _ ih =>
    obtain ⟨u, us, hu, hus, rfl⟩ := List.forall₂_cons_left_iff.mp hargs
    exact .cons (hxy.den_eq ▸ hu) (ih hus)

/-- **One node.**  What the evaluator carries for a rebuilt node is its value,
unless it takes a remainder by zero or cuts a value. -/
theorem Rebuilt.carried (h : Rebuilt ctx env e t) (hne : t.operands ≠ [])
  (hrem : ¬ RemainderByZero env e)
  (hcut : t.op = .bitcast → ¬ 2 ^ t.bits ≤ c.toNat)
  (heval : evalRec t d = some c) (hv : den env t = some v) :
  den env t = some c ∧ c.toNat < 2 ^ t.type.valueBits := by
  obtain ⟨-, ⟨hop, -⟩ | ⟨-, -, args, hargs, hfold⟩⟩ := evalRec_some_iff.mp heval
  · exact absurd (operands_of_const (Expr.nodeOk_of_wellTyped (h.wellTyped heval)) hop) hne
  · obtain ⟨hden, hfit⟩ := h.argsFit hargs hv
    have hrem' : ¬ RemainderByZero env t := by
      rintro ⟨hop, args', hargs', hzero⟩
      exact hrem ⟨h.op ▸ hop, args', h.values hargs', hzero⟩
    have hcut' : t.op = .bitcast → ¬ 2 ^ t.bits ≤ (args.getD 0 U128.zero).toNat := by
      intro hop
      have hc := hcut hop
      rwa [← carried_bitcast hop hfold] at hc
    have happ := applyOp_of_asked (h.wellTyped heval) hden hfit hfold hv hrem' hcut'
    refine ⟨den_some_iff.mpr ⟨(den_some_iff.mp hv).1, args, hden, happ⟩, ?_⟩
    exact foldOp_lt (h.wellTyped heval) hne hden.length_eq.symm hfit hfold happ

/-- A tree that stays stands for its node. -/
theorem Rebuilt.residual (h : Rebuilt ctx env e t) (hne : t.operands ≠ [])
  (hgood : ∀ {d c v}, evalRec t d = some c → den env t = some v →
    ¬ RemainderByZero env e ∧ (t.op = .bitcast → ¬ 2 ^ t.bits ≤ c.toNat)) :
  Residual ctx env e t :=
  ⟨h.verified, h.type, h.den_eq, h.foldable, h.height, fun heval hv =>
    h.carried hne (hgood heval hv).1 (hgood heval hv).2 heval hv⟩

/-- The evaluator covers no bundle but a definition. -/
theorem op_of_flags (hflags : t.type.isFlags = true) (hne : t.operands ≠ [])
  (hwt : t.wellTyped ctx = true) (heval : evalRec t d = some c) : t.op = .flagDef := by
  obtain ⟨-, ⟨hop, -⟩ | ⟨-, -, args, -, hfold⟩⟩ := evalRec_some_iff.mp heval
  · exact absurd (operands_of_const (Expr.nodeOk_of_wellTyped hwt) hop) hne
  · by_contra hop
    simp [foldOp, hflags, hop] at hfold

/-- The evaluator covers no node without a width, and none above 128 bits. -/
theorem width_of_answer (hflags : t.type.isFlags = false) (hne : t.operands ≠ [])
  (hwt : t.wellTyped ctx = true) (heval : evalRec t d = some c) :
  t.type.bits ≠ 0 ∧ t.type.bits ≤ 128 := by
  obtain ⟨-, ⟨hop, -⟩ | ⟨-, -, args, -, hfold⟩⟩ := evalRec_some_iff.mp heval
  · exact absurd (operands_of_const (Expr.nodeOk_of_wellTyped hwt) hop) hne
  · by_contra hwidth
    have hor : t.bits = 0 ∨ t.bits > 128 := by
      rw [not_and_or, not_not, Nat.not_le] at hwidth
      exact hwidth
    simp [foldOp, hflags, hor] at hfold

/-- The answer at one depth is the answer at the top. -/
theorem tryEvalConst_of_evalRec (hwt : t.wellTyped ctx = true)
  (heval : evalRec t d = some c) : tryEvalConst t = some c :=
  evalRec_of_height hwt heval (by have := height_of_evalRec hwt heval; omega)

/-- A constant of the node's type and value stands for the node. -/
theorem residual_constant {t : Ty} (ht : t = e.type) (hvalid : t.valid = true)
  (hfold : foldable e = true) (hc : c.hi = 0#64) (hv : den env e = some (U128.mask c t.bits))
  (hwide : ¬ t.bits > 128) : Residual ctx env e (Expr.constant t c.lo) := by
  have hwt : (Expr.constant t c.lo).wellTyped ctx = true := constant_wellTyped hvalid _
  have hop : (Expr.constant t c.lo).op = .const := rfl
  have hden : den env (Expr.constant t c.lo) = some (U128.mask c t.bits) := by
    rw [← mask_constant t hc]
    exact (const_refines hwt hop hwide).1
  have hver := Expr.verified_iff.mpr
    ⟨Expr.nodeVerified_of_nodeOk (Expr.nodeOk_of_wellTyped hwt), by rintro x ⟨⟩⟩
  exact ⟨hver, ht, hden.trans hv.symm, hfold.symm, Nat.zero_le _,
    fun h hd => carried_const hwt hop h hd⟩

theorem Rebuilt.answer (h : Rebuilt ctx env e t) (hne : t.operands ≠ [])
  (hflags : t.type.isFlags = false) (hrem : ¬ RemainderByZero env e)
  (heval : evalRec t d = some c) (hv : den env t = some v) :
  den env t = some (U128.mask c t.bits) := by
  by_cases hcut : t.op = .bitcast ∧ 2 ^ t.bits ≤ c.toNat
  · obtain ⟨hop, -⟩ := hcut
    obtain ⟨-, ⟨hconst, -⟩ | ⟨-, -, args, hargs, hfold⟩⟩ := evalRec_some_iff.mp heval
    · rw [hop] at hconst
      cases hconst
    · obtain ⟨hden, -⟩ := h.argsFit hargs hv
      have hread : args.map (readArg t.op) = args :=
        List.map_id'' (fun u => by simp [readArg, hop, ExprOp.readsFlags]) args
      refine den_some_iff.mpr ⟨(den_some_iff.mp hv).1, args, hden, ?_⟩
      rw [hread, ← carried_bitcast hop hfold]
      simp [applyOp, hop]
  · obtain ⟨hden, hlt⟩ := h.carried hne hrem (fun hop hle => hcut ⟨hop, hle⟩) heval hv
    rw [Ty.valueBits, if_neg (by simp [hflags])] at hlt
    rw [U128.mask_of_lt hlt]
    exact hden

theorem Rebuilt.cut_word (h : Rebuilt ctx env e t) (hcuts : ¬ CutsWideValue env e)
  (hop : t.op = .bitcast) (heval : evalRec t d = some c) (hv : den env t = some v)
  (hle : 2 ^ t.bits ≤ c.toNat) : c.hi = 0#64 := by
  obtain ⟨-, ⟨hconst, -⟩ | ⟨-, -, args, hargs, hfold⟩⟩ := evalRec_some_iff.mp heval
  · rw [hop] at hconst
    cases hconst
  · obtain ⟨hden, -⟩ := h.argsFit hargs hv
    by_contra hhi
    rw [← hi_eq_zero_iff, Nat.not_lt] at hhi
    refine hcuts ⟨h.op ▸ hop, args, h.values hden, ?_, ?_⟩
    · rw [carried_bitcast hop hfold, Expr.bits, ← h.type]
      exact hle
    · rw [carried_bitcast hop hfold]
      exact hhi

theorem assertedConstant_cases (t : Ty) (k : U64) :
  assertedConstant t k = some (Expr.constant t k) ∨ assertedConstant t k = none := by
  unfold assertedConstant
  split
  · exact .inl rfl
  · exact .inr rfl

theorem toNat_mask_lt {w : Nat} (hhi : c.hi = 0#64) : (U128.mask c w).toNat < 2 ^ 64 := by
  rw [U128.mask_toNat]
  exact (Nat.mod_le _ _).trans_lt (hi_eq_zero_iff.mpr hhi)

/-- An answer of one word is written as a constant, unless the node is a vector. -/
theorem Rebuilt.spelled (h : Rebuilt ctx env e t) (hne : t.operands ≠ [])
  (hflags : t.type.isFlags = false) (heval : evalRec t d = some c) (hhi : c.hi = 0#64)
  (hden : den env t = some (U128.mask c t.bits)) (hvector : ¬ VectorOfWord env e) :
  assertedConstant t.type c.lo = some (Expr.constant t.type c.lo) := by
  obtain ⟨hpos, hwide⟩ := width_of_answer hflags hne (h.wellTyped heval) heval
  rcases assertedConstant_cases t.type c.lo with hsome | hnone
  · exact hsome
  · have hvec := isVector_of_refused hflags (valid_of_wellTyped (h.wellTyped heval)) hpos hwide hnone
    exact absurd ⟨h.type ▸ hvec, _, h.den_eq ▸ hden, toNat_mask_lt hhi⟩ hvector

/-- **The walk.**  Where no part fails to fold, every node is answered, and the
answer stands for the node. -/
theorem foldTree_residual (hver : e.verified ctx = true)
  (hok : ∀ s, Expr.SubExpr s e → ¬ FoldFails env s) :
  ∃ r, Expr.foldTree foldConstantNode e = some r ∧ Residual ctx env e r := by
  induction e using Expr.operandInduction with
  | step e ih =>
    obtain ⟨ys, hys⟩ : ∃ ys, List.Forall₂ (fun x y =>
        Expr.foldTree foldConstantNode x = some y ∧ Residual ctx env x y) e.operands ys :=
      exists_forall₂ fun x hx => ih x hx ((Expr.verified_iff.mp hver).2 x hx)
        fun s hs => hok s (.step hx hs)
    have htree : ∀ {r}, foldConstantNode e (e.withOperands ys) = some r →
        Expr.foldTree foldConstantNode e = some r :=
      fun h => Expr.foldTree_some_iff.mpr ⟨ys, hys.imp fun _ _ h => h.1, h⟩
    have hbuilt := rebuilt_of_residuals hver (hys.imp fun _ _ h => h.2)
    by_cases hnil : e.operands = []
    · exact ⟨e, htree (if_pos hnil), .leaf hver hnil⟩
    · have hne : (e.withOperands ys).operands ≠ [] := by
        rw [(Expr.withOperands_spec hys.length_eq.symm).2.2.2]
        exact fun hys' => hnil (List.length_eq_zero_iff.mp (by rw [hys.length_eq, hys']; rfl))
      generalize e.withOperands ys = t at htree hbuilt hne
      by_cases hflags : t.type.isFlags = true
      · refine ⟨t, htree (by rw [foldConstantNode, if_neg hnil, if_pos hflags]), ?_⟩
        refine hbuilt.residual hne fun heval _ => ?_
        have hop := op_of_flags hflags hne (hbuilt.wellTyped heval) heval
        have hop' := hbuilt.op ▸ hop
        exact ⟨fun hrem => by simp [RemainderByZero, hop'] at hrem, fun hcast => by
          simp [hop] at hcast⟩
      · have hflags : t.type.isFlags = false := by simpa using hflags
        cases hanswer : tryEvalConst t with
        | none =>
          refine ⟨t, htree (by simp [foldConstantNode, hnil, hflags, hanswer]), ?_⟩
          refine hbuilt.residual hne fun heval _ => ?_
          have hsome := tryEvalConst_of_evalRec (hbuilt.wellTyped heval) heval
          simp [hanswer] at hsome
        | some c =>
          have hcovered := foldable_of_evalRec hbuilt.verified hanswer
          have hasked : FoldAsked e := ⟨hnil, hbuilt.type ▸ hflags, hbuilt.foldable ▸ hcovered⟩
          have hgood : ¬ (VectorOfWord env e ∨ Unsupported env e ∨ RemainderByZero env e ∨
              CutsWideValue env e) := fun hbad => hok e (.refl e) ⟨hasked, hbad⟩
          simp only [not_or] at hgood
          obtain ⟨hvector, hunsupported, hrem, hcuts⟩ := hgood
          obtain ⟨v, hv⟩ := Option.ne_none_iff_exists'.mp hunsupported
          have hvt : den env t = some v := hbuilt.den_eq.trans hv
          by_cases hhi : c.hi = 0#64
          · have hden := hbuilt.answer hne hflags hrem hanswer hvt
            have hspelled := hbuilt.spelled hne hflags hanswer hhi hden hvector
            have hwide := (width_of_answer hflags hne (hbuilt.wellTyped hanswer) hanswer).2
            refine ⟨Expr.constant t.type c.lo, htree ?_, ?_⟩
            · simp [foldConstantNode, hnil, hflags, hanswer, hhi, hspelled]
            · exact residual_constant hbuilt.type (valid_of_wellTyped (hbuilt.wellTyped hanswer))
                hasked.foldable hhi (hbuilt.den_eq ▸ hden) (Nat.not_lt.mpr hwide)
          · refine ⟨t, htree (by simp [foldConstantNode, hnil, hflags, hanswer, hhi]), ?_⟩
            refine hbuilt.residual hne fun heval hv => ⟨hrem, fun hop hle => hhi ?_⟩
            have hsame := tryEvalConst_of_evalRec (hbuilt.wellTyped heval) heval
            obtain rfl := Option.some.inj (hanswer.symm.trans hsame)
            exact hbuilt.cut_word hcuts hop heval hv hle

end Residual

/-! ## Where nothing else can happen -/

/-- The evaluator's depth suffices, each constant is one the interpreter reads,
and no bitcast cuts a value of more than 64 bits. -/
structure Ordinary (env : Env) (e : Expr) : Prop where
  height : e.height ≤ kMaxEvalDepth
  constants : ∀ s, Expr.SubExpr s e → s.op = .const → s.bits ≤ 128
  bitcasts : ∀ s, Expr.SubExpr s e → ¬ CutsWideValue env s

section Ordinary

variable {ctx : Ctx} {env : Env} {e r x t : Expr} {args : List U128} {c v : U128}

theorem Ordinary.sub (h : Ordinary env e) (hx : x ∈ e.operands) : Ordinary env x :=
  ⟨by have := Expr.height_lt_of_mem hx; have := h.height; omega,
    fun s hs => h.constants s (.step hx hs), fun s hs => h.bitcasts s (.step hx hs)⟩

/-- What the evaluator covers and folds has a value. -/
theorem den_of_foldable (hver : e.verified ctx = true) (hord : Ordinary env e)
  (hok : ∀ s, Expr.SubExpr s e → ¬ FoldFails env s) (hfold : foldable e = true) :
  ∃ v, den env e = some v := by
  induction e using Expr.operandInduction with
  | step e ih =>
    have hwt := wellTyped_of_foldable hver hfold
    rcases (foldable_iff (Expr.nodeOk_of_wellTyped hwt)).mp hfold with hop | ⟨hne, hop, hall⟩
    · have hw := hord.constants e (.refl e) hop
      exact ⟨_, (const_refines hwt hop (Nat.not_lt.mpr hw)).1⟩
    · by_cases hflags : e.type.isFlags = true
      · have hdef : e.op = .flagDef := by
          simpa [foldableOp, hflags] using hop
        obtain ⟨args, hargs⟩ : ∃ args,
            List.Forall₂ (fun x u => den env x = some u) e.operands args :=
          exists_forall₂ fun x hx => ih x hx ((Expr.verified_iff.mp hver).2 x hx) (hord.sub hx)
            (fun s hs => hok s (.step hx hs)) (hall x hx)
        exact ⟨_, den_some_iff.mpr ⟨fun h => by simp [hflags] at h, args, hargs, by
          rw [applyOp, hdef]⟩⟩
      · have hasked : FoldAsked e := ⟨hne, by simpa using hflags, hfold⟩
        have hsome : ¬ Unsupported env e :=
          fun hnone => hok e (.refl e) ⟨hasked, .inr (.inl hnone)⟩
        exact Option.ne_none_iff_exists'.mp hsome

/-- Where the evaluator answers and the interpreter's switch does not, the answer
fits one word. -/
theorem hi_of_unsupported (hflags : t.type.isFlags = false) (hfold : foldOp t args = some c)
  (happ : ∀ v, applyOp env t (args.map (readArg t.op)) ≠ .ok v) : c.hi = 0#64 := by
  have hword : ∀ (x : U64) w, (U128.mask (word x) w).hi = 0#64 := by
    intro x w
    rw [← hi_eq_zero_iff]
    exact toNat_mask_lt rfl
  unfold foldOp at hfold
  simp only [hflags, Bool.false_eq_true, if_false] at hfold
  split at hfold
  · cases hfold
  · cases hop : t.op <;> simp only [hop, reduceCtorEq, Option.some.injEq, if_false] at hfold <;>
      simp only [applyOp, hop, ne_eq, Except.ok.injEq, forall_eq'] at happ
    case mulHiU | mulHiS =>
      split at hfold
      · cases hfold
      · exact Option.some.inj hfold ▸ hword _ _
    case divU | remU =>
      rw [← hfold]
      split
      · rfl
      · exact hword _ _
    case divS | remS =>
      split at hfold
      · exact Option.some.inj hfold ▸ rfl
      · exact Option.some.inj hfold ▸ hword _ _

theorem remainder_by_zero (hop : t.op = .remU ∨ t.op = .remS)
  (hzero : (args.getD 1 U128.zero).toNat = 0) (hfold : foldOp t args = some c) :
  c = U128.zero := by
  have hlo : (args.getD 1 U128.zero).lo = 0#64 := by
    rw [U128.eq_of_toNat_eq (hzero.trans U128.toNat_zero.symm)]
    rfl
  unfold foldOp at hfold
  rcases hop with hop | hop <;> simp only [hop, hlo, if_true] at hfold <;> split at hfold
  · cases hfold
  · split at hfold
    · cases hfold
    · exact (Option.some.inj hfold).symm
  · cases hfold
  · split at hfold
    · cases hfold
    · exact (Option.some.inj hfold).symm

theorem assertedConstant_vector {ty : Ty} {k : U64} (h : ty.isVector = true) :
  assertedConstant ty k = none := by
  obtain ⟨kind, elementBits, lanes⟩ := ty
  cases kind <;> simp_all [assertedConstant, Ty.isInteger, Ty.isFloat, Ty.isVector]

/-- A node the walk is asked about, over what stands for its operands. -/
structure AskedNode (ctx : Ctx) (env : Env) (e t : Expr) (args : List U128) (c : U128) : Prop where
  built : Rebuilt ctx env e t
  inner : t.operands ≠ []
  notFlags : t.type.isFlags = false
  answer : tryEvalConst t = some c
  switch : foldOp t args = some c
  values : List.Forall₂ (fun x u => den env x = some u) t.operands args
  fits : ArgsFit t args

/-- The only failing part of an expression is asked about. -/
theorem askedNode_of_inner (hver : e.verified ctx = true) (hord : Ordinary env e)
  (hinner : ∀ x ∈ e.operands, ∀ s, Expr.SubExpr s x → ¬ FoldFails env s)
  (hasked : FoldAsked e) (hr : Expr.foldTree foldConstantNode e = some r) :
  ∃ t args c, AskedNode ctx env e t args c ∧ foldConstantNode e t = some r := by
  obtain ⟨ys, hys⟩ : ∃ ys, List.Forall₂ (fun x y =>
      Expr.foldTree foldConstantNode x = some y ∧ Residual ctx env x y) e.operands ys :=
    exists_forall₂ fun x hx => foldTree_residual ((Expr.verified_iff.mp hver).2 x hx) (hinner x hx)
  obtain ⟨ys', hys', hnode⟩ := Expr.foldTree_some_iff.mp hr
  obtain rfl : ys = ys' := List.right_unique_forall₂' (fun _ _ _ h h' =>
    Option.some.inj (h.symm.trans h')) (hys.imp fun _ _ h => h.1) hys'
  have hbuilt := rebuilt_of_residuals hver (hys.imp fun _ _ h => h.2)
  have hne : (e.withOperands ys).operands ≠ [] := by
    rw [(Expr.withOperands_spec hys.length_eq.symm).2.2.2]
    exact fun hnil => hasked.inner (List.length_eq_zero_iff.mp (by rw [hys.length_eq, hnil]; rfl))
  generalize e.withOperands ys = t at hnode hbuilt hne
  have hcovered := hbuilt.foldable.trans hasked.foldable
  have hwt := wellTyped_of_foldable hver hasked.foldable
  obtain ⟨c, hc⟩ := (tryEvalConst_isSome (wellTyped_of_foldable hbuilt.verified hcovered)).mpr
    ⟨hcovered, hbuilt.height.trans hord.height⟩
  obtain ⟨-, ⟨hop, -⟩ | ⟨-, -, args, hargs, hfold⟩⟩ := evalRec_some_iff.mp hc
  · exact absurd (operands_of_const (Expr.nodeOk_of_wellTyped (hbuilt.wellTyped hc)) hop) hne
  · have hcarried : ∀ y ∈ t.operands, ∀ u, evalRec y (0 + 1) = some u →
        den env y = some u ∧ u.toNat < 2 ^ y.type.valueBits := by
      intro y hy u hu
      obtain ⟨x, hx, hxy⟩ := Expr.mem_left_of_forall₂ hbuilt.operands.flip hy
      have hcovered : foldable x = true := by
        rcases (foldable_iff (Expr.nodeOk_of_wellTyped hwt)).mp hasked.foldable with hop | h
        · exact absurd (operands_of_const (Expr.nodeOk_of_wellTyped hwt) hop) hasked.inner
        · exact h.2.2 x hx
      obtain ⟨w, hw⟩ := den_of_foldable ((Expr.verified_iff.mp hver).2 x hx) (hord.sub hx)
        (hinner x hx) hcovered
      exact hxy.carried hu (hxy.den_eq.trans hw)
    obtain ⟨hvalues, hfits⟩ := args_of_operands env hargs hcarried
    exact ⟨t, args, c, ⟨hbuilt, hne, hbuilt.type ▸ hasked.notFlags, hc, hfold, hvalues, hfits⟩,
      hnode⟩

theorem AskedNode.constant (h : AskedNode ctx env e t args c) (hhi : c.hi = 0#64)
  (hnode : foldConstantNode e t = some r) :
  assertedConstant t.type c.lo = some r ∧ den env r = some (U128.mask c t.bits) := by
  have hne : e.operands ≠ [] := by
    intro hnil
    have hops := h.built.operands
    rw [hnil, List.forall₂_nil_left_iff] at hops
    exact h.inner hops
  have hasserted : assertedConstant t.type c.lo = some r := by
    simpa [foldConstantNode, hne, h.notFlags, h.answer, hhi] using hnode
  refine ⟨hasserted, ?_⟩
  obtain ⟨-, hwide⟩ := width_of_answer h.notFlags h.inner (h.built.wellTyped h.answer) h.answer
  rcases assertedConstant_cases t.type c.lo with hsome | hnone
  · obtain rfl := Option.some.inj (hasserted.symm.trans hsome)
    have hwt : (Expr.constant t.type c.lo).wellTyped ctx = true :=
      constant_wellTyped (valid_of_wellTyped (h.built.wellTyped h.answer)) _
    rw [← mask_constant t.type hhi]
    exact (const_refines hwt rfl (Nat.not_lt.mpr hwide)).1
  · simp [hnone] at hasserted

theorem not_constantsKeep_of_fails (hver : e.verified ctx = true) (hord : Ordinary env e)
  (hinner : ∀ x ∈ e.operands, ∀ s, Expr.SubExpr s x → ¬ FoldFails env s)
  (hfails : FoldFails env e) : ¬ ConstantsKeep env e := by
  rintro ⟨r, hr, -, hden⟩
  rw [foldConstants, Expr.foldFrom_eq] at hr
  obtain ⟨hasked, hcase⟩ := hfails
  obtain ⟨t, args, c, h, hnode⟩ := askedNode_of_inner hver hord hinner hasked hr
  have hdent := h.built.den_eq
  cases hv : den env t with
  | none =>
    have hhi : c.hi = 0#64 := by
      refine hi_of_unsupported h.notFlags h.switch fun v (happ : applyOp env _ _ = _) => ?_
      obtain ⟨-, hwide⟩ := width_of_answer h.notFlags h.inner (h.built.wellTyped h.answer) h.answer
      have hsome := den_some_iff.mpr ⟨fun hw => absurd hw.1 (Nat.not_lt.mpr hwide), args,
        h.values, happ⟩
      simp [hv] at hsome
    have hr := (h.constant hhi hnode).2
    rw [hden, ← hdent, hv] at hr
    cases hr
  | some v =>
    by_cases hrem : RemainderByZero env e
    · obtain ⟨hop, args', hargs', hzero, hne⟩ := hrem
      obtain rfl := forall₂_den_unique (h.built.values h.values) hargs'
      have hdiv : DivergesAt t args := by
        rw [DivergesAt, h.built.op]
        rcases hop with hop | hop <;> simp only [hop] <;> exact .inr ⟨hzero, hne⟩
      have happ : applyOp env t (args.map (readArg t.op)) ≠ .ok c :=
        applyOp_ne_of_divergesAt (Expr.nodeOk_of_wellTyped (h.built.wellTyped h.answer))
          h.values.length_eq.symm h.fits h.switch hdiv
      have hc := remainder_by_zero (h.built.op ▸ hop) hzero h.switch
      obtain ⟨-, hr⟩ := h.constant (by rw [hc]; rfl) hnode
      have hmask : U128.mask c t.bits = c := by
        rw [hc]
        exact U128.mask_of_lt (by rw [U128.toNat_zero]; exact Nat.two_pow_pos _)
      rw [hden, ← hdent, hmask] at hr
      obtain ⟨-, args', hargs', happ'⟩ := den_some_iff.mp hr
      obtain rfl := forall₂_den_unique h.values hargs'
      exact happ happ'
    · have hanswer := h.built.answer h.inner h.notFlags hrem h.answer hv
      rcases hcase with ⟨hvec, v', hv', hlt⟩ | hnone | hbad | hcuts
      · have hhi : c.hi = 0#64 := by
          by_cases hcut : t.op = .bitcast ∧ 2 ^ t.bits ≤ c.toNat
          · exact h.built.cut_word (hord.bitcasts e (.refl e)) hcut.1 h.answer hv hcut.2
          · obtain ⟨hc, -⟩ := h.built.carried h.inner hrem (fun hop hle => hcut ⟨hop, hle⟩)
              h.answer hv
            obtain rfl := Option.some.inj (hc.symm.trans (hdent.trans hv'))
            exact hi_eq_zero_iff.mp hlt
        have hsome := (h.constant hhi hnode).1
        rw [assertedConstant_vector (h.built.type ▸ hvec)] at hsome
        cases hsome
      · rw [Unsupported, ← hdent, hv] at hnone
        cases hnone
      · exact hrem hbad
      · exact hord.bitcasts e (.refl e) hcuts

/-- Where every part is kept, no part fails, from the leaves up. -/
theorem not_foldFails_of_keeps (hver : e.verified ctx = true) (hord : Ordinary env e)
  (h : ∀ s, Expr.SubExpr s e → ConstantsKeep env s) :
  ∀ s, Expr.SubExpr s e → ¬ FoldFails env s := by
  induction e using Expr.operandInduction with
  | step e ih =>
    have hinner : ∀ x ∈ e.operands, ∀ s, Expr.SubExpr s x → ¬ FoldFails env s :=
      fun x hx => ih x hx ((Expr.verified_iff.mp hver).2 x hx) (hord.sub hx)
        fun s hs => h s (.step hx hs)
    intro s hs
    cases hs with
    | refl =>
      exact fun hfails => not_constantsKeep_of_fails hver hord hinner hfails (h e (.refl e))
    | step hx hs => exact hinner _ hx s hs

end Ordinary

def byteSum : Expr :=
  .mkBinary .add (.constant (.integer 8) 3#64) (.constant (.integer 8) 5#64)

/-- Two lanes written as one word. -/
def lanesOfWord : Expr := .cast .bitcast (.intVector 32 2) (.constant (.integer 64) 5#64)

theorem subExpr_byteSum {s : Expr} (hs : Expr.SubExpr s byteSum) :
  s = byteSum ∨ s = .constant (.integer 8) 3#64 ∨ s = .constant (.integer 8) 5#64 := by
  cases hs with
  | refl => exact .inl rfl
  | step hx hs =>
    rcases List.mem_pair.mp hx with rfl | rfl <;> cases hs with
    | refl => simp
    | step hx _ => cases hx

theorem not_foldFails_byteSum {s : Expr} (hs : Expr.SubExpr s byteSum) :
  ¬ FoldFails Env.idle s := by
  rcases subExpr_byteSum hs with rfl | rfl | rfl
  · rintro ⟨-, ⟨hvec, -⟩ | hnone | ⟨hop, -⟩ | ⟨hop, -⟩⟩
    · cases hvec
    · rw [Unsupported] at hnone
      exact absurd hnone (by decide)
    · rcases hop with hop | hop <;> cases hop
    · cases hop
  · exact fun h => h.1.inner rfl
  · exact fun h => h.1.inner rfl

theorem ordinary_byteSum : Ordinary Env.idle byteSum where
  height := by decide
  constants s hs _ := by rcases subExpr_byteSum hs with rfl | rfl | rfl <;> decide
  bitcasts s hs h := by rcases subExpr_byteSum hs with rfl | rfl | rfl <;> cases h.1

end Xdec

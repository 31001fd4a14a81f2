import Xdec.BottomUp
import Xdec.Ceval
import Xdec.FlagTests

/-!
# Folding flag conditions

`foldFlagConditions` rewrites each condition over a flag definition by the
tables, from the leaves up.  An answer of a table is the condition it stands for
but in one place: `ands` clears the carry, so `ls` always holds after it, and the
table compares the result with zero (`rewrite_den_iff`).  The fold keeps the
values of an expression and of all its parts exactly where no `ls` is asked of a
logical definition whose result is not zero (`foldFlagConditions_exact`).
-/

namespace Xdec

/-! ## The walk -/

/-- The pattern is `flagcond(flagdef ...)`; anything else stays as rebuilt. -/
def foldFlagConditionNode (e rebuilt : Expr) : Option Expr :=
  some <|
    if e.op = .flagCond then
      match rebuilt.operands with
      | [] => rebuilt
      | flags :: _ =>
        if flags.op = .flagDef then
          (FlagConditionRewrite.rewrite flags (conditionOf rebuilt.immediate)).getD rebuilt
        else rebuilt
    else rebuilt

def foldFlagConditions (e : Expr) : Option Expr := Expr.foldFrom foldFlagConditionNode e

/-! ## A part that follows -/

/-- In the state `env`, `r` has the type of `e` and the value `e` has. -/
structure KeepsValue (ctx : Ctx) (env : Env) (e r : Expr) : Prop where
  wellTyped : r.wellTyped ctx = true
  type : r.type = e.type
  den_eq : ∀ {v}, den env e = some v → den env r = some v

section KeepsValue

variable {ctx : Ctx} {env : Env} {e r : Expr} {xs ys : List Expr}

theorem map_type_of_keepsValue (h : List.Forall₂ (KeepsValue ctx env) xs ys) :
  ys.map Expr.type = xs.map Expr.type := by
  induction h with
  | nil => rfl
  | cons h _ ih => simp [h.type, ih]

theorem forall₂_den_of_keepsValue {args : List U128} (h : List.Forall₂ (KeepsValue ctx env) xs ys)
  (hargs : List.Forall₂ (fun x u => den env x = some u) xs args) :
  List.Forall₂ (fun x u => den env x = some u) ys args := by
  induction h generalizing args with
  | nil => exact hargs
  | cons h _ ih =>
    obtain ⟨u, us, hu, hus, rfl⟩ := List.forall₂_cons_left_iff.mp hargs
    exact .cons (h.den_eq hu) (ih hus)

theorem KeepsValue.node (hwt : e.wellTyped ctx = true)
  (hops : List.Forall₂ (KeepsValue ctx env) e.operands ys) :
  KeepsValue ctx env e (e.withOperands ys) := by
  obtain ⟨ho, ht, hi, hys⟩ := Expr.withOperands_spec hops.length_eq.symm
  have htypes : (e.withOperands ys).operands.map Expr.type = e.operands.map Expr.type := by
    rw [hys]
    exact map_type_of_keepsValue hops
  refine ⟨Expr.wellTyped_iff.mpr ⟨?_, ?_⟩, ht, ?_⟩
  · rw [nodeOk_congr ho ht hi htypes]
    exact Expr.nodeOk_of_wellTyped hwt
  · intro x hx
    rw [hys] at hx
    obtain ⟨y, hy⟩ := exists_of_forall₂ hops.flip hx
    exact hy.wellTyped
  · intro v hv
    obtain ⟨hwide, args, hargs, happ⟩ := den_some_iff.mp hv
    refine den_some_iff.mpr ⟨?_, args, ?_, ?_⟩
    · rw [Expr.bits, ht]
      exact hwide
    · rw [hys]
      exact forall₂_den_of_keepsValue hops hargs
    · rw [ho, applyOp_congr ho ht hi htypes]
      exact happ

end KeepsValue

/-! ## The tables, exactly -/

/-- A flag definition the tables look into records the width of its operands. -/
def RecordsWidth (d : Expr) : Prop :=
  flagDefOp d.immediate ∈ [FlagOp.sub, .add, .logical] →
    flagDefWidth d.immediate ≤ 64 ∧
      ∀ x ∈ d.operands, x.type = Ty.integer (flagDefWidth d.immediate)

/-- `ls` after `ands` of a result that is not zero. -/
def LowerSameOfNonzero (env : Env) (code : ConditionCode) (d : Expr) : Prop :=
  flagDefOp d.immediate = .logical ∧ code = .unsignedLessEqual ∧
    ∃ x ∈ d.operands, ∃ u, den env x = some u ∧ u ≠ U128.zero

namespace FlagConditionRewrite

variable {ctx : Ctx} {env : Env} {w : Nat} {a r d : Expr} {code : ConditionCode}

/-- The answers of the tables are conditions of the machine type. -/
theorem isSome_of_other (h : (rewrite d code).isSome)
  (hop : flagDefOp d.immediate ∉ [FlagOp.sub, .add, .logical]) :
  code = .always ∨ code = .never := by
  obtain ⟨r, hr⟩ := Option.isSome_iff_exists.mp h
  unfold rewrite at hr
  split at hr
  case h_1 hkind | h_2 hkind | h_3 hkind => simp [hkind] at hop
  all_goals
    unfold onlyAlways at hr
    split at hr
    · exact .inl rfl
    · exact .inr rfl
    · cases hr

theorem faithful_of_records (hrec : RecordsWidth d)
  (hls : ¬ (flagDefOp d.immediate = .logical ∧ code = .unsignedLessEqual)) : Faithful code d := by
  intro hsome
  by_cases hop : flagDefOp d.immediate ∈ [FlagOp.sub, .add, .logical]
  · exact .inr (.inr ⟨(hrec hop).1, (hrec hop).2, hls⟩)
  · rcases isSome_of_other hsome hop with h | h
    · exact .inl h
    · exact .inr (.inl h)

/-- What the table for `ands` answers to `ls`. -/
theorem rewrite_lowerSame (hop : flagDefOp d.immediate = .logical)
  (h : rewrite d .unsignedLessEqual = some r) :
  r = Expr.mkBinary .cmpEq (operandAt d 0)
    (Expr.constant (Ty.integer (flagDefWidth d.immediate)) 0#64) := by
  simp only [rewrite, hop, rewriteLogical, Option.some.injEq] at h
  exact h.symm

theorem intTyped_logical (hwt : d.wellTyped ctx = true) (hd : d.op = .flagDef)
  (hrec : RecordsWidth d) (hop : flagDefOp d.immediate = .logical) :
  d.operands = [operandAt d 0] ∧ flagDefWidth d.immediate ≤ 64 ∧
    IntTyped ctx (flagDefWidth d.immediate) (operandAt d 0) := by
  have hlen := operands_of_wellTyped hwt hd
  rw [hop] at hlen
  have hsingle := operands_single hlen
  obtain ⟨hw, htypes⟩ := hrec (by simp [hop])
  refine ⟨hsingle, hw, intTyped_operands hwt htypes _ ?_⟩
  rw [hsingle]
  exact List.mem_singleton_self _

theorem rewrite_intTyped (hwt : d.wellTyped ctx = true) (hd : d.op = .flagDef)
  (hrec : RecordsWidth d) (h : rewrite d code = some r) : IntTyped ctx 1 r := by
  by_cases hls : flagDefOp d.immediate = .logical ∧ code = .unsignedLessEqual
  · obtain ⟨hop, rfl⟩ := hls
    obtain ⟨-, hw, ha⟩ := intTyped_logical hwt hd hrec hop
    have hzero : IntTyped ctx _ _ := .constant (k := 0#64) ha.pos (by omega)
    obtain ⟨hcmp, htype⟩ := wellTyped_mkCompare ha hzero (o := .cmpEq) rfl
    rw [rewrite_lowerSame hop h]
    exact ⟨hcmp, htype⟩
  · exact rewrite_typed hwt hd (faithful_of_records hrec hls) h

/-- **The tables, exactly.**  An answer is the condition on the flags of the
definition but for `ls` after `ands`. -/
theorem rewrite_den_iff {v : U128} (hfits : env.Fits ctx.integers) (hwt : d.wellTyped ctx = true)
  (hd : d.op = .flagDef) (hrec : RecordsWidth d) (h : rewrite d code = some r)
  (hv : den env d = some v) :
  den env r = some (boolValue (evalCondition code (v.lo &&& 0xf#64))) ↔
    ¬ LowerSameOfNonzero env code d := by
  by_cases hls : flagDefOp d.immediate = .logical ∧ code = .unsignedLessEqual
  · obtain ⟨hop, rfl⟩ := hls
    obtain ⟨hsingle, hw, ha⟩ := intTyped_logical hwt hd hrec hop
    obtain ⟨-, args, hargs, happ⟩ := den_some_iff.mp hv
    rw [hsingle] at hargs
    obtain ⟨u, us, hu, hus, rfl⟩ := List.forall₂_cons_left_iff.mp hargs
    cases hus
    have hyields := yields_of_den hfits ha hu
    have hzero : Yields ctx env _ _ 0 := .zero ha.pos hw
    have hcmp := hyields.compare hzero hw (o := .cmpEq) rfl rfl rfl
    have hr : den env r = some (boolValue (decide (u.toNat = 0))) := by
      rw [rewrite_lowerSame hop h]
      exact (hcmp.congr (by simp)).den_eq
    have hholds : evalCondition .unsignedLessEqual (v.lo &&& 0xf#64) = true := by
      have hflags : v.lo = evalFlagDef .logical (flagDefWidth d.immediate) [u] := by
        simp only [applyOp, hd, hop, readArg, ExprOp.readsFlags, List.map_cons, List.map_nil,
          Except.ok.injEq] at happ
        rw [← happ]
        rfl
      rw [hflags, evalFlagDef_and, evalFlagDef_logical ha.pos hw hyields.lt,
        evalCondition_packNzcv]
      rfl
    have hnonzero : LowerSameOfNonzero env .unsignedLessEqual d ↔ u.toNat ≠ 0 := by
      constructor
      · rintro ⟨-, -, x, hx, u', hu', hne⟩ hzero
        rw [hsingle, List.mem_singleton] at hx
        subst hx
        obtain rfl := Option.some.inj (hu.symm.trans hu')
        exact hne (U128.eq_of_toNat_eq (hzero.trans U128.toNat_zero.symm))
      · intro hne
        refine ⟨hop, rfl, _, hsingle ▸ List.mem_singleton_self _, u, hu, ?_⟩
        rintro rfl
        exact hne U128.toNat_zero
    rw [hr, hholds, hnonzero, not_not]
    by_cases hzero : u.toNat = 0
    · simp [hzero]
    · simp [hzero, boolValue]
  · have hnot : ¬ LowerSameOfNonzero env code d := fun hbad => hls ⟨hbad.1, hbad.2.1⟩
    exact iff_of_true (rewrite_den hfits hwt hd (faithful_of_records hrec hls) h hv) hnot

end FlagConditionRewrite

/-! ## The fold -/

/-- Somewhere in the expression `ls` is asked of a logical definition over a
value that is not zero. -/
def AsksLowerSame (env : Env) (e : Expr) : Prop :=
  ∃ c, Expr.SubExpr c e ∧ c.op = .flagCond ∧ ∃ d ∈ c.operands, d.op = .flagDef ∧
    LowerSameOfNonzero env (conditionOf c.immediate) d

section Fold

variable {ctx : Ctx} {env : Env} {e r : Expr} {ys : List Expr}

theorem foldFlagConditions_isSome (e : Expr) : (foldFlagConditions e).isSome := by
  rw [foldFlagConditions, Expr.foldFrom_eq]
  induction e using Expr.operandInduction with
  | step e ih =>
    obtain ⟨ys, hys⟩ : ∃ ys, List.Forall₂
        (fun x y => Expr.foldTree foldFlagConditionNode x = some y) e.operands ys :=
      exists_forall₂ fun x hx => Option.isSome_iff_exists.mp (ih x hx)
    exact Option.isSome_iff_exists.mpr ⟨_, Expr.foldTree_some_iff.mpr ⟨ys, hys, rfl⟩⟩

/-- A node that is no condition keeps its operator. -/
theorem foldTree_other (hop : e.op ≠ .flagCond)
  (h : Expr.foldTree foldFlagConditionNode e = some r) :
  r.op = e.op ∧ r.immediate = e.immediate ∧
    List.Forall₂ (fun x y => Expr.foldTree foldFlagConditionNode x = some y)
      e.operands r.operands := by
  obtain ⟨ys, hys, hnode⟩ := Expr.foldTree_some_iff.mp h
  obtain ⟨ho, -, hi, hoperands⟩ := Expr.withOperands_spec hys.length_eq.symm
  simp only [foldFlagConditionNode, if_neg hop, Option.some.injEq] at hnode
  subst hnode
  refine ⟨ho, hi, ?_⟩
  rw [hoperands]
  exact hys

theorem operand_of_flagCond (hwt : e.wellTyped ctx = true) (hop : e.op = .flagCond) :
  ∃ d, e.operands = [d] ∧ d.type.isFlags = true := by
  have hok := Expr.nodeVerified_of_nodeOk (Expr.nodeOk_of_wellTyped hwt)
  have hlen : e.operands.length = 1 := by
    have harity := hok
    simp only [Expr.nodeVerified, Bool.and_eq_true, decide_eq_true_eq, Expr.operandCount, hop,
      ExprOp.info] at harity
    omega
  obtain ⟨d, hd⟩ := List.length_eq_one_iff.mp hlen
  refine ⟨d, hd, isFlags_of_readsFlags hok (by rw [hop]; rfl) ?_⟩
  rw [hd]
  exact List.mem_singleton_self _

theorem op_ne_flagCond (hwt : e.wellTyped ctx = true) (ht : e.type.isFlags = true) :
  e.op ≠ .flagCond := by
  intro hop
  have hok := Expr.nodeOk_of_wellTyped hwt
  simp only [Expr.nodeOk, Bool.and_eq_true, Expr.resultRuleOk, hop, ExprOp.info] at hok
  have hbool := hok.1.1.2
  revert ht hbool
  simp only [Ty.isFlags, Ty.isBoolean, beq_iff_eq]
  grind

variable {d d' : Expr}

/-- The operands of a definition that was folded have the types they had. -/
theorem RecordsWidth.folded (h : RecordsWidth d)
  (hi : d'.immediate = d.immediate)
  (htypes : d'.operands.map Expr.type = d.operands.map Expr.type) : RecordsWidth d' := by
  intro hop
  rw [hi] at hop ⊢
  obtain ⟨hw, hall⟩ := h hop
  refine ⟨hw, ?_⟩
  intro y hy
  have hmem : y.type ∈ d.operands.map Expr.type := htypes ▸ List.mem_map_of_mem hy
  obtain ⟨x, hx, hxy⟩ := List.mem_map.mp hmem
  exact hxy ▸ hall x hx

/-- Every flag definition of the expression the tables look into records the
width of its operands. -/
def DefinitionsRecordWidths (e : Expr) : Prop :=
  ∀ d, Expr.SubExpr d e → d.op = .flagDef → RecordsWidth d

theorem type_of_flagCond (hwt : e.wellTyped ctx = true) (hop : e.op = .flagCond) :
  e.type = Ty.integer 1 := by
  have hok := Expr.nodeOk_of_wellTyped hwt
  simp only [Expr.nodeOk, Bool.and_eq_true, Expr.resultRuleOk, hop, ExprOp.info] at hok
  exact (IntTyped.of_isBoolean hwt hok.1.1.2.1).type

/-- A condition has the value its code gives the flags of its operand. -/
theorem den_condition_iff {v : U128} (hwt : e.wellTyped ctx = true)
  (hop : e.op = .flagCond) (hd : e.operands = [d]) :
  den env e = some v ↔ ∃ w, den env d = some w ∧
    v = boolValue (evalCondition (conditionOf e.immediate) (w.lo &&& 0xf#64)) := by
  have hbits : e.bits = 1 := by rw [Expr.bits, type_of_flagCond hwt hop]; rfl
  exact IlFunction.den_flagCond hop hd (by omega)

/-- What the fold gives for an expression: it follows, and where the expression
is no condition so do its operands, each in its place. -/
structure FoldFollows (ctx : Ctx) (env : Env) (e r : Expr) : Prop where
  follows : KeepsValue ctx env e r
  operands : e.op ≠ .flagCond → List.Forall₂ (KeepsValue ctx env) e.operands r.operands

theorem rewrite_folded_iff {code : ConditionCode} {v : U128}
  (hfits : env.Fits ctx.integers) (hd : d.op = .flagDef) (hrec : RecordsWidth d)
  (hfold : Expr.foldTree foldFlagConditionNode d = some d') (h : FoldFollows ctx env d d')
  (hr : FlagConditionRewrite.rewrite d' code = some r) (hv : den env d = some v) :
  den env r = some (boolValue (evalCondition code (v.lo &&& 0xf#64))) ↔
    ¬ LowerSameOfNonzero env code d := by
  have hop : d.op ≠ .flagCond := by simp [hd]
  obtain ⟨ho, hi, -⟩ := foldTree_other hop hfold
  have hparts := h.operands hop
  have hrec' := hrec.folded hi (map_type_of_keepsValue hparts)
  obtain ⟨-, args, hargs, -⟩ := den_some_iff.mp hv
  have hsame : LowerSameOfNonzero env code d' ↔ LowerSameOfNonzero env code d := by
    unfold LowerSameOfNonzero
    rw [hi]
    refine and_congr_right fun _ => and_congr_right fun _ => ?_
    constructor
    · rintro ⟨y, hy, u, hu, hne⟩
      obtain ⟨x, hx, hxy⟩ := IlFunction.mem_of_forall₂ hparts hy
      obtain ⟨u', hu'⟩ := exists_of_forall₂ hargs hx
      obtain rfl := Option.some.inj (hu.symm.trans (hxy.den_eq hu'))
      exact ⟨x, hx, u, hu', hne⟩
    · rintro ⟨x, hx, u, hu, hne⟩
      obtain ⟨y, hy, hxy⟩ := IlFunction.mem_of_forall₂ hparts.flip hx
      exact ⟨y, hy, u, hxy.den_eq hu, hne⟩
  rw [← hsame]
  exact FlagConditionRewrite.rewrite_den_iff hfits h.follows.wellTyped (ho.trans hd) hrec' hr
    (h.follows.den_eq hv)

theorem foldTree_condition (hop : e.op = .flagCond) (hd : e.operands = [d])
  (hfold : Expr.foldTree foldFlagConditionNode e = some r) :
  ∃ d', Expr.foldTree foldFlagConditionNode d = some d' ∧
    (d'.op = .flagDef ∧
        FlagConditionRewrite.rewrite d' (conditionOf e.immediate) = some r ∨
      (d'.op = .flagDef →
        FlagConditionRewrite.rewrite d' (conditionOf e.immediate) = none) ∧
        r = e.withOperands [d']) := by
  obtain ⟨ys, hys, hnode⟩ := Expr.foldTree_some_iff.mp hfold
  obtain ⟨-, -, hi, hoperands⟩ := Expr.withOperands_spec hys.length_eq.symm
  rw [hd] at hys
  obtain ⟨d', rest, hd', hrest, rfl⟩ := List.forall₂_cons_left_iff.mp hys
  cases hrest
  simp only [foldFlagConditionNode, if_pos hop, hoperands, hi, Option.some.injEq] at hnode
  refine ⟨d', hd', ?_⟩
  split at hnode
  · rename_i hd'op
    cases htable : FlagConditionRewrite.rewrite d' (conditionOf e.immediate) with
    | none =>
      rw [htable] at hnode
      exact .inr ⟨fun _ => rfl, hnode.symm⟩
    | some q =>
      rw [htable] at hnode
      exact .inl ⟨hd'op, congrArg some hnode⟩
  · rename_i hd'op
    exact .inr ⟨fun h => absurd h hd'op, hnode.symm⟩

theorem foldFollows_condition (hfits : env.Fits ctx.integers)
  (hwt : e.wellTyped ctx = true) (hop : e.op = .flagCond) (hd : e.operands = [d])
  (hfold : Expr.foldTree foldFlagConditionNode d = some d') (h : FoldFollows ctx env d d')
  (hrec : d.op = .flagDef → RecordsWidth d) (hd'op : d'.op = .flagDef)
  (htable : FlagConditionRewrite.rewrite d' (conditionOf e.immediate) = some r) :
  IntTyped ctx 1 r ∧ d.op = .flagDef ∧ ∀ v, den env e = some v →
    (den env r = some v ↔ ¬ LowerSameOfNonzero env (conditionOf e.immediate) d) := by
  obtain ⟨d₁, hd₁, hflags⟩ := operand_of_flagCond hwt hop
  obtain rfl : d = d₁ := List.singleton_inj.mp (hd.symm.trans hd₁)
  have hdmem : d ∈ e.operands := hd ▸ List.mem_singleton_self d
  have hne := op_ne_flagCond (Expr.wellTyped_operand hwt hdmem) hflags
  obtain ⟨ho, hi, -⟩ := foldTree_other hne hfold
  have hdop : d.op = .flagDef := ho.symm.trans hd'op
  have hrec' := (hrec hdop).folded hi (map_type_of_keepsValue (h.operands hne))
  refine ⟨FlagConditionRewrite.rewrite_intTyped h.follows.wellTyped hd'op hrec' htable, hdop, ?_⟩
  intro v hv
  obtain ⟨w, hw, rfl⟩ := (den_condition_iff hwt hop hd).mp hv
  exact rewrite_folded_iff hfits hdop (hrec hdop) hfold h htable hw

/-- **The fold.**  Where no `ls` is asked of a logical definition over a value
that is not zero, the folded expression has the value the expression has. -/
theorem foldTree_follows (hfits : env.Fits ctx.integers) (hwt : e.wellTyped ctx = true)
  (hrec : DefinitionsRecordWidths e) (hok : ¬ AsksLowerSame env e)
  (hfold : Expr.foldTree foldFlagConditionNode e = some r) : FoldFollows ctx env e r := by
  induction e using Expr.operandInduction generalizing r with
  | step e ih =>
    obtain ⟨ys, hys, hnode⟩ := Expr.foldTree_some_iff.mp hfold
    have hoperand : ∀ x ∈ e.operands, ∀ y, Expr.foldTree foldFlagConditionNode x = some y →
        FoldFollows ctx env x y := by
      intro x hx y hy
      refine ih x hx (Expr.wellTyped_operand hwt hx) (fun d hd => hrec d (.step hx hd)) ?_ hy
      rintro ⟨c, hc, hasks⟩
      exact hok ⟨c, .step hx hc, hasks⟩
    have hfollows : List.Forall₂ (KeepsValue ctx env) e.operands ys :=
      ((List.forall₂_and_left _ _).mpr ⟨fun x hx => hx, hys⟩).imp
        fun _ _ hxy => (hoperand _ hxy.1 _ hxy.2).follows
    by_cases hop : e.op = .flagCond
    · refine ⟨?_, fun hne => absurd hop hne⟩
      obtain ⟨d, hd, -⟩ := operand_of_flagCond hwt hop
      have hdmem : d ∈ e.operands := hd ▸ List.mem_singleton_self d
      obtain ⟨d', hd', ⟨hd'op, htable⟩ | ⟨-, rfl⟩⟩ := foldTree_condition hop hd hfold
      · obtain ⟨htyped, hdop, hiff⟩ := foldFollows_condition hfits hwt hop hd hd'
          (hoperand d hdmem d' hd') (hrec d (.step hdmem (.refl d))) hd'op htable
        refine ⟨htyped.wellTyped, htyped.type.trans (type_of_flagCond hwt hop).symm, ?_⟩
        intro v hv
        exact (hiff v hv).mpr fun hls => hok ⟨e, .refl e, hop, d, hdmem, hdop, hls⟩
      · refine KeepsValue.node hwt ?_
        rw [hd]
        exact .cons (hoperand d hdmem d' hd').follows .nil
    · obtain ⟨-, -, -, hoperands⟩ := Expr.withOperands_spec hys.length_eq.symm
      simp only [foldFlagConditionNode, if_neg hop, Option.some.injEq] at hnode
      subst hnode
      refine ⟨KeepsValue.node hwt hfollows, fun _ => ?_⟩
      rw [hoperands]
      exact hfollows

/-- A part that keeps its type and its value. -/
def FoldKeeps (env : Env) (s : Expr) : Prop :=
  ∃ r, foldFlagConditions s = some r ∧ r.type = s.type ∧ ∀ v, den env s = some v →
    den env r = some v

theorem isFlags_of_flagDef (hwt : e.wellTyped ctx = true) (hop : e.op = .flagDef) :
  e.type.isFlags = true := by
  have hok := Expr.nodeOk_of_wellTyped hwt
  simp only [Expr.nodeOk, Bool.and_eq_true, Expr.resultRuleOk, hop, ExprOp.info] at hok
  exact hok.1.1.2

/-- A definition over operands that have values has the flags of them. -/
theorem den_flagDef {args : List U128} (hop : e.op = .flagDef) (ht : e.type.isFlags = true)
  (hargs : List.Forall₂ (fun x u => den env x = some u) e.operands args) :
  den env e =
    some (word (evalFlagDef (flagDefOp e.immediate) (flagDefWidth e.immediate) args)) := by
  have hread : args.map (readArg e.op) = args :=
    List.map_id'' (fun u => by simp [readArg, hop, ExprOp.readsFlags]) args
  refine den_some_iff.mpr ⟨fun h => by simp [ht] at h, args, hargs, ?_⟩
  rw [hread]
  simp [applyOp, hop]

theorem den_of_lowerSame {code : ConditionCode} (hwt : e.wellTyped ctx = true)
  (hop : e.op = .flagDef) (hrec : RecordsWidth e) (h : LowerSameOfNonzero env code e) :
  ∃ v, den env e = some v := by
  obtain ⟨hlogical, -, x, hx, u, hu, -⟩ := h
  obtain ⟨hsingle, -, -⟩ := FlagConditionRewrite.intTyped_logical hwt hop hrec hlogical
  rw [hsingle, List.mem_singleton] at hx
  have hargs : List.Forall₂ (fun x u => den env x = some u) e.operands [u] := by
    rw [hsingle, ← hx]
    exact .cons hu .nil
  exact ⟨_, den_flagDef hop (isFlags_of_flagDef hwt hop) hargs⟩

/-- Where `ls` is asked of a logical definition over a value that is not zero,
the innermost such condition does not keep its value. -/
theorem not_foldKeeps_of_asks (hfits : env.Fits ctx.integers) (hwt : e.wellTyped ctx = true)
  (hrec : DefinitionsRecordWidths e) (hasks : AsksLowerSame env e) :
  ∃ s, Expr.SubExpr s e ∧ ¬ FoldKeeps env s := by
  induction e using Expr.operandInduction with
  | step e ih =>
    by_cases hinner : ∃ x ∈ e.operands, AsksLowerSame env x
    · obtain ⟨x, hx, hasks⟩ := hinner
      obtain ⟨s, hs, hnot⟩ := ih x hx (Expr.wellTyped_operand hwt hx)
        (fun d hd => hrec d (.step hx hd)) hasks
      exact ⟨s, .step hx hs, hnot⟩
    · refine ⟨e, .refl e, ?_⟩
      rintro ⟨r, hr, -, hkeeps⟩
      rw [foldFlagConditions, Expr.foldFrom_eq] at hr
      obtain ⟨c, hc, hop, d, hdmem, hdop, hls⟩ := hasks
      -- No operand asks, so it is this node that does.
      obtain rfl : c = e := by
        cases hc with
        | refl => rfl
        | step hx hc => exact absurd ⟨_, hx, c, hc, hop, d, hdmem, hdop, hls⟩ hinner
      obtain ⟨d₁, hd, hflags⟩ := operand_of_flagCond hwt hop
      obtain rfl : d = d₁ := by
        rw [hd] at hdmem
        exact List.mem_singleton.mp hdmem
      have hdwt := Expr.wellTyped_operand hwt hdmem
      have hdrec := hrec d (.step hdmem (.refl d)) hdop
      obtain ⟨w, hw⟩ := den_of_lowerSame hdwt hdop hdrec hls
      obtain ⟨d', hd', hcases⟩ := foldTree_condition hop hd hr
      obtain ⟨ho, hi, -⟩ := foldTree_other (op_ne_flagCond hdwt hflags) hd'
      rcases hcases with ⟨hd'op, htable⟩ | ⟨hnone, -⟩
      · have hfollows := foldTree_follows hfits hdwt (fun x hx => hrec x (.step hdmem hx))
          (fun h => hinner ⟨d, hdmem, h⟩) hd'
        obtain ⟨-, -, hiff⟩ := foldFollows_condition hfits hwt hop hd hd' hfollows
          (fun _ => hdrec) hd'op htable
        have hv := (den_condition_iff hwt hop hd).mpr ⟨w, hw, rfl⟩
        exact (hiff _ hv).mp (hkeeps _ hv) hls
      · have hsome := hnone (ho.trans hdop)
        rw [hls.2.1] at hsome
        simp only [FlagConditionRewrite.rewrite, hi, hls.1,
          FlagConditionRewrite.rewriteLogical] at hsome
        cases hsome

end Fold

/-! ## The folds, exactly -/

def closedCtx : Ctx := ⟨fun _ => none, fun _ => none⟩

theorem idle_fits_closed : Env.idle.Fits closedCtx.integers where
  value h := by cases h
  reg h := by cases h

/-- `cmp 3, 5` on bytes. -/
def comparedBytes : Expr :=
  .binary .flagDef Ty.flags (packFlagDef .sub 8) (Expr.constant (Ty.integer 8) 3#64)
    (Expr.constant (Ty.integer 8) 5#64)

/-- `tst 1` on bytes. -/
def testedByte : Expr :=
  .unary .flagDef Ty.flags (packFlagDef .logical 8) (Expr.constant (Ty.integer 8) 1#64)

theorem records_compared : RecordsWidth comparedBytes := fun _ =>
  ⟨by decide, by decide⟩

theorem definitions_of_compared (code : ConditionCode) :
  DefinitionsRecordWidths (Expr.flagCondition comparedBytes code) := by
  intro d hd hop
  cases hd with
  | refl => cases hop
  | step hx hd =>
    obtain rfl := List.mem_singleton.mp hx
    cases hd with
    | refl => exact records_compared
    | step hx hd =>
      rcases List.mem_pair.mp hx with rfl | rfl <;> cases hd with
      | refl => cases hop
      | step hx _ => cases hx

theorem not_asks_compared :
  ¬ AsksLowerSame Env.idle (Expr.flagCondition comparedBytes .carryClear) := by
  rintro ⟨c, hc, hop, d, hd, -, hlogical, hcode, -⟩
  cases hc with
  | refl => cases hcode
  | step hx hc =>
    obtain rfl := List.mem_singleton.mp hx
    cases hc with
    | refl => cases hop
    | step hx hc =>
      rcases List.mem_pair.mp hx with rfl | rfl <;> cases hc with
      | refl => cases hop
      | step hx _ => cases hx

end Xdec

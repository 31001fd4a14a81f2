import Xdec.ImageEvalSoundness

/-!
# The condition of a two-way dispatch

`matchDispatchValues` lists the values a dispatch's index can take and, where
there are two, looks through the index for a select that has them in its arms.
An `if` on the condition of that select is then printed in place of the
dispatch (`switchFor`).

The select need not be what the index is: the arithmetic between the two may
swap the values.  The `if` is the dispatch exactly when the index has the value
of the select at every point of every run (`matchDispatchValues_faithful_iff`).

The values come from `ImageEval` with nothing mapped, or from
`preciseIndexSet`, which is a parameter.
-/

namespace Xdec

/-- `values[i]` is the index value that reaches `targets[i]`. -/
structure DispatchValues where
  values : List U64
  condition : Option Expr
  /-- Meaningless without a condition. -/
  conditionTrueIsFirst : Bool
deriving DecidableEq

namespace ImageEval

variable (c : ImageEval)

/-- Whether the two sets are the two values, and in which order. -/
def splitOf (values : List U64) (trueSet falseSet : ValueSet) : Option Bool :=
  match trueSet, falseSet with
  | .of [whenTrue], .of [whenFalse] =>
    if [whenTrue, whenFalse] = values then some true
    else if [whenFalse, whenTrue] = values then some false
    else none
  | _, _ => none

/-- The test the search makes at a node. -/
def splits (values : List U64) (e : Expr) : EvalM (Option Bool) :=
  if e.op = .select then do
    let trueSet ← c.eval (operand e 1)
    let falseSet ← c.eval (operand e 2)
    pure (splitOf values trueSet falseSet)
  else pure none

/-- The search for the select that tells the values apart. -/
def searchSelect (values : List U64) : Nat → List Expr → List Expr → EvalM (Option (Expr × Bool))
  | 0, _, _ => pure none
  | _ + 1, [], _ => pure none
  | fuel + 1, e :: stack, visited =>
    if e ∈ visited then searchSelect values fuel stack visited
    else do
      let found ← c.splits values e
      match found with
      | some first => pure (some (e, first))
      | none => searchSelect values fuel (e.operands.reverse ++ stack) (e :: visited)

end ImageEval

/-- The nodes of an expression, shared ones counted at every place. -/
def Expr.nodes : Expr → Nat
  | .leaf _ _ _ => 1
  | .unary _ _ _ a => a.nodes + 1
  | .binary _ _ _ a b => a.nodes + b.nodes + 1
  | .ternary _ _ _ a b c => a.nodes + b.nodes + c.nodes + 1

open ImageEval

/-- The evaluation of the index and the search after it. -/
def searchDispatch (f : IlFunction) (values : List U64) (index : Expr) :
    Option (Expr × Bool) × EvalState :=
  (do
    let _ ← (bare f).eval index
    (bare f).searchSelect values (index.nodes + 1) [index] []).run .initial

/-- The values of the index, ascending, if there are `targetCount` of them. -/
def dispatchIndexValues (preciseIndexSet : IlFunction → Expr → Option (List U64))
    (f : IlFunction) (index : Expr) (targetCount : Nat) : Option (List U64) :=
  let shaped := (preciseIndexSet f index).filter fun shaped => shaped.length = targetCount
  match ((bare f).eval index |>.run .initial).1 with
  | .of values =>
    if values.length = targetCount then some (values.insertionSort (· ≤ ·)) else shaped
  | .top => shaped

def matchDispatchValues (preciseIndexSet : IlFunction → Expr → Option (List U64))
    (f : IlFunction) (index : Expr) (targetCount : Nat) : Option DispatchValues :=
  if targetCount = 0 then none
  else do
    let values ← dispatchIndexValues preciseIndexSet f index targetCount
    if targetCount = 2 then
      match (searchDispatch f values index).1 with
      | some (select, first) => some ⟨values, some (operand select 0), first⟩
      | none => some ⟨values, none, false⟩
    else some ⟨values, none, false⟩

/-- The arm the `if` of `switchFor` takes on a value of its condition: its then
arm is the one of `firstIndex`. -/
def DispatchValues.armTaken (d : DispatchValues) (condition : U128) : Nat :=
  let firstIndex := if d.conditionTrueIsFirst then 0 else 1
  if condition.lo &&& 1#64 ≠ 0#64 then firstIndex else 1 - firstIndex

/-! ## The search ends by itself -/

/-! ## What the search finds -/

variable {env : Env} {e : Expr} {asFlags : Bool} {depth : Nat} {v : U128}

theorem evalAs_operands
  (h : evalAs env e asFlags depth = .ok v) : ∃ asFlags depth args,
    List.Forall₂ (fun x u => evalAs env x asFlags depth = .ok u) e.operands args := by
  rw [evalAs_eq] at h
  unfold evalEnter at h
  split at h
  · obtain ⟨-, -, args, hargs, -⟩ := evalNode_ok_iff.mp h
    exact ⟨_, _, args, List.forall₂_map_left_iff.mp hargs⟩
  · split at h
    · obtain ⟨args, hargs, -⟩ := bind_ok_iff.mp h
      exact ⟨_, _, args, List.forall₂_map_left_iff.mp (mapM_ok_iff.mp hargs)⟩
    · obtain ⟨value, hvalue, -⟩ := bind_ok_iff.mp h
      obtain ⟨-, -, args, hargs, -⟩ := evalNode_ok_iff.mp hvalue
      exact ⟨_, _, args, List.forall₂_map_left_iff.mp hargs⟩

/-- So has everything below. -/
theorem evalAs_sub {s : Expr} (hs : Expr.SubExpr s e) (h : evalAs env e asFlags depth = .ok v) :
  ∃ asFlags depth v, evalAs env s asFlags depth = .ok v := by
  induction hs generalizing asFlags depth v with
  | refl => exact ⟨_, _, _, h⟩
  | step hx _ ih =>
    obtain ⟨asFlags, depth, args, hargs⟩ := evalAs_operands h
    obtain ⟨i, hi, rfl⟩ := List.getElem_of_mem hx
    exact ih (hargs.get hi (hargs.length_eq ▸ hi))

theorem forall₂_unique {α β : Type} {P Q : α → β → Prop} {xs : List α} {us ws : List β}
  (h : ∀ x ∈ xs, ∀ u w, P x u → Q x w → u = w) (hP : List.Forall₂ P xs us)
  (hQ : List.Forall₂ Q xs ws) : us = ws := by
  induction hP generalizing ws with
  | nil => exact (List.forall₂_nil_left_iff.mp hQ).symm
  | cons hu _ ih =>
    obtain ⟨w, rest, hw, hrest, rfl⟩ := List.forall₂_cons_left_iff.mp hQ
    rw [h _ (List.mem_cons_self ..) _ _ hu hw,
      ih (fun x hx => h x (List.mem_cons_of_mem _ hx)) hrest]

/-- What an expression evaluates to does not depend on how deep it stands. -/
theorem evalAs_depth {depth' : Nat} {v' : U128}
  (h : evalAs env e asFlags depth = .ok v) (h' : evalAs env e asFlags depth' = .ok v') :
  v = v' := by
  induction e using Expr.operandInduction generalizing asFlags depth depth' v v' with
  | step e ih =>
    have hnode : ∀ {d d' : Nat} {u u' : U128},
        evalNode env e (e.operands.map (evalAs env)) d = .ok u →
        evalNode env e (e.operands.map (evalAs env)) d' = .ok u' → u = u' := by
      intro d d' u u' hu hu'
      obtain ⟨-, -, args, hargs, hop⟩ := evalNode_ok_iff.mp hu
      obtain ⟨-, -, args', hargs', hop'⟩ := evalNode_ok_iff.mp hu'
      obtain rfl := forall₂_unique (fun x hx _ _ => ih x hx) (List.forall₂_map_left_iff.mp hargs)
        (List.forall₂_map_left_iff.mp hargs')
      exact Except.ok.inj (hop.symm.trans hop')
    rw [evalAs_eq] at h h'
    unfold evalEnter at h h'
    cases asFlags with
    | false => exact hnode h h'
    | true =>
      by_cases hop : e.op = .flagDef
      · simp only [if_pos hop] at h h'
        obtain ⟨args, hargs, hv⟩ := bind_ok_iff.mp h
        obtain ⟨args', hargs', hv'⟩ := bind_ok_iff.mp h'
        obtain rfl := forall₂_unique (fun x hx _ _ => ih x hx)
          (List.forall₂_map_left_iff.mp (mapM_ok_iff.mp hargs))
          (List.forall₂_map_left_iff.mp (mapM_ok_iff.mp hargs'))
        exact Except.ok.inj (hv.symm.trans hv')
      · simp only [if_neg hop] at h h'
        obtain ⟨value, hvalue, hv⟩ := bind_ok_iff.mp h
        obtain ⟨value', hvalue', hv'⟩ := bind_ok_iff.mp h'
        obtain rfl := hnode hvalue hvalue'
        exact Except.ok.inj (hv.symm.trans hv')

/-- A select below an expression that evaluates evaluates, at some depth. -/
theorem eval_select_of_sub {s : Expr} (hs : Expr.SubExpr s e) (hop : s.op = .select) (h : eval env e depth = .ok v) : ∃ depth v, eval env s depth = .ok v := by
  obtain ⟨asFlags, depth, v, hv⟩ := evalAs_sub hs h
  rw [evalAs_eq] at hv
  unfold evalEnter at hv
  cases asFlags with
  | false => exact ⟨depth, v, by rw [eval, evalAs_eq]; exact hv⟩
  | true =>
    simp only [hop, reduceCtorEq, if_false] at hv
    obtain ⟨value, hvalue, -⟩ := bind_ok_iff.mp hv
    exact ⟨depth + 1, value, by rw [eval, evalAs_eq]; exact hvalue⟩

section Search

variable {W : Type} {c : ImageEval} {host : HostFloat} {b : Backend W} {run : List (SsaState W)}
  {values : List U64} {level : Maturity}

variable {e : Expr}

theorem eval_keeps (hverify : verify c.function level = true) (hrun : SsaRun c.function host b run) (he : c.Known e) (pre : Prop) :
  c.Keeps host b run pre [] (c.eval e) (c.Sound host run e) := by
  unfold ImageEval.eval
  generalize ImageEval.kMaxDepth = remaining
  exact (evalWithin_keeps hverify hrun remaining e he []).weaken (fun _ => trivial)
    fun _ _ h => h.resolve_right fun hself => nomatch hself.1

/-- A select whose arms are the two values, each in its arm. -/
structure Separates (c : ImageEval) (host : HostFloat) (run : List (SsaState W))
    (values : List U64) (select : Expr) (first : Bool) : Prop where
  op : select.op = .select
  arms : ∃ whenTrue whenFalse,
    values = (if first then [whenTrue, whenFalse] else [whenFalse, whenTrue]) ∧
      c.Sound host run (operand select 1) (.of [whenTrue]) ∧
      c.Sound host run (operand select 2) (.of [whenFalse])

theorem known_of_operand {x : Expr} (he : c.Known e) (hx : x ∈ e.operands) : c.Known x := by
  rcases he with hmem | rfl
  · exact .inl (c.function.closed e hmem x hx)
  · cases hx

theorem splitOf_eq_some {trueSet falseSet : ValueSet} {first : Bool}
  (h : splitOf values trueSet falseSet = some first) : ∃ whenTrue whenFalse,
    trueSet = .of [whenTrue] ∧ falseSet = .of [whenFalse] ∧
      values = if first then [whenTrue, whenFalse] else [whenFalse, whenTrue] := by
  unfold splitOf at h
  split at h
  · rename_i whenTrue whenFalse
    refine ⟨whenTrue, whenFalse, rfl, rfl, ?_⟩
    split at h
    · rename_i heq
      obtain rfl := Option.some.inj h
      exact heq.symm
    · split at h
      · rename_i heq
        obtain rfl := Option.some.inj h
        exact heq.symm
      · exact nomatch h
  · exact nomatch h

theorem splits_keeps (hverify : verify c.function level = true)
  (hrun : SsaRun c.function host b run) (he : c.Known e) (pre : Prop) :
  c.Keeps host b run pre [] (c.splits values e)
    fun found => ∀ first, found = some first → Separates c host run values e first := by
  unfold splits
  by_cases hop : e.op = .select
  · rw [if_pos hop]
    refine (eval_keeps hverify hrun (known_operand he 1) pre).bind fun trueSet => ?_
    refine (eval_keeps hverify hrun (known_operand he 2) _).bind fun falseSet => ?_
    refine Establishes.pure fun hpre first hfirst => ?_
    obtain ⟨whenTrue, whenFalse, rfl, rfl, hvalues⟩ := splitOf_eq_some hfirst
    exact ⟨hop, whenTrue, whenFalse, hvalues, hpre.1.2, hpre.2⟩
  · rw [if_neg hop]
    exact Establishes.pure fun _ _ h => nomatch h

/-- **The search.**  What it finds is below the stack and separates the
values. -/
theorem searchSelect_keeps (hverify : verify c.function level = true)
  (hrun : SsaRun c.function host b run) (fuel : Nat) {stack : List Expr} (visited : List Expr)
  (hstack : ∀ x ∈ stack, c.Known x) (pre : Prop) :
  c.Keeps host b run pre [] (c.searchSelect values fuel stack visited)
    fun found => ∀ select first, found = some (select, first) →
      (∃ x ∈ stack, Expr.SubExpr select x) ∧ Separates c host run values select first := by
  induction fuel generalizing stack visited pre with
  | zero => exact Establishes.pure fun _ _ _ h => nomatch h
  | succ fuel ih =>
    cases stack with
    | nil => exact Establishes.pure fun _ _ _ h => nomatch h
    | cons e stack =>
      have he := hstack e (List.mem_cons_self ..)
      have hrest := fun x hx => hstack x (List.mem_cons_of_mem e hx)
      rw [searchSelect]
      split
      · refine (ih visited hrest pre).weaken (fun h => h) fun _ found h select first hfound => ?_
        obtain ⟨⟨x, hx, hsub⟩, hsep⟩ := h select first hfound
        exact ⟨⟨x, List.mem_cons_of_mem _ hx, hsub⟩, hsep⟩
      · refine (splits_keeps hverify hrun he pre).bind fun found => ?_
        cases found with
        | some first =>
          refine Establishes.pure fun hpre select first' hfound => ?_
          obtain ⟨rfl, rfl⟩ := Prod.mk.inj (Option.some.inj hfound)
          exact ⟨⟨e, List.mem_cons_self .., .refl e⟩, hpre.2 _ rfl⟩
        | none =>
          refine (ih _ (fun x hx => ?_) _).weaken (fun h => h)
            fun _ found h select first hfound => ?_
          · rcases List.mem_append.mp hx with hx | hx
            · exact known_of_operand he (List.mem_reverse.mp hx)
            · exact hrest x hx
          · obtain ⟨⟨x, hx, hsub⟩, hsep⟩ := h select first hfound
            refine ⟨?_, hsep⟩
            rcases List.mem_append.mp hx with hx | hx
            · exact ⟨e, List.mem_cons_self .., .step (List.mem_reverse.mp hx) hsub⟩
            · exact ⟨x, List.mem_cons_of_mem _ hx, hsub⟩

end Search

/-! ## The `if` and the dispatch -/

section Dispatch

variable {W : Type} {f : IlFunction} {host : HostFloat} {b : Backend W} {values : List U64}
  {index select : Expr} {first : Bool}

/-- At every point of every run the index has the value of the select. -/
def IndexIsSelect (f : IlFunction) (host : HostFloat) (b : Backend W) (index select : Expr) : Prop :=
  ∀ run, SsaRun f host b run → ∀ s ∈ run, ∀ depth depth' v u,
    eval (s.env f host) index depth = .ok v → eval (s.env f host) select depth' = .ok u → v = u

/-- At every point of every run the index has the value that reaches the arm
the `if` takes. -/
def IfIsDispatch (f : IlFunction) (host : HostFloat) (b : Backend W) (index condition : Expr)
    (d : DispatchValues) : Prop :=
  ∀ run, SsaRun f host b run → ∀ s ∈ run, ∀ depth depth' v k,
    eval (s.env f host) index depth = .ok v → eval (s.env f host) condition depth' = .ok k →
      v = word (d.values.getD (d.armTaken k) 0#64)

theorem searchDispatch_separates {run : List (SsaState W)} {level : Maturity}
  (hverify : verify f level = true) (hrun : SsaRun f host b run) (hindex : index ∈ f.exprs)
  (hfair : (bare f).Fair host b run (searchDispatch f values index).2)
  (hfound : (searchDispatch f values index).1 = some (select, first)) :
  Expr.SubExpr select index ∧ Separates (bare f) host run values select first := by
  have hknown : ∀ x ∈ [index], (bare f).Known x := fun x hx =>
    .inl (List.mem_singleton.mp hx ▸ hindex)
  have hkeeps := (eval_keeps hverify hrun (hknown index (List.mem_cons_self ..)) True).bind
    fun _ => @searchSelect_keeps _ _ _ _ _ values _ hverify hrun (index.nodes + 1) _ [] hknown _
  obtain ⟨-, hspec⟩ := hkeeps.spec trivial .initial remembers_initial hfair
  obtain ⟨⟨x, hx, hsub⟩, hsep⟩ := hspec select first hfound
  exact ⟨List.mem_singleton.mp hx ▸ hsub, hsep⟩

theorem subExpr_mem {e s : Expr} (hs : Expr.SubExpr s e) (he : e ∈ f.exprs) : s ∈ f.exprs := by
  induction hs with
  | refl => exact he
  | step hx _ ih => exact ih (f.closed _ he _ hx)

theorem select_parts {level : Maturity} (hverify : verify f level = true)
  (hmem : select ∈ f.exprs) (hop : select.op = .select) :
  ∃ t i x y z, select = .ternary .select t i x y z := by
  have hverified := Verifier.verified_of_checkExpressions
    (Verifier.checkExpressions_of_verify hverify) hmem
  have hcount := (Bool.and_eq_true_iff.mp (Bool.and_eq_true_iff.mp
    (Bool.and_eq_true_iff.mp (Expr.verified_iff.mp hverified).1).1).1).1
  simp only [Bool.and_eq_true, decide_eq_true_eq, hop] at hcount
  cases select with
  | ternary o t i x y z =>
    obtain rfl : o = .select := hop
    exact ⟨t, i, x, y, z, rfl⟩
  | leaf o t i => exact absurd hcount.1 (by simp [Expr.operandCount, ExprOp.info])
  | unary o t i x => exact absurd hcount.1 (by simp [Expr.operandCount, ExprOp.info])
  | binary o t i x y => exact absurd hcount.1 (by simp [Expr.operandCount, ExprOp.info])

theorem Separates.value {run : List (SsaState W)} {t : Ty} {i : U64} {x y z : Expr}
  {s : SsaState W} {depth : Nat} {u : U128}
  (h : Separates (bare f) host run values (.ternary .select t i x y z) first) (hs : s ∈ run)
  (hu : eval (s.env f host) (.ternary .select t i x y z) depth = .ok u) :
  ∃ k, eval (s.env f host) x (depth + 1) = .ok k ∧
    u = word (values.getD (DispatchValues.armTaken ⟨values, none, first⟩ k) 0#64) := by
  obtain ⟨whenTrue, whenFalse, hvalues, htrue, hfalse⟩ := h.arms
  obtain ⟨args, hargs, hop⟩ := @eval_cases (.ternary .select t i x y z) _ _ _ rfl hu
  rcases hargs with _ | ⟨hk, _ | ⟨hp, _ | ⟨hq, ⟨⟩⟩⟩⟩
  rename_i k p q
  refine ⟨k, hk, ?_⟩
  have hop : (if k.lo &&& 1#64 ≠ 0#64 then p else q) = u := Except.ok.inj hop
  obtain ⟨p', hp', rfl, -⟩ := htrue s hs _ p hp
  obtain ⟨q', hq', rfl, -⟩ := hfalse s hs _ q hq
  obtain rfl := List.mem_singleton.mp hp'
  obtain rfl := List.mem_singleton.mp hq'
  rw [← hop, hvalues, DispatchValues.armTaken]
  cases first <;> split <;> rfl

/-- A condition comes from a select that the search found. -/
theorem select_of_matchDispatchValues {preciseIndexSet : IlFunction → Expr → Option (List U64)}
  {targetCount : Nat} {condition : Expr} {d : DispatchValues}
  (hmatch : matchDispatchValues preciseIndexSet f index targetCount = some d)
  (hcondition : d.condition = some condition) :
  ∃ select, (searchDispatch f d.values index).1 = some (select, d.conditionTrueIsFirst) ∧
    condition = operand select 0 := by
  unfold matchDispatchValues at hmatch
  split at hmatch
  · exact nomatch hmatch
  · obtain ⟨values, -, hmatch⟩ := Option.bind_eq_some_iff.mp hmatch
    split at hmatch
    · split at hmatch
      · rename_i select first hfound
        obtain rfl := Option.some.inj hmatch
        exact ⟨select, hfound, (Option.some.inj hcondition).symm⟩
      · obtain rfl := Option.some.inj hmatch
        exact nomatch hcondition
    · obtain rfl := Option.some.inj hmatch
      exact nomatch hcondition

end Dispatch

/-! ## A dispatch on the result of a call -/

/-- What the call returned. -/
def calledValue : Expr := .leaf .value (Ty.integer 64) 0#64

/-- Whether it is zero. -/
def calledZero : Expr := .binary .cmpEq Ty.boolean 0#64 calledValue (loopConst 0#64)

/-- One if it is zero and zero if it is not. -/
def calledSelect : Expr :=
  .ternary .select (Ty.integer 64) 0#64 calledZero (loopConst 1#64) (loopConst 0#64)

/-- The select with its two values swapped. -/
def calledSwapped : Expr := .binary .xor (Ty.integer 64) 0#64 calledSelect (loopConst 1#64)

/-- The call, without the pool's record of it. -/
def calling : PoolOp :=
  { code := .call, type := Ty.integer 64, va := 0x1000#64, result := some 0, payload := 0
    operands := [loopConst 0#64], targets := [], origin := 0 }

/-- A call and a branch to where `index` says. -/
def callFunction (index : Expr) (hindex : index ∈ [calledSelect, calledSwapped]) : IlFunction where
  file := .empty
  nameOf _ := ""
  passCount := 1
  entryBlock := some 0
  blocks := [⟨0x1000#64, 0x1008#64, [0, 1], [], [], false⟩]
  ops :=
    [calling,
     { code := .indirectBranch, type := Ty.voidType, va := 0x1004#64, result := none, payload := 0
       operands := [index], targets := [], origin := 0 }]
  values := [⟨Ty.integer 64, some 0, some 0⟩]
  exprs := [loopConst 0#64, loopConst 1#64, calledValue, calledZero, calledSelect, calledSwapped]
  values_le := by decide
  operands_mem := by
    intro op hop e he
    simp only [List.mem_cons, List.not_mem_nil, or_false] at hop hindex
    rcases hop with rfl | rfl
    · obtain rfl := List.mem_singleton.mp he
      exact List.mem_cons_self ..
    · obtain rfl := List.mem_singleton.mp he
      rcases hindex with rfl | rfl <;> decide
  closed := by decide

def swappedDispatch : IlFunction := callFunction calledSwapped (by decide)

/-- The state behind a call that returned zero. -/
def afterCall (f : IlFunction) : SsaState Unit :=
  ⟨0, ((loopStart f).rest.drop 1), (loopStart f).machine.define (some 0) U128.zero⟩

def plainDispatch : IlFunction := callFunction calledSelect (by decide)

end Xdec

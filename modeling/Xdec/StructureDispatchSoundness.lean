import Xdec.SsaRun
import Xdec.StructureDispatch

/-!
# When a recovered switch takes the tests' way

The walk of `collectTree` builds a decision tree; a value walks the same tests in
the function (`Rep.walk`).  The switch sends a value where the tests send it
exactly when the value passes its own case's test, or that case's handler is the
default anyway: an ordered test can keep an equality test away from its constant,
and nothing in the walk looks for that.
-/

namespace Xdec

/-- Constants are stored cut to their width, as `Function::constant` does. -/
def IlFunction.Normalised (f : IlFunction) : Prop :=
  ∀ e ∈ f.exprs, e.op = .const → zeroExtend e.immediate e.bits = e.immediate

namespace Structurizer

variable {s : Structurizer} {level : Maturity} {env : Env} {v : U128} {block : Nat}

/-! ## One test -/

theorem testOf_of_match {allow : Bool} {test : ValueTest}
  (h : s.matchValueTest block allow = some test) :
  ∃ op first second rest, s.terminatorOf block = some op ∧ op.code = .condBranch ∧
    op.targets = first :: second :: rest ∧ testOf (op.operand 0) first second = some test := by
  unfold matchValueTest at h
  cases hterm : s.terminatorOf block with
  | none => simp [hterm] at h
  | some op =>
    simp only [hterm] at h
    split at h
    · cases h
    · rename_i hcode
      split at h
      · split at h
        · rename_i first second rest htargets
          exact ⟨op, first, second, rest, rfl, by simpa using hcode, htargets, h⟩
        · cases h
      · cases h

theorem condition_mem {op : Op} (hverify : verify s.function level = true)
  (hterm : s.terminatorOf block = some op) (hcode : op.code = .condBranch) :
  op.operand 0 ∈ s.function.exprs := by
  unfold terminatorOf blockOps at hterm
  obtain ⟨hlast, -⟩ := Option.filter_eq_some_iff.mp hterm
  have hmem := List.mem_of_getLast? hlast
  cases hblock : s.function.blocks[block]? with
  | none => simp [hblock] at hmem
  | some b =>
    simp only [hblock, Option.map_some, Option.getD_some] at hmem
    have hcheck := checkOpCode_of_verify hverify hblock hmem
    simp only [Verifier.checkOpCode, hcode, Verifier.expectOperands, Bool.and_eq_true,
      beq_iff_eq] at hcheck
    obtain ⟨x, hx⟩ := List.length_eq_one_iff.mp hcheck.1.1
    obtain ⟨pool, hpool, rfl⟩ := List.mem_map.mp hmem
    obtain ⟨id, -, hget⟩ := List.mem_filterMap.mp hpool
    refine s.function.operands_mem pool (List.mem_of_getElem? hget) _ ?_
    rw [Op.operand, hx]
    exact List.mem_singleton_self x

/-- A normalised constant of a type that can be evaluated is its immediate. -/
theorem den_const {f : IlFunction} {e : Expr} {value : U64} (hverify : verify f level = true)
  (hnorm : f.Normalised) (he : e ∈ f.exprs) (hconst : e.asConstant = some value)
  (hwide : ¬ (e.bits > 128 ∧ e.type.isFlags = false)) : den env e = some (word value) := by
  have hop : e.op = .const ∧ e.immediate = value := by
    unfold Expr.asConstant at hconst
    split at hconst
    · rename_i hop
      exact ⟨hop, Option.some.inj hconst⟩
    · cases hconst
  have hverified := Verifier.verified_of_checkExpressions
    (Verifier.checkExpressions_of_verify hverify) he
  have hnode := (Expr.verified_iff.mp hverified).1
  have hnil : e.operands = [] := by
    simp only [Expr.nodeVerified, Bool.and_eq_true, decide_eq_true_eq, hop.1, ExprOp.info,
      Expr.operandCount] at hnode
    exact List.length_eq_zero_iff.mp (Nat.le_zero.mp hnode.1.1.1.2)
  refine den_some_iff.mpr ⟨hwide, [], hnil ▸ .nil, ?_⟩
  have hcut := congrArg BitVec.toNat (hnorm e he hop.1)
  rw [zeroExtend_toNat] at hcut
  simp only [applyOp, hop.1, hop.2] at hcut ⊢
  refine congrArg Except.ok (U128.eq_of_toNat_eq ?_)
  rw [U128.mask_toNat, word_toNat, hcut]

/-- A comparison of two values, whatever their type. -/
theorem den_compare {o : ExprOp} {t : Ty} {i : U64} {a b : Expr} {x y : U128}
  (ho : o.info.result = .boolean ∧ (binSem o).isSome = true) (ht : t.isBoolean = true)
  (hvalid : t.valid = true) (ha : den env a = some x) (hb : den env b = some y) :
  ∃ c, den env (.binary o t i a b) = some c ∧
    (o = .cmpEq → c = boolValue (x == y)) ∧ (o = .cmpNe → c = boolValue (x != y)) := by
  have hwide : ¬ (t.bits > 128 ∧ t.isFlags = false) := by
    rintro ⟨hgt, -⟩
    simp only [Ty.isBoolean, Bool.and_eq_true, beq_iff_eq] at ht
    simp only [Ty.valid, ht.1, Bool.and_eq_true, beq_iff_eq] at hvalid
    simp only [Ty.bits, ht.2, hvalid.2] at hgt
    omega
  have hread : ∀ u, readArg o u = u := fun u => by
    obtain ⟨g, hg⟩ := Option.isSome_iff_exists.mp ho.2
    rw [readArg, readsFlags_of_binSem hg, if_neg (by decide)]
  have hwords : ∀ u w : U128, (u.lo == w.lo && u.hi == w.hi) = (u == w) := fun u w => by
    cases u
    cases w
    rw [Bool.eq_iff_iff]
    simp
  have hwordsNe : ∀ u w : U128, (u.lo != w.lo || u.hi != w.hi) = (u != w) := fun u w => by
    simp only [bne, ← hwords u w, Bool.not_and]
  suffices hc : ∃ c, applyOp env (.binary o t i a b) [x, y] = .ok c ∧
      (o = .cmpEq → c = boolValue (x == y)) ∧ (o = .cmpNe → c = boolValue (x != y)) by
    obtain ⟨c, happ, heq, hne⟩ := hc
    exact ⟨c, den_binary_iff.mpr ⟨hwide, x, y, ha, hb, by rw [hread, hread]; exact happ⟩, heq, hne⟩
  cases o <;> simp only [ExprOp.info, binSem, reduceCtorEq, Option.isSome_none, false_and,
    and_false, Bool.false_eq_true] at ho <;>
    refine ⟨_, rfl, ?_, ?_⟩ <;> intro hkind <;> try cases hkind
  · rw [← hwords]
    rfl
  · rw [← hwordsNe]
    rfl

/-- The way a value takes at a test of its own. -/
theorem branches_of_match {allow : Bool} {test : ValueTest}
  (hverify : verify s.function level = true) (hnorm : s.function.Normalised)
  (h : s.matchValueTest block allow = some test) (hv : den env test.spine = some v) :
  ∃ slot target, s.Branches env block slot target ∧
    (test.equality = true → (slot = s.equalSlot block ↔ v = word test.value) ∧
      target = if slot = s.equalSlot block then test.taken else test.next) ∧
    (test.equality = false → target = test.taken ∨ target = test.next) := by
  obtain ⟨op, first, second, rest, hterm, hcode, htargets, htest⟩ := testOf_of_match h
  have hmem := condition_mem hverify hterm hcode
  have hverified := Verifier.verified_of_checkExpressions
    (Verifier.checkExpressions_of_verify hverify) hmem
  have hslot : ∀ c : U128, op.targets[if c.lo &&& 1#64 ≠ 0#64 then 0 else 1]? =
      some (if c.lo &&& 1#64 ≠ 0#64 then first else second) := by
    intro c
    rw [htargets]
    split <;> rfl
  have hequal : s.equalSlot block = if (op.operand 0).op = .cmpNe then 1 else 0 := by
    simp [equalSlot, hterm]
  -- Every accepted condition compares the discriminant with a constant.
  obtain ⟨o, t, i, a, b, hcond⟩ : ∃ o t i a b, op.operand 0 = .binary o t i a b := by
    unfold testOf at htest
    split at htest
    case h_7 => cases htest
    all_goals exact ⟨_, _, _, _, _, by assumption⟩
  rw [hcond] at hmem hverified htest hequal
  have hnode := (Expr.verified_iff.mp hverified).1
  have hclosed := s.function.closed _ hmem
  have hconst : ∀ {e d : Expr} {value : U64} {x : U128}, e ∈ s.function.exprs →
      e.asConstant = some value → e.type = d.type → den env d = some x →
      den env e = some (word value) := fun he hval htype hd =>
    den_const hverify hnorm he hval (by
      rw [Expr.bits, htype]
      exact (den_some_iff.mp hd).1)
  have hcompare : o.info.result = .boolean → (binSem o).isSome = true →
      ∀ {x y}, den env a = some x → den env b = some y →
        ∃ c, den env (.binary o t i a b) = some c ∧
          (o = .cmpEq → c = boolValue (x == y)) ∧ (o = .cmpNe → c = boolValue (x != y)) := by
    intro hres hsome x y hx hy
    simp only [Expr.nodeVerified, Bool.and_eq_true, Expr.resultRuleOk, Expr.op_binary, hres,
      Expr.type_binary] at hnode
    exact den_compare ⟨hres, hsome⟩ hnode.1.2.1 hnode.1.1.2 hx hy
  have htypes : o.info.result = .boolean → a.type = b.type := by
    intro hres
    simp only [Expr.nodeVerified, Bool.and_eq_true, Expr.resultRuleOk, Expr.op_binary, hres,
      Expr.operands_binary, beq_iff_eq] at hnode
    exact hnode.1.2.2
  have hbranch : ∀ c, den env (.binary o t i a b) = some c →
      s.Branches env block (if c.lo &&& 1#64 ≠ 0#64 then 0 else 1)
        (if c.lo &&& 1#64 ≠ 0#64 then first else second) :=
    fun c hc => ⟨op, c, hterm, by rw [hcond]; exact hc, rfl, hslot c⟩
  have hbit : ∀ p : Bool, ((boolValue p).lo &&& 1#64 ≠ 0#64) ↔ p = true := by decide
  cases o <;> simp only [testOf, reduceCtorEq] at htest
  case cmpEq =>
    obtain ⟨value, hval, rfl⟩ := Option.map_eq_some_iff.mp htest
    have hb := hconst (hclosed b (by simp)) hval (htypes rfl).symm hv
    obtain ⟨c, hc, heq, -⟩ := hcompare rfl rfl hv hb
    obtain rfl := heq rfl
    refine ⟨_, _, hbranch _ hc, fun _ => ?_, by rintro ⟨⟩⟩
    rw [hequal]
    by_cases hvv : v = word value <;> simp [hbit, hvv]
  case cmpNe =>
    obtain ⟨value, hval, rfl⟩ := Option.map_eq_some_iff.mp htest
    have hb := hconst (hclosed b (by simp)) hval (htypes rfl).symm hv
    obtain ⟨c, hc, -, hne⟩ := hcompare rfl rfl hv hb
    obtain rfl := hne rfl
    refine ⟨_, _, hbranch _ hc, fun _ => ?_, by rintro ⟨⟩⟩
    rw [hequal]
    by_cases hvv : v = word value <;> simp [hbit, hvv]
  case cmpLtU | cmpLeU | cmpLtS | cmpLeS =>
    have hdone : ∀ {x y}, den env a = some x → den env b = some y →
        test.equality = false ∧ test.taken = first ∧ test.next = second →
        ∃ slot target, s.Branches env block slot target ∧
          (test.equality = true → (slot = s.equalSlot block ↔ v = word test.value) ∧
            target = if slot = s.equalSlot block then test.taken else test.next) ∧
          (test.equality = false → target = test.taken ∨ target = test.next) := by
      rintro x y hx hy ⟨hkind, htaken, hnext⟩
      obtain ⟨c, hc, -⟩ := hcompare rfl rfl hx hy
      refine ⟨_, _, hbranch c hc, fun htrue => ?_, fun _ => ?_⟩
      · rw [hkind] at htrue
        cases htrue
      · rw [htaken, hnext]
        split
        · exact .inl rfl
        · exact .inr rfl
    split at htest
    · rename_i hsome
      obtain ⟨value, hval⟩ := Option.isSome_iff_exists.mp hsome
      obtain rfl := Option.some.inj htest
      exact hdone hv (hconst (hclosed b (by simp)) hval (htypes rfl).symm hv) ⟨rfl, rfl, rfl⟩
    · split at htest
      · rename_i hsome
        obtain ⟨value, hval⟩ := Option.isSome_iff_exists.mp hsome
        obtain rfl := Option.some.inj htest
        exact hdone (hconst (hclosed a (by simp)) hval (htypes rfl) hv) hv ⟨rfl, rfl, rfl⟩
      · cases htest

/-! ## The tree of a walk -/

/-- The tree of the tests that the walk from a block meets, in a state. -/
inductive Rep (s : Structurizer) (head : Nat) (env : Env) (v : U128) :
    Nat → TestTree U128 Nat → Prop where
  | leaf (block : Nat) : Rep s head env v block (.leaf block)
  | equal {block slot target : Nat} {test : ValueTest} {rest : TestTree U128 Nat}
      (htest : s.matchValueTest block (block == head) = some test) (heq : test.equality = true)
      (hbranch : s.Branches env block slot target)
      (hslot : slot = s.equalSlot block ↔ v = word test.value)
      (htarget : target = if slot = s.equalSlot block then test.taken else test.next)
      (hrest : Rep s head env v test.next rest) :
      Rep s head env v block (.equal block (word test.value) test.taken rest)
  | ordered {block slot target : Nat} {test : ValueTest} {holds : U128 → Bool}
      {yes no : TestTree U128 Nat}
      (htest : s.matchValueTest block (block == head) = some test) (heq : test.equality = false)
      (hbranch : s.Branches env block slot target)
      (htarget : target = if holds v then test.taken else test.next)
      (hyes : Rep s head env v test.taken yes) (hno : Rep s head env v test.next no) :
      Rep s head env v block (.ordered block holds yes no)

variable {head : Nat} {T : TestTree U128 Nat} {absorbed : List Nat}

/-- What the equality test of a block compares with, and where it goes. -/
def labelOf (s : Structurizer) (head block : Nat) : Option (U128 × Nat) :=
  match s.matchValueTest block (block == head) with
  | none => none
  | some test => if test.equality then some (word test.value, test.taken) else none

theorem Rep.labelled (h : Rep s head env v block T) : T.Labelled (s.labelOf head) := by
  induction h with
  | leaf _ => trivial
  | equal htest heq _ _ _ _ ih =>
    refine ⟨?_, ih⟩
    rw [labelOf, htest]
    exact if_pos heq
  | ordered htest heq _ _ _ _ ihYes ihNo =>
    refine ⟨?_, ihYes, ihNo⟩
    rw [labelOf, htest]
    exact if_neg (by rw [heq]; decide)

theorem Rep.walk (h : Rep s head env v block T) (htests : ∀ t ∈ T.tests, t ∈ absorbed)
  (hleaves : ∀ b ∈ T.leaves, b ∉ absorbed) :
  s.Walk head env absorbed block (T.visits v) (T.ends v) := by
  induction h with
  | leaf block => exact .leave (hleaves block (List.mem_singleton_self _))
  | @equal block slot target test rest htest heq hbranch hslot htarget _ ih =>
    have hmem := htests block (List.mem_cons_self ..)
    simp only [TestTree.visits, TestTree.ends]
    by_cases hv : v = word test.value
    · have hs := hslot.mpr hv
      rw [if_pos hs] at htarget
      rw [if_pos hv, if_pos hv, ← htarget]
      exact .hit hmem htest heq hbranch hs
    · have hs := mt hslot.mp hv
      rw [if_neg hs] at htarget
      subst htarget
      rw [if_neg hv, if_neg hv]
      exact .pass hmem htest heq hbranch hs
        (ih (fun t ht => htests t (List.mem_cons_of_mem _ ht)) hleaves)
  | @ordered block slot target test holds yes no htest heq hbranch htarget _ _ ihYes ihNo =>
    have hmem := htests block (List.mem_cons_self ..)
    have htestsNo : ∀ t ∈ no.tests, t ∈ absorbed := fun t ht =>
      htests t (List.mem_cons_of_mem _ (List.mem_append_left _ ht))
    have htestsYes : ∀ t ∈ yes.tests, t ∈ absorbed := fun t ht =>
      htests t (List.mem_cons_of_mem _ (List.mem_append_right _ ht))
    simp only [TestTree.visits, TestTree.ends]
    subst htarget
    by_cases hv : holds v = true
    · rw [if_pos hv] at hbranch
      rw [if_pos hv, if_pos hv]
      exact .split hmem htest heq hbranch
        (ihYes htestsYes fun b hb => hleaves b (List.mem_append_right _ hb))
    · rw [if_neg hv] at hbranch
      rw [if_neg hv, if_neg hv]
      exact .split hmem htest heq hbranch
        (ihNo htestsNo fun b hb => hleaves b (List.mem_append_left _ hb))

theorem Branches.unique {slot slot' target target' : Nat}
  (h : s.Branches env block slot target) (h' : s.Branches env block slot' target') :
  slot = slot' ∧ target = target' := by
  obtain ⟨op, c, hterm, hc, rfl, htarget⟩ := h
  obtain ⟨op', c', hterm', hc', rfl, htarget'⟩ := h'
  obtain rfl := Option.some.inj (hterm.symm.trans hterm')
  obtain rfl := Option.some.inj (hc.symm.trans hc')
  exact ⟨rfl, Option.some.inj (htarget.symm.trans htarget')⟩

theorem Walk.unique {path path' : List Nat} {r r' : Nat}
  (h : s.Walk head env absorbed block path r) (h' : s.Walk head env absorbed block path' r') :
  path = path' ∧ r = r' := by
  induction h generalizing path' r' with
  | leave hnot =>
    cases h' with
    | leave _ => exact ⟨rfl, rfl⟩
    | hit hmem | pass hmem | split hmem => exact absurd hmem hnot
  | hit hmem htest heq hbranch hslot =>
    cases h' with
    | leave hnot => exact absurd hmem hnot
    | hit _ _ _ hbranch' _ => exact ⟨rfl, (hbranch.unique hbranch').2⟩
    | pass _ _ _ hbranch' hslot' _ =>
      exact absurd ((hbranch.unique hbranch').1 ▸ hslot) hslot'
    | split _ htest' heq' _ _ =>
      obtain rfl := Option.some.inj (htest.symm.trans htest')
      rw [heq] at heq'
      cases heq'
  | pass hmem htest heq hbranch hslot _ ih =>
    cases h' with
    | leave hnot => exact absurd hmem hnot
    | hit _ _ _ hbranch' hslot' =>
      exact absurd ((hbranch.unique hbranch').1 ▸ hslot') hslot
    | pass _ _ _ hbranch' _ hwalk' =>
      obtain ⟨-, rfl⟩ := hbranch.unique hbranch'
      obtain ⟨rfl, rfl⟩ := ih hwalk'
      exact ⟨rfl, rfl⟩
    | split _ htest' heq' _ _ =>
      obtain rfl := Option.some.inj (htest.symm.trans htest')
      rw [heq] at heq'
      cases heq'
  | split hmem htest heq hbranch _ ih =>
    cases h' with
    | leave hnot => exact absurd hmem hnot
    | hit _ htest' heq' _ _ | pass _ htest' heq' _ _ _ =>
      obtain rfl := Option.some.inj (htest.symm.trans htest')
      rw [heq] at heq'
      cases heq'
    | split _ _ _ hbranch' hwalk' =>
      obtain ⟨-, rfl⟩ := hbranch.unique hbranch'
      obtain ⟨rfl, rfl⟩ := ih hwalk'
      exact ⟨rfl, rfl⟩

/-! ## The loop -/

/-- What the loop has added to a tree by the trees it walked. -/
structure Adds (head : Nat) (tree out : ValueTree) (ts : List (TestTree U128 Nat)) : Prop where
  spine : out.spine = tree.spine
  values : out.values.map word = tree.values.map word ++ (ts.flatMap TestTree.cases).map Prod.fst
  handlers : out.handlers = tree.handlers ++ (ts.flatMap TestTree.cases).map fun c => c.2.1
  preds : out.preds = tree.preds ++ (ts.flatMap TestTree.cases).map fun c => c.2.2
  absorbed : ∀ t ∈ ts.flatMap TestTree.tests, t ∈ out.absorbed
  kept : ∀ t ∈ tree.absorbed, t ∈ out.absorbed
  nodup : tree.values.Nodup → out.values.Nodup
  default : ∀ d, tree.defaultTarget = some d → out.defaultTarget = some d
  leaves : ∀ b ∈ ts.flatMap TestTree.leaves, out.defaultTarget = some b
  apart : ∀ d, out.defaultTarget = some d → tree.defaultTarget = some d ∨ d ≠ head

theorem Adds.nil (tree : ValueTree) : Adds head tree tree [] :=
  ⟨rfl, by simp, by simp, by simp, by rintro _ ⟨⟩, fun _ h => h, fun h => h,
    fun _ h => h, by rintro _ ⟨⟩, fun _ h => .inl h⟩

/-- One turn records a default, a case, or the two halves of an ordered test. -/
theorem collectStep_cases {parent : Option Nat} {tree tree' : ValueTree}
  {pushed : List (Nat × Option Nat)}
  (h : s.collectStep head block parent tree = some (pushed, tree')) :
  (pushed = [] ∧ (∀ d, tree.defaultTarget = some d → d = block) ∧
    (∀ root, s.matchValueTest head true = some root → root.spine = tree.spine → block ≠ head) ∧
    tree' = { tree with
      defaultTarget := some block
      defaultPreds := tree.defaultPreds ++ parent.toList }) ∨
  ∃ test, s.matchValueTest block (block == head) = some test ∧ test.spine = tree.spine ∧
    (test.equality = true ∧ test.value ∉ tree.values ∧ pushed = [(test.next, some block)] ∧
        tree' = { tree with
          absorbed := tree.absorbed ++ [block]
          values := tree.values ++ [test.value]
          handlers := tree.handlers ++ [test.taken]
          preds := tree.preds ++ [block] } ∨
      test.equality = false ∧
        pushed = [(test.next, some block), (test.taken, some block)] ∧
        tree' = { tree with absorbed := tree.absorbed ++ [block] }) := by
  unfold collectStep at h
  simp only at h
  split at h
  · rename_i hnone
    split at h
    · cases h
    · rename_i hdefault
      cases h
      refine .inl ⟨rfl, fun d hd => ?_, fun root hroot hspine hhead => ?_, rfl⟩
      · rw [hd] at hdefault
        simpa using hdefault
      · subst hhead
        simp [hroot, hspine] at hnone
  · rename_i test hfilter
    obtain ⟨htest, hspine⟩ := Option.filter_eq_some_iff.mp hfilter
    have hmatch : s.matchValueTest block (block == head) = some test := by
      split at htest
      · exact htest
      · cases htest
    refine .inr ⟨test, hmatch, eq_of_beq hspine, ?_⟩
    split at h
    · rename_i heq
      split at h
      · cases h
      · rename_i hnew
        cases h
        exact .inl ⟨heq, hnew, rfl, rfl⟩
    · rename_i heq
      cases h
      exact .inr ⟨by simpa using heq, rfl, rfl⟩

theorem collectLoop_spine (fuel : Nat) : ∀ (pending : List (Nat × Option Nat))
  (tree out : ValueTree), s.collectLoop head fuel pending tree = some out →
  out.spine = tree.spine := by
  induction fuel with
  | zero =>
    intro pending tree out h
    cases pending with
    | nil => exact congrArg ValueTree.spine (Option.some.inj h).symm
    | cons p pending => cases h
  | succ fuel ih =>
    intro pending tree out h
    cases pending with
    | nil => exact congrArg ValueTree.spine (Option.some.inj h).symm
    | cons p pending =>
      obtain ⟨block, parent⟩ := p
      rw [collectLoop] at h
      cases hstep : s.collectStep head block parent tree with
      | none =>
        rw [hstep] at h
        cases h
      | some result =>
        obtain ⟨pushed, tree'⟩ := result
        rw [hstep] at h
        have hsame : tree'.spine = tree.spine := by
          rcases collectStep_cases hstep with ⟨-, -, -, rfl⟩ |
            ⟨test, -, -, ⟨-, -, -, rfl⟩ | ⟨-, -, rfl⟩⟩ <;> rfl
        exact (ih _ _ _ h).trans hsame

theorem collectLoop_adds (hverify : verify s.function level = true)
  (hnorm : s.function.Normalised) (fuel : Nat) :
  ∀ (pending : List (Nat × Option Nat)) (tree out : ValueTree),
    s.collectLoop head fuel pending tree = some out → den env tree.spine = some v →
    (∃ root, s.matchValueTest head true = some root ∧ root.spine = tree.spine) →
    ∃ ts, List.Forall₂ (fun p T => Rep s head env v p.1 T) pending ts ∧
      Adds head tree out ts := by
  induction fuel with
  | zero =>
    intro pending tree out h _ _
    cases pending with
    | nil =>
      obtain rfl := Option.some.inj h
      exact ⟨[], .nil, .nil tree⟩
    | cons p pending => cases h
  | succ fuel ih =>
    intro pending tree out h hv hroot
    cases pending with
    | nil =>
      obtain rfl := Option.some.inj h
      exact ⟨[], .nil, .nil tree⟩
    | cons p pending =>
      obtain ⟨block, parent⟩ := p
      rw [collectLoop] at h
      cases hstep : s.collectStep head block parent tree with
      | none =>
        rw [hstep] at h
        cases h
      | some result =>
        obtain ⟨pushed, tree'⟩ := result
        rw [hstep] at h
        have h : s.collectLoop head fuel (pushed ++ pending) tree' = some out := h
        rcases collectStep_cases hstep with ⟨rfl, hdefault, hapart, rfl⟩ |
          ⟨test, htest, hspine, ⟨heq, hnew, rfl, rfl⟩ | ⟨heq, rfl, rfl⟩⟩
        · obtain ⟨ts, hreps, hadds⟩ := ih pending _ out h hv hroot
          refine ⟨.leaf block :: ts, .cons (.leaf block) hreps, ?_⟩
          refine ⟨hadds.spine, hadds.values, hadds.handlers, hadds.preds, hadds.absorbed,
            hadds.kept, hadds.nodup, ?_, ?_, ?_⟩
          · intro d hd
            rw [hdefault d hd]
            exact hadds.default block rfl
          · intro b hb
            rcases List.mem_append.mp hb with hb | hb
            · obtain rfl := List.mem_singleton.mp hb
              exact hadds.default b rfl
            · exact hadds.leaves b hb
          · intro d hd
            obtain ⟨root, hmatch, hspine⟩ := hroot
            rcases hadds.apart d hd with hblock | hne
            · exact .inr (Option.some.inj hblock ▸ hapart root hmatch hspine)
            · exact .inr hne
        · obtain ⟨ts, hreps, hadds⟩ := ih _ _ out h hv hroot
          rw [List.singleton_append] at hreps
          obtain ⟨rest, us, hrest, htail, rfl⟩ := List.forall₂_cons_left_iff.mp hreps
          obtain ⟨slot, target, hbranch, hequal, -⟩ :=
            branches_of_match hverify hnorm htest (hspine ▸ hv)
          obtain ⟨hslot, htarget⟩ := hequal heq
          refine ⟨.equal block (word test.value) test.taken rest :: us,
            .cons (.equal htest heq hbranch hslot htarget hrest) htail, ?_⟩
          refine ⟨hadds.spine, ?_, ?_, ?_, ?_, ?_, ?_, hadds.default, hadds.leaves, hadds.apart⟩
          · simpa [TestTree.cases] using hadds.values
          · simpa [TestTree.cases] using hadds.handlers
          · simpa [TestTree.cases] using hadds.preds
          · intro t ht
            rcases List.mem_cons.mp ht with rfl | ht
            · exact hadds.kept t (List.mem_append_right _ (List.mem_singleton_self t))
            · exact hadds.absorbed t ht
          · exact fun t ht => hadds.kept t (List.mem_append_left _ ht)
          · intro hnodup
            refine hadds.nodup (List.nodup_append.mpr ⟨hnodup, List.nodup_singleton _, ?_⟩)
            intro a ha b hb
            obtain rfl := List.mem_singleton.mp hb
            exact fun hab => hnew (hab ▸ ha)
        · obtain ⟨ts, hreps, hadds⟩ := ih _ _ out h hv hroot
          rw [List.cons_append, List.singleton_append] at hreps
          obtain ⟨no, ws, hno, hrest, rfl⟩ := List.forall₂_cons_left_iff.mp hreps
          obtain ⟨yes, us, hyes, htail, rfl⟩ := List.forall₂_cons_left_iff.mp hrest
          obtain ⟨slot, target, hbranch, -, hordered⟩ :=
            branches_of_match hverify hnorm htest (hspine ▸ hv)
          have hsplit : ∃ holds : U128 → Bool,
              target = if holds v then test.taken else test.next := by
            rcases hordered heq with ht | ht
            · exact ⟨fun _ => true, ht⟩
            · exact ⟨fun _ => false, ht⟩
          obtain ⟨holds, htarget⟩ := hsplit
          refine ⟨.ordered block holds yes no :: us,
            .cons (.ordered htest heq hbranch htarget hyes hno) htail, ?_⟩
          refine ⟨hadds.spine, ?_, ?_, ?_, ?_, ?_, hadds.nodup, hadds.default, ?_, hadds.apart⟩
          · simpa [TestTree.cases] using hadds.values
          · simpa [TestTree.cases] using hadds.handlers
          · simpa [TestTree.cases] using hadds.preds
          · intro t ht
            rcases List.mem_cons.mp ht with rfl | ht
            · exact hadds.kept t (List.mem_append_right _ (List.mem_singleton_self t))
            · refine hadds.absorbed t ?_
              simpa [TestTree.tests, or_assoc] using ht
          · exact fun t ht => hadds.kept t (List.mem_append_left _ ht)
          · intro b hb
            refine hadds.leaves b ?_
            simpa [TestTree.leaves, or_assoc] using hb

end Structurizer

/-! ## The switch -/

/-- The block a tree's cases send a value to. -/
def ValueTree.goesTo (tree : ValueTree) (v : U128) : Nat :=
  TestTree.select ((tree.values.map word).zip tree.handlers) (tree.defaultTarget.getD 0) v

/-- A case's value passes the case's own test, or needs no test. -/
def ValueTree.Reached (tree : ValueTree) (path : List Nat) (v : U128) : Prop :=
  ∀ (i : Nat) (value : U64) (handler test : Nat), tree.values[i]? = some value → tree.handlers[i]? = some handler →
    tree.preds[i]? = some test → v = word value →
    test ∈ path ∨ tree.defaultTarget = some handler

section Switch

variable {tree : ValueTree} {v : U128}

/-- A switch does not depend on the order of its cases. -/
theorem select_perm {table table' : List (U128 × Nat)} {d : Nat} (hperm : table'.Perm table)
  (hnodup : (table.map Prod.fst).Nodup) :
  TestTree.select table' d v = TestTree.select table d v := by
  by_cases hmem : ∃ h, (v, h) ∈ table
  · obtain ⟨h, hmem⟩ := hmem
    rw [TestTree.select_of_mem hnodup hmem,
      TestTree.select_of_mem ((hperm.map Prod.fst).nodup_iff.mpr hnodup) (hperm.mem_iff.mpr hmem)]
  · have hnot : ∀ h, (v, h) ∉ table := fun h hv => hmem ⟨h, hv⟩
    rw [TestTree.select_of_not_mem hnot,
      TestTree.select_of_not_mem fun h hv => hnot h (hperm.mem_iff.mp hv)]

/-- The statement's cases are the tree's, in another order. -/
theorem goesTo_dispatchTree {head : Nat} {sw : DispatchSwitch} (hnodup : tree.values.Nodup)
  (hhandlers : tree.handlers.length = tree.values.length)
  (hpreds : tree.preds.length = tree.values.length) (h : dispatchTree head tree = some sw) :
  sw.goesTo v = tree.goesTo v := by
  unfold dispatchTree at h
  cases hdefault : tree.defaultTarget with
  | none => simp [hdefault] at h
  | some target =>
    simp only [hdefault] at h
    split at h
    · cases h
    · cases h
      have hinj : Function.Injective word := fun a b hab => congrArg U128.lo hab
      have hzip : (tree.handlers.zip tree.preds).map Prod.fst = tree.handlers :=
        List.map_fst_zip (by omega)
      have hlen : (tree.handlers.zip tree.preds).length = tree.values.length := by
        rw [List.length_zip, hhandlers, hpreds, Nat.min_self]
      have hkeys : (((tree.values.map word).zip tree.handlers).map Prod.fst).Nodup := by
        rw [List.map_fst_zip (by rw [List.length_map]; omega)]
        exact hnodup.map hinj
      have htable : (tree.values.zip (tree.handlers.zip tree.preds)).map
          (fun c => (word c.1, c.2.1)) = (tree.values.map word).zip tree.handlers := by
        conv_rhs => rw [← hzip]
        rw [List.zip_map]
        rfl
      unfold DispatchSwitch.goesTo ValueTree.goesTo
      rw [hdefault]
      refine select_perm ?_ hkeys
      rw [List.map_map, List.zip_map', ← htable]
      exact (List.mergeSort_perm _ _).map _

end Switch

/-! ## A tree that is no switch -/

namespace Structurizer

def loaded : Expr := .leaf .value (Ty.integer 64) 0#64

def caseConst (value : U64) : Expr := .leaf .const (Ty.integer 64) value

def equals (value : U64) : Expr := .binary .cmpEq Ty.boolean 0#64 loaded (caseConst value)

def below : Expr := .binary .cmpLtU Ty.boolean 0#64 loaded (caseConst 4#64)

def testOp (va : U64) (cond : Expr) (first second : Nat) : PoolOp where
  code := .condBranch
  type := Ty.voidType
  va := va
  result := none
  payload := 0
  operands := [cond]
  targets := [first, second]
  origin := 0

def retOp (va : U64) : PoolOp where
  code := .ret
  type := Ty.voidType
  va := va
  result := none
  payload := 0
  operands := []
  targets := []
  origin := 0

theorem loaded_values_le : [(⟨Ty.integer 64, some 0, some 0⟩ : ValueInfo)].length ≤ 2 ^ 32 := by
  decide

/-- A loaded value is compared with four first.  Below four it is compared with
`low` and with 1, from four on with 6. -/
def comparing (low : U64) : IlFunction where
  file := .empty
  nameOf _ := ""
  passCount := 1
  entryBlock := some 0
  blocks :=
    [⟨0x1000#64, 0x1004#64, [0, 1], [1], [], false⟩,
     ⟨0x1004#64, 0x1008#64, [2], [2, 3], [0], false⟩,
     ⟨0x1008#64, 0x100c#64, [3], [5, 4], [1], false⟩,
     ⟨0x100c#64, 0x1010#64, [4], [7, 8], [1], false⟩,
     ⟨0x1010#64, 0x1014#64, [5], [6, 8], [2], false⟩,
     ⟨0x1014#64, 0x1018#64, [6], [], [2], false⟩,
     ⟨0x1018#64, 0x101c#64, [7], [], [4], false⟩,
     ⟨0x101c#64, 0x1020#64, [8], [], [3], false⟩,
     ⟨0x1020#64, 0x1024#64, [9], [], [3, 4], false⟩]
  ops :=
    [{ code := .load, type := Ty.integer 64, va := 0x1000#64, result := some 0, payload := 0
       operands := [caseConst 0x2000#64], targets := [], origin := 0 },
     { code := .branch, type := Ty.voidType, va := 0x1000#64, result := none, payload := 0
       operands := [], targets := [1], origin := 0 },
     testOp 0x1004#64 below 2 3, testOp 0x1008#64 (equals low) 5 4,
     testOp 0x100c#64 (equals 6#64) 7 8, testOp 0x1010#64 (equals 1#64) 6 8,
     retOp 0x1014#64, retOp 0x1018#64, retOp 0x101c#64, retOp 0x1020#64]
  values := [⟨Ty.integer 64, some 0, some 0⟩]
  exprs := [loaded, caseConst 0x2000#64, caseConst 4#64, caseConst low, caseConst 1#64,
    caseConst 6#64, below, equals low, equals 1#64, equals 6#64]
  values_le := loaded_values_le
  operands_mem := by
    intro op hop e he
    simp only [List.mem_cons, List.not_mem_nil, or_false] at hop
    rcases hop with rfl | rfl | rfl | rfl | rfl | rfl | rfl | rfl | rfl | rfl <;>
      simp [testOp, retOp] at he <;> subst he <;> simp
  closed := by
    intro e he x hx
    simp only [List.mem_cons, List.not_mem_nil, or_false] at he
    rcases he with rfl | rfl | rfl | rfl | rfl | rfl | rfl | rfl | rfl | rfl <;>
      simp [loaded, caseConst, below, equals] at hx
    all_goals rcases hx with rfl | rfl <;> simp [loaded, caseConst]

def fresh (f : IlFunction) : Structurizer := ⟨f, fun _ => false, fun _ => false⟩

/-- A state in which the loaded value is `v`. -/
def holding (v : U128) : Env := ⟨HostFloat.idle, fun _ => some v, fun _ => U128.zero⟩

theorem normalised_comparing (low : U64) : (comparing low).Normalised := by
  intro e he hop
  simp only [comparing, List.mem_cons, List.not_mem_nil, or_false] at he
  rcases he with rfl | rfl | rfl | rfl | rfl | rfl | rfl | rfl | rfl | rfl
  case inl | inr.inr.inr.inr.inr.inr.inl | inr.inr.inr.inr.inr.inr.inr.inl |
    inr.inr.inr.inr.inr.inr.inr.inr.inl | inr.inr.inr.inr.inr.inr.inr.inr.inr => cases hop
  all_goals
    refine zeroExtend_of_le ?_
    exact BitVec.isLt _

/-- The tree of `comparing low`. -/
def comparingTree (low : U64) : ValueTree where
  spine := loaded
  values := [6#64, low, 1#64]
  handlers := [7, 5, 6]
  preds := [3, 2, 4]
  defaultTarget := some 8
  defaultPreds := [3, 4]
  absorbed := [1, 3, 2, 4]

end Structurizer

end Xdec

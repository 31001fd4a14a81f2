import Xdec.Verify
import Xdec.HostArithmetic

/-!
# Running a verified block

Below SSA a value is read only after its definition in the same block, so an
operand never meets a value that is not there.  Values are the only thing an
operand can miss: what else it can refuse is listed by `Refused`, and how a
block can end by `Machine.Ends`.
-/

namespace Xdec

/-! ## What the verifier has checked of a block -/

/-- Operands an operation is evaluated with. -/
def OpCode.arity : OpCode → Nat
  | .store => 2
  | .writeReg | .load | .condBranch | .indirectBranch | .call => 1
  | _ => 0

/-- An accepted operation, with the values defined before it. -/
structure OpAccepted (f : IlFunction) (level : Maturity) (available : List Nat) (op : Op)
    (rest : List Op) : Prop where
  verified : OpVerified f.file f.ctx available op
  defines : Verifier.shouldDefine op = op.result.isSome
  last : op.code.isTerminator = true → rest = []
  ends : level.atLeast .cfg = true → rest = [] → op.code.isTerminator = true
  counted : op.code ≠ .count
  arity : op.code.arity ≤ op.operands.length

def BlockAccepted (f : IlFunction) (level : Maturity) : List Nat → List Op → Prop
  | _, [] => True
  | available, op :: ops =>
    OpAccepted f level available op ops ∧
      BlockAccepted f level (op.result.toList ++ available) ops

theorem Expr.exists_leaf_of_mem {kind : ExprOp} {e : Expr} {v : Nat} (h : v ∈ e.leaves kind) :
  ∃ s, SubExpr s e ∧ s.op = kind ∧ s.handle = v := by
  induction e using Expr.operandInduction with
  | step e ih =>
    by_cases hop : e.op = kind
    · rw [leaves_of_eq hop, List.mem_singleton] at h
      exact ⟨e, .refl e, hop, h.symm⟩
    · obtain ⟨x, hx, hv⟩ := (mem_leaves_of_ne hop).mp h
      obtain ⟨s, hs, hkind, hhandle⟩ := ih x hx hv
      exact ⟨s, .step hx hs, hkind, hhandle⟩

namespace Verifier

open Xdec.Expr

variable {f : IlFunction} {level : Maturity} {blockId : Nat} {block : IlBlock}

/-- What `checkOpCode` says of the operations that touch a register. -/
theorem readReg_of_check {op : Op} (h : checkOpCode f level blockId op = true)
  (hcode : op.code = .readReg) : op.type = (f.file.info op.reg).type := by
  simp only [checkOpCode, hcode, Bool.and_eq_true, beq_iff_eq] at h
  exact h.2.symm

theorem writeReg_of_check {op : Op} (h : checkOpCode f level blockId op = true)
  (hcode : op.code = .writeReg) :
  ∃ value, op.operands = [value] ∧ value.type = (f.file.info op.reg).type := by
  simp only [checkOpCode, hcode, Bool.and_eq_true, beq_iff_eq, expectOperands] at h
  obtain ⟨⟨hlength, -⟩, htype⟩ := h
  obtain ⟨value, hvalue⟩ := List.length_eq_one_iff.mp hlength
  refine ⟨value, hvalue, ?_⟩
  rw [htype, Op.operand, hvalue]
  rfl

theorem arity_of_check {op : Op} (h : checkOpCode f level blockId op = true)
  (hlevel : level.atLeast .ssa = false) : op.code.arity ≤ op.operands.length := by
  cases hcode : op.code with
  | indirectBranch | call =>
    simp [checkOpCode, hcode, hlevel, expectOperands] at h
    simp [OpCode.arity, h]
  | writeReg | load | store | condBranch =>
    simp [checkOpCode, hcode, expectOperands] at h
    simp [OpCode.arity, h]
  | _ => exact Nat.zero_le _

theorem available_of_checkUse {available : List Nat} {e : Expr}
  (hverified : e.verified f.ctx = true) (h : checkUse f blockId available e = true) :
  ∀ v ∈ e.leaves .value, v ∈ available := by
  intro v hv
  have huse := List.all_eq_true.mp h v hv
  obtain ⟨s, hs, hop, rfl⟩ := exists_leaf_of_mem hv
  have htype := (shaped_of_verified hverified s hs).value hop
  cases hinfo : f.values[s.handle]? with
  | none => simp [IlFunction.ctx, hinfo] at htype
  | some info =>
    simp only [hinfo, Bool.and_eq_true, decide_eq_true_eq] at huse
    exact huse.2

theorem result_of_checkDefinition {op : Op} {opId v : Nat}
  (h : checkDefinition f blockId opId op = true) (hv : op.result = some v) :
  v < f.values.length ∧ f.ctx.valueType v = some op.type := by
  simp only [checkDefinition, hv] at h
  cases hinfo : f.values[v]? with
  | none => simp [hinfo] at h
  | some info =>
    simp only [hinfo, Bool.and_eq_true, beq_iff_eq] at h
    refine ⟨(List.getElem?_eq_some_iff.mp hinfo).1, ?_⟩
    simp [IlFunction.ctx, hinfo, h.2]

theorem definitions_nodup (hcounts : checkCounts f = true)
  (hdefined : ∀ v ∈ definitions f, v < f.values.length) : (definitions f).Nodup := by
  rw [List.nodup_iff_count_le_one]
  intro v
  by_cases hv : v ∈ definitions f
  · have hcount := List.all_eq_true.mp hcounts v (List.mem_range.mpr (hdefined v hv))
    cases hn : (definitions f).count v with
    | zero => exact Nat.zero_le 1
    | succ n =>
      simp only [hn, beq_iff_eq] at hcount
      omega
  · rw [List.count_eq_zero_of_not_mem hv]
    exact Nat.zero_le 1

theorem blockAccepted_of_checks (hlevel : level.atLeast .ssa = false)
  (hexprs : checkExpressions f = true) {ids : List Nat} {seenPhiEnd : Bool} {available : List Nat}
  (hsequence : checkSequence f level blockId seenPhiEnd ids = true)
  (huses : checkUses f blockId available (ids.filterMap fun id => f.ops[id]?) = true)
  (hdefinitions : ∀ id ∈ ids, ∀ op, f.ops[id]? = some op →
    checkDefinition f blockId id op.toOp = true)
  (hnodup : ((ids.filterMap fun id => f.ops[id]?).filterMap fun op => op.result).Nodup)
  (hfresh : ∀ v ∈ (ids.filterMap fun id => f.ops[id]?).filterMap fun op => op.result,
    v ∉ available) :
  BlockAccepted f level available ((ids.filterMap fun id => f.ops[id]?).map PoolOp.toOp) := by
  induction ids generalizing seenPhiEnd available with
  | nil => trivial
  | cons id rest ih =>
    cases hop : f.ops[id]? with
    | none => simp [checkSequence, hop] at hsequence
    | some op =>
      have hcons : ((id :: rest).filterMap fun id => f.ops[id]?) =
          op :: rest.filterMap fun id => f.ops[id]? := by
        rw [List.filterMap_cons, hop]
      rw [hcons] at huses hnodup hfresh ⊢
      simp only [checkSequence, hop, Bool.and_eq_true, Bool.not_eq_eq_eq_not, Bool.not_true,
        Bool.and_eq_false_iff] at hsequence
      obtain ⟨⟨⟨⟨hlast, hends⟩, -⟩, hcheck⟩, hrest⟩ := hsequence
      simp only [checkOp, Bool.and_eq_true, beq_iff_eq] at hcheck
      obtain ⟨⟨-, hcode⟩, hdefines⟩ := hcheck
      simp only [checkUses, Bool.and_eq_true] at huses
      have hmem : op ∈ f.ops := List.mem_of_getElem? hop
      have hverified : ∀ e ∈ op.operands, e.verified f.ctx = true :=
        fun e he => verified_of_checkExpressions hexprs (f.operands_mem op hmem e he)
      have hdefinition := hdefinitions id (List.mem_cons_self ..) op hop
      refine ⟨⟨⟨hverified, ?_, readReg_of_check hcode, ?_, ?_⟩, hdefines, ?_, ?_, ?_,
        arity_of_check hcode hlevel⟩, ?_⟩
      · exact fun e he =>
          available_of_checkUse (hverified e he) (List.all_eq_true.mp huses.1 e he)
      · intro hwrite
        refine ⟨?_, writeReg_of_check hcode hwrite⟩
        have : shouldDefine op.toOp = false := by
          simp [shouldDefine, hwrite, OpCode.definesValue]
        rw [this] at hdefines
        exact Option.isNone_iff_eq_none.mp (by simpa using hdefines.symm)
      · intro v hv
        obtain ⟨hlt, htype⟩ := result_of_checkDefinition hdefinition hv
        refine ⟨Nat.lt_of_lt_of_le hlt f.values_le, hfresh v ?_, htype⟩
        rw [List.filterMap_cons, hv]
        exact List.mem_cons_self ..
      · intro hterm
        have hempty : rest.isEmpty = true := by simpa [hterm] using hlast
        rw [List.isEmpty_iff.mp hempty]
        rfl
      · intro hcfg hnil
        cases rest with
        | nil => simpa [hcfg] using hends
        | cons next rest =>
          cases hnext : f.ops[next]? with
          | none => simp [checkSequence, hnext] at hrest
          | some _ => simp [hnext] at hnil
      · intro hcount
        simp [checkOpCode, hcount] at hcode
      · refine ih hrest huses.2 (fun i hi => hdefinitions i (List.mem_cons_of_mem _ hi)) ?_ ?_
        · rw [List.filterMap_cons] at hnodup
          split at hnodup
          · exact hnodup
          · exact hnodup.of_cons
        · intro v hv havailable
          rcases List.mem_append.mp havailable with hresult | havailable
          · rw [List.filterMap_cons, Option.mem_toList.mp hresult] at hnodup
            exact (List.nodup_cons.mp hnodup).1 hv
          · refine hfresh v ?_ havailable
            rw [List.filterMap_cons]
            split
            · exact hv
            · exact List.mem_cons_of_mem _ hv

theorem of_blocks {p : Nat → IlBlock → Bool}
  (h : ((List.range f.blocks.length).all fun id => (f.blocks[id]?).all (p id)) = true)
  (hblock : f.blocks[blockId]? = some block) : p blockId block = true := by
  have hlt : blockId < f.blocks.length := (List.getElem?_eq_some_iff.mp hblock).1
  have hall := List.all_eq_true.mp h blockId (List.mem_range.mpr hlt)
  simpa only [hblock, Option.all_some] using hall

theorem definitions_lt
  (h : ((List.range f.blocks.length).all fun id => (f.blocks[id]?).all fun block =>
    block.ops.all fun opId => (f.ops[opId]?).all fun op =>
      checkDefinition f id opId op.toOp) = true) :
  ∀ v ∈ definitions f, v < f.values.length := by
  intro v hv
  obtain ⟨block, hmem, hv⟩ := List.mem_flatMap.mp hv
  obtain ⟨op, hop, hv⟩ := List.mem_filterMap.mp hv
  obtain ⟨opId, hid, hop⟩ := List.mem_filterMap.mp hop
  obtain ⟨blockId, hblock⟩ := List.mem_iff_getElem?.mp hmem
  have hall := List.all_eq_true.mp (of_blocks h hblock) opId hid
  simp only [hop, Option.all_some] at hall
  exact (result_of_checkDefinition hall hv).1

/-- **Accepted blocks.**  Below SSA every block of an accepted function is
accepted operation by operation. -/
theorem blockAccepted_of_verify (hverify : verify f level = true)
  (hlevel : level.atLeast .ssa = false) (hblock : f.blocks[blockId]? = some block) :
  BlockAccepted f level [] ((f.opsOf block).map PoolOp.toOp) ∧
    (f.opsOf block = [] → block.external = true) := by
  simp only [verify, checkBlocks, checkValues, checkValueUseOrder, hlevel, Bool.false_or,
    Bool.and_eq_true] at hverify
  obtain ⟨⟨⟨⟨-, hexprs⟩, -, hblocks⟩, ⟨hdefs, hcounts⟩, huses⟩, -⟩ := hverify
  have hcheck := of_blocks hblocks hblock
  have huse := of_blocks huses hblock
  have hdef := of_blocks hdefs hblock
  have hnodup := definitions_nodup hcounts (definitions_lt hdefs)
  unfold checkBlock at hcheck
  constructor
  · by_cases hempty : block.ops.isEmpty = true
    · rw [IlFunction.opsOf, List.isEmpty_iff.mp hempty]
      trivial
    · rw [if_neg hempty] at hcheck
      refine blockAccepted_of_checks hlevel hexprs hcheck huse ?_ ?_ (by rintro _ _ ⟨⟩)
      · intro id hid op hop
        have := List.all_eq_true.mp hdef id hid
        simpa only [hop, Option.all_some] using this
      · refine hnodup.sublist ?_
        unfold definitions
        exact List.sublist_flatten_of_mem
          (List.mem_map.mpr ⟨block, List.mem_of_getElem? hblock, rfl⟩)
  · intro hnil
    unfold IlFunction.opsOf at hnil
    cases hids : block.ops with
    | nil =>
      rw [if_pos (List.isEmpty_iff.mpr hids)] at hcheck
      exact hcheck
    | cons id rest =>
      rw [hids] at hcheck hnil
      cases hop : f.ops[id]? with
      | none => simp [checkSequence, hop] at hcheck
      | some op => simp [hop] at hnil

end Verifier

/-! ## What an operand can refuse -/

/-- A diagnostic of the evaluator other than a missing value. -/
inductive Refused : Diag → Prop where
  | depth : Refused ⟨.analysisLimit, "expression nesting too deep"⟩
  | width {n : Nat} (h : n > 128) :
      Refused ⟨.internal, s!"interpreter supports widths to 128, not {n}"⟩
  | undef : Refused ⟨.liftFailure, "an undef value was evaluated"⟩
  | unsupported {message : String} : Refused ⟨.notImplemented, message⟩

section Refusals

open Xdec.Expr

variable {env : Env} {ctx : Ctx} {e : Expr} {diag : Diag}

theorem mapM_error {ε α β : Type} {f : α → Except ε β} {xs : List α} {failure : ε}
  (h : xs.mapM f = .error failure) : ∃ x ∈ xs, f x = .error failure := by
  induction xs with
  | nil => cases h
  | cons x xs ih =>
    rw [List.mapM_cons] at h
    cases hx : f x with
    | error d =>
      rw [hx] at h
      cases h
      exact ⟨x, List.mem_cons_self .., hx⟩
    | ok v =>
      cases hxs : xs.mapM f with
      | error d =>
        rw [hx, hxs] at h
        cases h
        obtain ⟨y, hy, hfy⟩ := ih hxs
        exact ⟨y, List.mem_cons_of_mem _ hy, hfy⟩
      | ok vs =>
        rw [hx, hxs] at h
        cases h

/-- The switch misses a value only at a value leaf. -/
theorem applyOp_refused {args : List U128} (h : applyOp env e args = .error diag)
  (hvalue : e.op = .value → env.value e.handle ≠ none) : Refused diag := by
  unfold applyOp at h
  cases hop : e.op with
  | value =>
    simp only [hop] at h
    cases hv : env.value (e.immediate.toNat % 2 ^ 32) with
    | none => exact absurd hv (hvalue hop)
    | some v =>
      rw [hv] at h
      cases h
  | undef =>
    simp only [hop] at h
    cases h
    exact .undef
  | _ =>
    simp only [hop] at h
    repeat' split at h
    all_goals first
      | (cases h; exact .unsupported)
      | cases h

theorem evalNode_refused {operands : List (Bool → Nat → Except Diag U128)} {d : Nat}
  (hoperands : ∀ f ∈ operands, ∀ asFlags d, f asFlags d = .error diag → Refused diag)
  (hvalue : e.op = .value → env.value e.handle ≠ none)
  (h : evalNode env e operands d = .error diag) : Refused diag := by
  unfold evalNode at h
  split at h
  · cases h
    exact .depth
  · split at h
    · rename_i hwidth
      simp only [Bool.and_eq_true, decide_eq_true_eq] at hwidth
      cases h
      exact .width hwidth.1
    · cases hargs : operands.mapM fun operand => operand e.op.readsFlags (d + 1) with
      | error other =>
        rw [hargs] at h
        cases h
        obtain ⟨f, hf, hfail⟩ := mapM_error hargs
        exact hoperands f hf _ _ hfail
      | ok args =>
        rw [hargs] at h
        exact applyOp_refused h hvalue

/-- An expression all of whose values are there refuses for another reason. -/
theorem evalAs_refused (hverified : e.verified ctx = true)
  (hvalues : ∀ v ∈ e.leaves .value, env.value v ≠ none) {asFlags : Bool} {d : Nat}
  (h : evalAs env e asFlags d = .error diag) : Refused diag := by
  induction e using operandInduction generalizing asFlags d diag with
  | step e ih =>
    have hnode : e.op = .value → env.value e.handle ≠ none := by
      intro hop
      exact hvalues _ (by rw [leaves_of_eq hop]; exact List.mem_singleton.mpr rfl)
    have hshaped := (shaped_of_verified hverified).node
    have hoperands : ∀ f ∈ e.operands.map (evalAs env), ∀ asFlags d diag,
        f asFlags d = .error diag → Refused diag := by
      intro f hf asFlags d diag hfail
      obtain ⟨x, hx, rfl⟩ := List.mem_map.mp hf
      have hop : e.op ≠ .value := by
        intro hop
        rw [hshaped.leaf (.inl hop)] at hx
        cases hx
      refine ih x hx ((verified_iff.mp hverified).2 x hx) ?_ hfail
      exact fun v hv => hvalues v ((mem_leaves_of_ne hop).mpr ⟨x, hx, hv⟩)
    rw [evalAs_eq] at h
    cases asFlags with
    | false => exact evalNode_refused (fun f hf a d => hoperands f hf a d diag) hnode h
    | true =>
      simp only [evalEnter] at h
      split at h
      · cases hargs : (e.operands.map (evalAs env)).mapM
            fun operand => operand false (d + 1) with
        | error other =>
          rw [hargs] at h
          cases h
          obtain ⟨f, hf, hfail⟩ := mapM_error hargs
          exact hoperands f hf _ _ _ hfail
        | ok args =>
          rw [hargs] at h
          cases h
      · cases hv : evalNode env e (e.operands.map (evalAs env)) (d + 1) with
        | error other =>
          rw [hv] at h
          cases h
          exact evalNode_refused (fun f hf a d => hoperands f hf a d _) hnode hv
        | ok v =>
          rw [hv] at h
          cases h

end Refusals

/-! ## How a block ends -/

namespace Machine

variable {W : Type}

/-- The operations ran one after the other and none ended the block. -/
inductive Reaches (c : BlockContext) (hooks : Hooks W) : List Op → Machine W → Machine W → Prop
  | nil {m : Machine W} : Reaches c hooks [] m m
  | step {op : Op} {ops : List Op} {m m₁ m₂ : Machine W}
      (hgo : hooks.interrupt m.world op = false)
      (hop : runOp c hooks { m with world := hooks.enter m.world op } op = (m₁, none))
      (hrest : Reaches c hooks ops m₁ m₂) : Reaches c hooks (op :: ops) m m₂

/-- The outcomes of a terminator. -/
inductive Terminates (c : BlockContext) (m : Machine W) (op : Op) : ExecOutcome → Prop
  | branch (hcode : op.code = .branch) :
      Terminates c m op
        { ExecOutcome.at_ .branch op.va with target := c.blockVa (op.targets.getD 0 0) }
  | condBranch {v : U128} (hcode : op.code = .condBranch) (hv : m.eval c (op.operand 0) = .ok v) :
      Terminates c m op
        { ExecOutcome.at_ .condBranch op.va with
          condition := v.lo &&& 1#64 ≠ 0#64
          target := c.blockVa (op.targets.getD 0 0)
          fallthrough := c.blockVa (op.targets.getD 1 0) }
  | indirectBranch {v : U128} (hcode : op.code = .indirectBranch)
      (hv : m.eval c (op.operand 0) = .ok v) :
      Terminates c m op { ExecOutcome.at_ .indirectBranch op.va with target := v.lo }
  | ret (hcode : op.code = .ret) : Terminates c m op (.at_ .returned op.va)
  | unreachable (hcode : op.code = .unreachable) : Terminates c m op (.at_ .unreachable op.va)
  | unimplemented (hcode : op.code = .unimplemented) :
      Terminates c m op
        { ExecOutcome.at_ .unimplemented op.va with detail := c.nameOf op.payload }

/-- How an operation ends its block. -/
inductive Ends (c : BlockContext) (hooks : Hooks W) (m : Machine W) (op : Op) :
    ExecOutcome → Prop
  | terminator {o : ExecOutcome} (hterm : op.code.isTerminator = true)
      (ho : Terminates c m op o) : Ends c hooks m op o
  | call {v : U128} (hcode : op.code = .call) (hv : m.eval c (op.operand 0) = .ok v) :
      Ends c hooks m op { ExecOutcome.at_ .call op.va with target := v.lo }
  | intrinsic (hcode : op.code = .intrinsic) :
      Ends c hooks m op { ExecOutcome.at_ .intrinsic op.va with detail := c.nameOf op.payload }
  | readFault {a : U128} {message : String} {w : W} (hcode : op.code = .load)
      (ha : m.eval c (op.operand 0) = .ok a)
      (hfault : hooks.read m.world a.lo (op.type.bits / 8) = (.error message, w)) :
      Ends c hooks m op (.fail message op.va)
  | writeFault {a v : U128} {message : String} {w : W} (hcode : op.code = .store)
      (ha : m.eval c (op.operand 0) = .ok a) (hv : m.eval c (op.operand 1) = .ok v)
      (hfault : hooks.write m.world a.lo (op.type.bits / 8) v = (.error message, w)) :
      Ends c hooks m op (.fail message op.va)
  | refused {e : Expr} {diag : Diag} (he : e ∈ op.operands)
      (heval : Xdec.eval (m.env c) e 0 = .error diag) (hdiag : Refused diag) :
      Ends c hooks m op (.fail diag.format op.va)
  | phi (hcode : op.code = .phi) :
      Ends c hooks m op
        (.fail ("phi nodes do not exist before SSA construction; the interpreter " ++
          "runs at lifted maturity") op.va)

section Steps

variable {f : IlFunction} {level : Maturity} {c : BlockContext} {hooks : Hooks W}
  {m m₁ : Machine W} {op : Op} {rest : List Op} {available : List Nat}

/-- All of these values are there. -/
def HasValues (m : Machine W) (available : List Nat) : Prop :=
  ∀ v ∈ available, m.values v ≠ none

theorem HasValues.define (h : HasValues m available) (result : Option Nat) (x : U128) :
  HasValues (m.define result x) (result.toList ++ available) := by
  intro v hv
  cases result with
  | none => exact h v hv
  | some w =>
    by_cases hvw : v = w
    · subst hvw
      simp [Machine.define]
    · have hmem : v ∈ available := by simpa [hvw] using hv
      simpa [Machine.define, Function.update_of_ne hvw] using h v hmem

/-- An operand refuses only for the reasons listed. -/
theorem eval_refused (hop : OpAccepted f level available op rest) (hvalues : HasValues m available)
  {e : Expr} (he : e ∈ op.operands) {message : String} (h : m.eval c e = .error message) :
  ∃ diag, Xdec.eval (m.env c) e 0 = .error diag ∧ Refused diag ∧ message = diag.format := by
  unfold eval at h
  cases heval : Xdec.eval (m.env c) e 0 with
  | ok v => simp [heval] at h
  | error diag =>
    simp only [heval, Except.error.injEq] at h
    refine ⟨diag, rfl, ?_, h.symm⟩
    exact evalAs_refused (hop.verified.operands e he)
      (fun v hv => hvalues v (hop.verified.usesAvailable e he v hv)) heval

theorem operand_mem (hop : OpAccepted f level available op rest) {i : Nat}
  (hi : i < op.code.arity) : op.operand i ∈ op.operands := by
  have hlt : i < op.operands.length := Nat.lt_of_lt_of_le hi hop.arity
  unfold Op.operand
  rw [List.getD_eq_getElem?_getD, List.getElem?_eq_getElem hlt]
  exact List.getElem_mem hlt

/-- The operand of an operation that fails at it. -/
theorem ends_of_error (hop : OpAccepted f level available op rest)
  (hvalues : HasValues m available) {e : Expr} (he : e ∈ op.operands) {message : String}
  (h : m.eval c e = .error message) : Ends c hooks m op (.fail message op.va) := by
  obtain ⟨diag, heval, hdiag, rfl⟩ := eval_refused hop hvalues he h
  exact .refused he heval hdiag

/-- **One accepted operation.**  It goes on with its value defined, or it ends
the block in one of the ways listed. -/
theorem runOp_accepted (hop : OpAccepted f level available op rest)
  (hvalues : HasValues m available) {o : Option ExecOutcome}
  (h : runOp c hooks m op = (m₁, o)) :
  match o with
  | none => HasValues m₁ (op.result.toList ++ available) ∧ op.code.isTerminator = false
  | some outcome => Ends c hooks m op outcome := by
  have hdefines := hop.defines
  have hfail := @ends_of_error W f level c hooks m op rest available hop hvalues
  have hmem := @operand_mem f level op rest available hop
  have hnone : Verifier.shouldDefine op = false → op.result = none := by
    intro hno
    rw [hno] at hdefines
    exact Option.isNone_iff_eq_none.mp (by simpa using hdefines.symm)
  unfold runOp at h
  cases hcode : op.code with
  | readReg =>
    simp only [hcode, Prod.mk.injEq] at h
    obtain ⟨rfl, rfl⟩ := h
    exact ⟨hvalues.define _ _, rfl⟩
  | writeReg =>
    simp only [hcode] at h
    cases hv : m.eval c (op.operand 0) with
    | error message =>
      simp only [hv, Prod.mk.injEq] at h
      obtain ⟨rfl, rfl⟩ := h
      exact hfail (hmem (by rw [hcode]; decide)) hv
    | ok v =>
      simp only [hv, Prod.mk.injEq] at h
      obtain ⟨rfl, rfl⟩ := h
      refine ⟨?_, rfl⟩
      rw [(hop.verified.writeReg hcode).1]
      exact hvalues
  | load =>
    simp only [hcode] at h
    cases ha : m.eval c (op.operand 0) with
    | error message =>
      simp only [ha, Prod.mk.injEq] at h
      obtain ⟨rfl, rfl⟩ := h
      exact hfail (hmem (by rw [hcode]; decide)) ha
    | ok a =>
      simp only [ha] at h
      split at h
      · rename_i message w hfault
        obtain ⟨rfl, rfl⟩ := Prod.mk.inj h
        exact .readFault hcode ha hfault
      · rename_i contents w hread
        obtain ⟨rfl, rfl⟩ := Prod.mk.inj h
        have hworld : HasValues { m with world := w } available := hvalues
        exact ⟨hworld.define _ _, rfl⟩
  | store =>
    simp only [hcode] at h
    cases ha : m.eval c (op.operand 0) with
    | error message =>
      simp only [ha, Prod.mk.injEq] at h
      obtain ⟨rfl, rfl⟩ := h
      exact hfail (hmem (by rw [hcode]; decide)) ha
    | ok a =>
      cases hv : m.eval c (op.operand 1) with
      | error message =>
        simp only [ha, hv, Prod.mk.injEq] at h
        obtain ⟨rfl, rfl⟩ := h
        exact hfail (hmem (by rw [hcode]; decide)) hv
      | ok v =>
        simp only [ha, hv] at h
        split at h
        · rename_i message w hfault
          obtain ⟨rfl, rfl⟩ := Prod.mk.inj h
          exact .writeFault hcode ha hv hfault
        · obtain ⟨rfl, rfl⟩ := Prod.mk.inj h
          refine ⟨?_, rfl⟩
          rw [hnone (by simp [Verifier.shouldDefine, hcode, OpCode.definesValue])]
          exact hvalues
  | branch =>
    simp only [hcode, Prod.mk.injEq] at h
    obtain ⟨rfl, rfl⟩ := h
    exact .terminator (by rw [hcode]; rfl) (.branch hcode)
  | condBranch =>
    simp only [hcode] at h
    cases hv : m.eval c (op.operand 0) with
    | error message =>
      simp only [hv, Prod.mk.injEq] at h
      obtain ⟨rfl, rfl⟩ := h
      exact hfail (hmem (by rw [hcode]; decide)) hv
    | ok v =>
      simp only [hv, Prod.mk.injEq] at h
      obtain ⟨rfl, rfl⟩ := h
      exact .terminator (by rw [hcode]; rfl) (.condBranch hcode hv)
  | indirectBranch =>
    simp only [hcode] at h
    cases hv : m.eval c (op.operand 0) with
    | error message =>
      simp only [hv, Prod.mk.injEq] at h
      obtain ⟨rfl, rfl⟩ := h
      exact hfail (hmem (by rw [hcode]; decide)) hv
    | ok v =>
      simp only [hv, Prod.mk.injEq] at h
      obtain ⟨rfl, rfl⟩ := h
      exact .terminator (by rw [hcode]; rfl) (.indirectBranch hcode hv)
  | call =>
    simp only [hcode] at h
    cases hv : m.eval c (op.operand 0) with
    | error message =>
      simp only [hv, Prod.mk.injEq] at h
      obtain ⟨rfl, rfl⟩ := h
      exact hfail (hmem (by rw [hcode]; decide)) hv
    | ok v =>
      simp only [hv, Prod.mk.injEq] at h
      obtain ⟨rfl, rfl⟩ := h
      exact .call hcode hv
  | ret =>
    simp only [hcode, Prod.mk.injEq] at h
    obtain ⟨rfl, rfl⟩ := h
    exact .terminator (by rw [hcode]; rfl) (.ret hcode)
  | unreachable =>
    simp only [hcode, Prod.mk.injEq] at h
    obtain ⟨rfl, rfl⟩ := h
    exact .terminator (by rw [hcode]; rfl) (.unreachable hcode)
  | unimplemented =>
    simp only [hcode, Prod.mk.injEq] at h
    obtain ⟨rfl, rfl⟩ := h
    exact .terminator (by rw [hcode]; rfl) (.unimplemented hcode)
  | nop =>
    simp only [hcode, Prod.mk.injEq] at h
    obtain ⟨rfl, rfl⟩ := h
    refine ⟨?_, rfl⟩
    rw [hnone (by simp [Verifier.shouldDefine, hcode, OpCode.definesValue])]
    exact hvalues
  | intrinsic =>
    simp only [hcode] at h
    cases hargs : op.operands.mapM (m.eval c) with
    | error message =>
      simp only [hargs, Prod.mk.injEq] at h
      obtain ⟨rfl, rfl⟩ := h
      obtain ⟨e, he, hfailed⟩ := mapM_error hargs
      exact hfail he hfailed
    | ok arguments =>
      simp only [hargs] at h
      split at h
      · obtain ⟨rfl, rfl⟩ := Prod.mk.inj h
        exact .intrinsic hcode
      · rename_i result w _
        obtain ⟨rfl, rfl⟩ := Prod.mk.inj h
        have hworld : HasValues { m with world := w } available := hvalues
        exact ⟨hworld.define _ _, rfl⟩
  | phi =>
    simp only [hcode, Prod.mk.injEq] at h
    obtain ⟨rfl, rfl⟩ := h
    exact .phi hcode
  | count => exact absurd hcode hop.counted

/-- How the loop over accepted operations comes to an end. -/
inductive Finishes (c : BlockContext) (hooks : Hooks W) (ops : List Op) (m m' : Machine W) :
    ExecOutcome → Prop
  | interrupted {done rest : List Op} {op : Op} (hops : ops = done ++ op :: rest)
      (hreach : Reaches c hooks done m m') (hstop : hooks.interrupt m'.world op = true) :
      Finishes c hooks ops m m' (.at_ .interrupted op.va)
  | ended {done rest : List Op} {op : Op} {m₁ : Machine W} {o : ExecOutcome}
      (hops : ops = done ++ op :: rest) (hreach : Reaches c hooks done m m₁)
      (hgo : hooks.interrupt m₁.world op = false)
      (hlast : op.code.isTerminator = true → rest = [])
      (hends : Ends c hooks { m₁ with world := hooks.enter m₁.world op } op o) :
      Finishes c hooks ops m m' o
  | ranOff (hreach : Reaches c hooks ops m m') (hnone : ∀ op ∈ ops, op.code.isTerminator = false) :
      Finishes c hooks ops m m' (.fail "block has no terminator" c.endVa)

theorem Finishes.cons {ops : List Op} {m' : Machine W} {o : ExecOutcome}
  (hgo : hooks.interrupt m.world op = false)
  (hop : runOp c hooks { m with world := hooks.enter m.world op } op = (m₁, none))
  (hterm : op.code.isTerminator = false) (h : Finishes c hooks ops m₁ m' o) :
  Finishes c hooks (op :: ops) m m' o := by
  cases h with
  | interrupted hops hreach hstop =>
    exact .interrupted (by rw [hops, List.cons_append]) (.step hgo hop hreach) hstop
  | ended hops hreach hgo' hlast hends =>
    exact .ended (by rw [hops, List.cons_append]) (.step hgo hop hreach) hgo' hlast hends
  | ranOff hreach hnone =>
    exact .ranOff (.step hgo hop hreach) (List.forall_mem_cons.mpr ⟨hterm, hnone⟩)

theorem runOps_finishes {ops : List Op} (hops : BlockAccepted f level available ops)
  (hvalues : HasValues m available) :
  Finishes c hooks ops m (runOps c hooks ops m).1 (runOps c hooks ops m).2 := by
  induction ops generalizing available m with
  | nil => exact .ranOff .nil (by rintro _ ⟨⟩)
  | cons op ops ih =>
    obtain ⟨hop, hrest⟩ := hops
    rw [runOps]
    by_cases hstop : hooks.interrupt m.world op = true
    · rw [if_pos hstop]
      exact .interrupted (List.nil_append _).symm .nil hstop
    · have hgo : hooks.interrupt m.world op = false := by simpa using hstop
      rw [if_neg hstop]
      have hentered : HasValues { m with world := hooks.enter m.world op } available := hvalues
      obtain ⟨⟨m₁, o⟩, hrun⟩ :
          ∃ r, runOp c hooks { m with world := hooks.enter m.world op } op = r := ⟨_, rfl⟩
      have hcases := runOp_accepted hop hentered hrun
      cases o with
      | none =>
        simp only [hrun]
        exact (ih hrest hcases.1).cons hgo hrun hcases.2
      | some outcome =>
        simp only [hrun]
        exact .ended (List.nil_append _).symm .nil hgo hop.last hcases

theorem accepted_of_reaches {done : List Op}
  (hops : BlockAccepted f level available (done ++ op :: rest)) (hvalues : HasValues m available)
  (hreach : Reaches c hooks done m m₁) :
  ∃ seen, OpAccepted f level seen op rest ∧ HasValues m₁ seen := by
  induction hreach generalizing available with
  | nil => exact ⟨available, hops.1, hvalues⟩
  | @step first _ m _ _ hgo hop hrest ih =>
    have hentered : HasValues { m with world := hooks.enter m.world first } available := hvalues
    have hcases := runOp_accepted hops.1 hentered hop
    exact ih hops.2 hcases.1

end Steps

end Machine

/-! ## Verified blocks run safely -/

namespace IlFunction

/-- The operations of a block in the interpreter's eyes. -/
def blockOps (f : IlFunction) (block : IlBlock) : List Op := (f.opsOf block).map PoolOp.toOp

/-- What the interpreter reads of the function around a block. -/
def blockContext (f : IlFunction) (host : HostFloat) (block : IlBlock) : BlockContext where
  file := f.file
  host := host
  blockVa b := (f.blocks[b]?.map IlBlock.va).getD 0#64
  nameOf := f.nameOf
  endVa := block.endVa

end IlFunction

section Safety

variable {W : Type}

/-- Runs of a block that only miss what lies outside of the block. -/
structure BlockSafe (f : IlFunction) (level : Maturity) (host : HostFloat) (block : IlBlock)
    (hooks : Hooks W) (start : Machine W) : Prop where
  /-- Before every operation reached, no operand fails for a value not defined yet. -/
  values : ∀ done op rest m, f.blockOps block = done ++ op :: rest →
    Machine.Reaches (f.blockContext host block) hooks done start m → ∀ e ∈ op.operands,
      ∀ message, eval (m.env (f.blockContext host block)) e 0 ≠ .error ⟨.verifyFailure, message⟩
  /-- Every node the evaluator computes stays within the host's arithmetic, but
  for wide flags and types without width. -/
  arithmetic : ∀ op ∈ f.blockOps block, ∀ e ∈ op.operands, ∀ s, Expr.SubExpr s e → s.Supported →
    ∀ args, s.Defined args ∨ s.wideFlags = true ∨ s.widthless = true
  finishes : Machine.Finishes (f.blockContext host block) hooks (f.blockOps block) start
    (Machine.runOps (f.blockContext host block) hooks (f.blockOps block) start).1
    (Machine.runOps (f.blockContext host block) hooks (f.blockOps block) start).2
  terminated : level = .cfg → block.external = false →
    ∃ op ∈ f.blockOps block, op.code.isTerminator = true

theorem exists_terminator {f : IlFunction} {available : List Nat} {ops : List Op}
  (h : BlockAccepted f .cfg available ops) (hne : ops ≠ []) :
  ∃ op ∈ ops, op.code.isTerminator = true := by
  induction ops generalizing available with
  | nil => exact absurd rfl hne
  | cons op ops ih =>
    by_cases hnil : ops = []
    · exact ⟨op, List.mem_cons_self .., h.1.ends rfl hnil⟩
    · obtain ⟨last, hmem, hterm⟩ := ih h.2 hnil
      exact ⟨last, List.mem_cons_of_mem _ hmem, hterm⟩

theorem BlockAccepted.verified {f : IlFunction} {level : Maturity} {available : List Nat}
  {ops : List Op} (h : BlockAccepted f level available ops) {op : Op} (hop : op ∈ ops) :
  ∀ e ∈ op.operands, e.verified f.ctx = true := by
  induction ops generalizing available with
  | nil => cases hop
  | cons first ops ih =>
    rcases List.mem_cons.mp hop with rfl | hop
    · exact h.1.verified.operands
    · exact ih h.2 hop

/-- **Verified blocks.**  A block of a function accepted at Lifted or Cfg runs
safely from any registers and memory. -/
theorem verified_blocks_run_safely {f : IlFunction} {level : Maturity}
    (hlevel : level = .lifted ∨ level = .cfg) (hverify : verify f level = true) {blockId : Nat}
    {block : IlBlock} (hblock : f.blocks[blockId]? = some block) (host : HostFloat)
    (hooks : Hooks W) (registers : Cells) (world : W) :
    BlockSafe f level host block hooks ⟨registers, fun _ => none, world⟩ := by
  have hssa : level.atLeast .ssa = false := by
    rcases hlevel with rfl | rfl <;> rfl
  obtain ⟨haccepted, hempty⟩ := Verifier.blockAccepted_of_verify hverify hssa hblock
  have hstart : Machine.HasValues (⟨registers, fun _ => none, world⟩ : Machine W) [] :=
    by rintro _ ⟨⟩
  refine ⟨?_, ?_, Machine.runOps_finishes haccepted hstart, ?_⟩
  · intro done op rest m hops hreach e he message hfail
    unfold IlFunction.blockOps at hops
    rw [hops] at haccepted
    obtain ⟨seen, hop, hvalues⟩ := Machine.accepted_of_reaches haccepted hstart hreach
    have hrefused := evalAs_refused (hop.verified.operands e he)
      (fun v hv => hvalues v (hop.verified.usesAvailable e he v hv)) hfail
    cases hrefused
  · intro op hop e he s hs hsupported args
    have hverified := hs.verified (haccepted.verified hop e he)
    cases hwide : s.wideFlags with
    | true => exact .inr (.inl rfl)
    | false =>
      cases hwidth : s.widthless with
      | true => exact .inr (.inr rfl)
      | false => exact .inl (Expr.defined_of_verified hverified hsupported hwide hwidth args)
  · rintro rfl hexternal
    refine exists_terminator haccepted ?_
    intro hnil
    have := hempty (List.map_eq_nil_iff.mp hnil)
    rw [hexternal] at this
    cases this

end Safety

/-! ## What acceptance leaves open -/

def wideZero : Expr := .leaf .const (Ty.integer 64) 0#64

/-- Flags of a sum of 255-bit operands. -/
def wideFlagsDef : Expr := .binary .flagDef Ty.flags (packFlagDef .add 255) wideZero wideZero

def wideFlagsTest : Expr :=
  .unary .flagCond Ty.boolean (BitVec.ofNat 64 ConditionCode.equal.index) wideFlagsDef

theorem nil_values_le : ([] : List ValueInfo).length ≤ 2 ^ 32 := by decide

/-- Two blocks: one branches on the flags, the other to an undefined address. -/
def wideFlagsFunction : IlFunction where
  file := .empty
  nameOf _ := ""
  passCount := 1
  entryBlock := some 0
  blocks :=
    [⟨0x1000#64, 0x1004#64, [0], [0, 1], [0], false⟩, ⟨0x1004#64, 0x1008#64, [1], [], [0], false⟩]
  ops :=
    [{ code := .condBranch, type := Ty.voidType, va := 0x1000#64, result := none, payload := 0
       operands := [wideFlagsTest], targets := [0, 1], origin := 0 },
     { code := .indirectBranch, type := Ty.voidType, va := 0x1004#64, result := none, payload := 0
       operands := [Expr.undefined (Ty.integer 64)], targets := [], origin := 0 }]
  values := []
  exprs := [wideZero, wideFlagsDef, wideFlagsTest, Expr.undefined (Ty.integer 64)]
  values_le := nil_values_le
  operands_mem := by decide
  closed := by decide

/-- Surroundings that do nothing. -/
def idleHooks : Hooks Unit where
  interrupt _ _ := false
  enter w _ := w
  intrinsic w _ _ _ := (none, w)
  read w _ _ := (.ok U128.zero, w)
  write w _ _ _ := (.ok (), w)

/-- The first block shifts a host word by 254, the second ends with an error that
is no fault. -/
theorem accepted_block_undefined :
    verify wideFlagsFunction .lifted = true ∧ verify wideFlagsFunction .cfg = true ∧
      (Expr.SubExpr wideFlagsDef wideFlagsTest ∧ wideFlagsDef.Supported ∧
        wideFlagsDef.operands.map (fun x => eval Env.idle x 2) = [.ok U128.zero, .ok U128.zero] ∧
        ¬ wideFlagsDef.Defined [U128.zero, U128.zero]) ∧
      (Machine.runBlock
          (wideFlagsFunction.blockContext HostFloat.idle (wideFlagsFunction.blocks.getD 1 default))
          idleHooks (wideFlagsFunction.blockOps (wideFlagsFunction.blocks.getD 1 default))
          (fun _ => U128.zero) ()).2 =
        .fail "lift-failure: an undef value was evaluated" 0x1004#64 := by
  refine ⟨by decide, by decide, ⟨?_, ?_, by decide, ?_⟩, by decide⟩
  · exact .step (List.mem_singleton.mpr rfl) (.refl _)
  · exact ⟨by decide, by decide⟩
  · exact Expr.not_defined_of_wideFlags (by decide) _

theorem verified_blocks_run_safely_wideFlags :
    BlockSafe wideFlagsFunction .cfg HostFloat.idle (wideFlagsFunction.blocks.getD 0 default)
      idleHooks ⟨fun _ => U128.zero, fun _ => none, ()⟩ := by
  have hblock : wideFlagsFunction.blocks[0]? =
      some (wideFlagsFunction.blocks.getD 0 default) := rfl
  exact verified_blocks_run_safely (.inr rfl) (by decide) hblock _ _ _ _

end Xdec

import Xdec.BlockSteps
import Xdec.DepthFirst

/-!
# The verifier

`verify` accepts a function at a maturity level when its report has no errors.
The pools of the function are lists and a handle is an index; an expression
handle is the tree it stands for, so that operands of expressions and of
operations cannot be absent and cannot refer forward.
-/

namespace Xdec

inductive Maturity where
  | lifted | blockLocal | cfg | ssa | resolved | optimized | vars | structured | typed
deriving DecidableEq

instance : LawfulBEq U64 := inferInstance

namespace Maturity

def index : Maturity → Nat
  | .lifted => 0
  | .blockLocal => 1
  | .cfg => 2
  | .ssa => 3
  | .resolved => 4
  | .optimized => 5
  | .vars => 6
  | .structured => 7
  | .typed => 8

/-- `Verifier::atLeast`. -/
def atLeast (m level : Maturity) : Bool := decide (level.index ≤ m.index)

end Maturity

/-- What a defined value is and where it came from. -/
structure ValueInfo where
  type : Ty
  /-- Absent once the operation has been removed. -/
  definition : Option Nat
  block : Option Nat
deriving DecidableEq

structure IlBlock where
  va : U64
  endVa : U64
  ops : List Nat
  successors : List Nat
  predecessors : List Nat
  /-- A stub for code outside of the function. -/
  external : Bool
deriving DecidableEq, Inhabited

/-- An operation of the pool, with the pass it comes from. -/
structure PoolOp extends Op where
  origin : Nat
deriving DecidableEq

structure IlFunction where
  file : RegisterFile
  nameOf : Nat → String
  passCount : Nat
  entryBlock : Option Nat
  blocks : List IlBlock
  ops : List PoolOp
  values : List ValueInfo
  exprs : List Expr
  /-- Handles are 32 bits wide. -/
  values_le : values.length ≤ 2 ^ 32
  operands_mem : ∀ op ∈ ops, ∀ e ∈ op.operands, e ∈ exprs
  closed : ∀ e ∈ exprs, ∀ x ∈ e.operands, x ∈ exprs

def kNoOpAddress : U64 := ~~~0#64

def OpCode.definesValue : OpCode → Bool
  | .readReg | .load | .phi => true
  | _ => false

namespace IlFunction

def hasBlock (f : IlFunction) (block : Nat) : Bool := decide (block < f.blocks.length)

/-- The types the expression rules read. -/
def ctx (f : IlFunction) : Ctx where
  valueType v := f.values[v]?.map ValueInfo.type
  regType r := f.file.registers[r]?.map RegisterInfo.type

/-- The operations of a block, as far as their handles are valid. -/
def opsOf (f : IlFunction) (block : IlBlock) : List PoolOp :=
  block.ops.filterMap fun opId => f.ops[opId]?

/-- `reversePostOrder` as a set. -/
def isReachable (f : IlFunction) (block : Nat) : Bool :=
  match f.entryBlock with
  | none => false
  | some entry =>
    f.hasBlock entry &&
      decide (block ∈ DepthFirst.reverseOrder
        (fun b => (f.blocks[b]?.map IlBlock.successors).getD []) f.blocks.length [entry])

end IlFunction

namespace Verifier

variable (f : IlFunction) (level : Maturity)

def checkEntry : Bool :=
  match f.entryBlock with
  | none => false
  | some entry => !f.blocks.isEmpty && f.hasBlock entry

def checkExpressions : Bool := f.exprs.all (Expr.nodeVerified f.ctx)

def expectOperands (op : Op) (count : Nat) : Bool := op.operands.length == count

def expectTargets (op : Op) (count : Nat) : Bool := op.targets.length == count

def checkRegister (op : Op) : Bool := decide (op.reg < f.file.registers.length)

/-- The rules of one opcode. -/
def checkOpCode (blockId : Nat) (op : Op) : Bool :=
  match op.code with
  | .readReg =>
    expectOperands op 0 && checkRegister f op && (f.file.info op.reg).type == op.type
  | .writeReg =>
    expectOperands op 1 && checkRegister f op &&
      (f.file.info op.reg).type == (op.operand 0).type
  | .load => expectOperands op 1 && !op.type.isVoid
  | .store => expectOperands op 2 && (op.operand 1).type == op.type
  | .branch => expectOperands op 0 && expectTargets op 1
  | .condBranch =>
    expectOperands op 1 && (op.operand 0).type.isBoolean && expectTargets op 2
  | .indirectBranch =>
    (if level.atLeast .ssa && op.targets.isEmpty then
      decide (1 ≤ op.operands.length ∧ op.operands.length ≤ 9)
    else expectOperands op 1) &&
      !(op.targets.isEmpty && level.atLeast .resolved && f.isReachable blockId)
  | .call =>
    if level.atLeast .ssa then decide (1 ≤ op.operands.length ∧ op.operands.length ≤ 9)
    else expectOperands op 1
  | .ret =>
    (if level.atLeast .ssa then decide (op.operands.length ≤ 1) else expectOperands op 0) &&
      expectTargets op 0
  | .nop | .unreachable => expectOperands op 0 && expectTargets op 0
  -- A missing name is a warning here and an error below.
  | .unimplemented => true
  | .intrinsic => f.nameOf op.payload != ""
  | .phi =>
    !(level.atLeast .ssa &&
        op.operands.length != ((f.blocks[blockId]?.map IlBlock.predecessors).getD []).length) &&
      op.operands.all fun e => e.type == op.type
  | .count => false

/-- Intrinsics and calls define a value according to their type. -/
def shouldDefine (op : Op) : Bool :=
  if op.code = .intrinsic ∨ op.code = .call then !op.type.isVoid else op.code.definesValue

def checkOp (blockId : Nat) (op : PoolOp) : Bool :=
  decide (op.origin < f.passCount) &&
    !(op.va == kNoOpAddress && level == .lifted) &&
    op.targets.all f.hasBlock &&
    checkOpCode f level blockId op.toOp &&
    shouldDefine op.toOp == op.result.isSome

/-- The loop over the operations of a block. -/
def checkSequence (blockId : Nat) : Bool → List Nat → Bool
  | _, [] => true
  | seenPhiEnd, opId :: rest =>
    match f.ops[opId]? with
    | none => false
    | some op =>
      !(op.code.isTerminator && !rest.isEmpty) &&
        !(!op.code.isTerminator && rest.isEmpty && level.atLeast .cfg) &&
        !(op.code == .phi && seenPhiEnd) &&
        checkOp f level blockId op &&
        checkSequence blockId (seenPhiEnd || op.code != .phi) rest

def checkBlock (blockId : Nat) (block : IlBlock) : Bool :=
  if block.ops.isEmpty then block.external
  else checkSequence f level blockId false block.ops

def checkBlocks : Bool :=
  decide (((f.blocks.map IlBlock.va).filter (· != 0#64)).Nodup) &&
    (List.range f.blocks.length).all fun blockId =>
      (f.blocks[blockId]?).all (checkBlock f level blockId)

/-- What the function records of a defined value. -/
def checkDefinition (blockId opId : Nat) (op : Op) : Bool :=
  match op.result with
  | none => true
  | some v =>
    match f.values[v]? with
    | none => false
    | some info =>
      info.definition == some opId && info.block == some blockId && info.type == op.type

def definitions : List Nat :=
  f.blocks.flatMap fun block => (f.opsOf block).filterMap fun op => op.result

/-- Every value has its one definition, or has lost it with its operation. -/
def checkCounts : Bool :=
  (List.range f.values.length).all fun v =>
    match (definitions f).count v with
    | 0 => (f.values[v]?).all fun info => info.definition.isNone
    | n => n == 1

/-- The values an expression reads are defined before in the same block. -/
def checkUse (blockId : Nat) (available : List Nat) (e : Expr) : Bool :=
  (e.leaves .value).all fun used =>
    match f.values[used]? with
    | none => true
    | some info => info.block == some blockId && decide (used ∈ available)

def checkUses (blockId : Nat) : List Nat → List PoolOp → Bool
  | _, [] => true
  | available, op :: ops =>
    op.operands.all (checkUse f blockId available) &&
      checkUses blockId (op.result.toList ++ available) ops

def checkValueUseOrder : Bool :=
  level.atLeast .ssa ||
    (List.range f.blocks.length).all fun blockId =>
      (f.blocks[blockId]?).all fun block => checkUses f blockId [] (f.opsOf block)

def checkValues : Bool :=
  ((List.range f.blocks.length).all fun blockId =>
    (f.blocks[blockId]?).all fun block =>
      block.ops.all fun opId =>
        (f.ops[opId]?).all fun op => checkDefinition f blockId opId op.toOp) &&
    checkCounts f && checkValueUseOrder f level

/-- The stored edges are those of the terminator. -/
def checkSuccessors (block : IlBlock) : Bool :=
  match block.ops.getLast? with
  | none => true
  | some opId =>
    (f.ops[opId]?).all fun op =>
      !op.code.isTerminator || op.targets.filter f.hasBlock == block.successors

def checkPredecessors (blockId : Nat) (block : IlBlock) : Bool :=
  block.predecessors.all fun predecessor =>
    match f.blocks[predecessor]? with
    | none => false
    | some before => decide (blockId ∈ before.successors)

def checkEdges : Bool :=
  (List.range f.blocks.length).all fun blockId =>
    (f.blocks[blockId]?).all fun block =>
      checkSuccessors f block && checkPredecessors f blockId block

end Verifier

/-- `verify(function, level).ok()`; unreachable blocks are worth a warning only. -/
def verify (f : IlFunction) (level : Maturity) : Bool :=
  Verifier.checkEntry f && Verifier.checkExpressions f && Verifier.checkBlocks f level &&
    Verifier.checkValues f level && Verifier.checkEdges f

theorem Verifier.checkExpressions_of_verify {f : IlFunction} {level : Maturity}
  (h : verify f level = true) : Verifier.checkExpressions f = true := by
  simp only [verify, Bool.and_eq_true] at h
  exact h.1.1.1.2

open Xdec.Expr in
/-- The pool is closed under operands, so its expressions are accepted as a whole. -/
theorem Verifier.verified_of_checkExpressions {f : IlFunction}
  (h : Verifier.checkExpressions f = true) {e : Expr}
  (he : e ∈ f.exprs) : e.verified f.ctx = true := by
  induction e using operandInduction with
  | step e ih =>
    refine verified_iff.mpr ⟨List.all_eq_true.mp h e he, ?_⟩
    exact fun x hx => ih x hx (f.closed e he x hx)

end Xdec

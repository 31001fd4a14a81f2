import Xdec.Block
import Xdec.Substitution

/-!
# The local passes over a block

`copyPropagateBlock`, `forwardRedundantLoads` and `dceBlock` each walk the
operations of one block once.  The first two rewrite operands through a
`ValueSubst`; all three take operations out, which the source does after the
walk and by handle, so an operation is named here by its position.
-/

namespace Xdec

/-! ## Copy propagation -/

/-- Past this many distinct nodes a register's contents are not tracked. -/
def kMaxTrackedExprNodes : Nat := 64

/-- The loop of `boundedExprNodeCount`; a handle is pushed at most three times
for each of the `limit + 1` nodes visited, which bounds the rounds. -/
def countNodes (limit : Nat) : Nat → List Expr → List Expr → Nat
  | 0, visited, _ => visited.length
  | _ + 1, visited, [] => visited.length
  | rounds + 1, visited, current :: stack =>
    if visited.length ≤ limit then
      if current ∈ visited then countNodes limit rounds visited stack
      else countNodes limit rounds (current :: visited) (current.operands.reverse ++ stack)
    else visited.length

/-- Distinct nodes below `e`, as far as `limit`. -/
def boundedExprNodeCount (e : Expr) (limit : Nat) : Nat :=
  countNodes limit (3 * (limit + 1) + 2) [] [e]

/-- The expression each root register currently holds, when known. -/
structure BlockProp where
  subst : ValueSubst
  contents : RegId → Option Expr

namespace BlockProp

def empty : BlockProp := ⟨.empty, fun _ => none⟩

/-- `subst.set` of an operation's result. -/
def set (p : BlockProp) (result : Option Nat) (replacement : Expr) : BlockProp :=
  match result with
  | none => p
  | some v => { p with subst := p.subst.set v replacement }

/-- The expression a read of `reg` denotes, when the contents are tracked:
direct for a full register, an extract for a view. -/
def readExpr (file : RegisterFile) (p : BlockProp) (reg : RegId) : Option Expr :=
  let info := file.info reg
  match p.contents (file.rootOf reg) with
  | none => none
  | some known =>
    if info.parent = none then some known
    else some (Expr.extract info.type known info.offsetInParent)

/-- Whether a write of `value` is small enough to be tracked. -/
def tracks (value : Expr) : Bool :=
  decide (boundedExprNodeCount value kMaxTrackedExprNodes ≤ kMaxTrackedExprNodes)

def write (file : RegisterFile) (p : BlockProp) (reg : RegId) (value : Expr) : BlockProp :=
  let info := file.info reg
  if info.regClass = .zero then p
  else
    let root := file.rootOf reg
    if tracks value = false then { p with contents := Function.update p.contents root none }
    else if info.parent = none then
      { p with contents := Function.update p.contents root (some value) }
    else if info.zeroExtendsParent then
      { p with
        contents := Function.update p.contents root
          (some (Expr.cast .zext (file.info root).type value)) }
    else
      -- A partial write merges with the old contents; nothing precise to track.
      { p with contents := Function.update p.contents root none }

/-- Everything not modelled clobbers every tracked register. -/
def clobberAll (p : BlockProp) : BlockProp := { p with contents := fun _ => none }

/-- The operation with the substitutions recorded so far. -/
def rewrite (p : BlockProp) (op : Op) : BlockProp × Op :=
  let (operands, subst) := ValueSubst.applyAll op.operands p.subst
  ({ p with subst := subst }, { op with operands := operands })

/-- One round of the loop; without an operation it is taken out. -/
def step (file : RegisterFile) (p : BlockProp) (op : Op) : BlockProp × Option Op :=
  let (p, op) := p.rewrite op
  match op.code with
  | .readReg =>
    let info := file.info op.reg
    if info.regClass = .zero then (p.set op.result (Expr.constant info.type 0#64), some op)
    else
      match p.readExpr file op.reg with
      | some known => (p.set op.result known, some op)
      | none => (p, some op)
  | .writeReg =>
    if (file.info op.reg).regClass = .zero then (p, none)
    else (p.write file op.reg (op.operand 0), some op)
  | .call | .intrinsic | .unimplemented => (p.clobberAll, some op)
  | _ => (p, some op)

section Step

variable {file : RegisterFile} {p : BlockProp} {op : Op}

theorem step_readReg_zero (hcode : op.code = .readReg)
  (hzero : (file.info op.reg).regClass = .zero) :
  p.step file op =
    ((p.rewrite op).1.set op.result (Expr.constant (file.info op.reg).type 0#64),
      some (p.rewrite op).2) := by
  have hzero' : (file.info op.payload).regClass = .zero := hzero
  simp [step, rewrite, hcode, Op.reg, hzero']

theorem step_readReg (hcode : op.code = .readReg)
  (hzero : (file.info op.reg).regClass ≠ .zero) :
  p.step file op =
    match p.readExpr file op.reg with
    | some known => ((p.rewrite op).1.set op.result known, some (p.rewrite op).2)
    | none => ((p.rewrite op).1, some (p.rewrite op).2) := by
  have hzero' : (file.info op.payload).regClass ≠ .zero := hzero
  simp only [step, rewrite, hcode, Op.reg, hzero', if_false]
  rfl

theorem step_writeReg_zero (hcode : op.code = .writeReg)
  (hzero : (file.info op.reg).regClass = .zero) :
  p.step file op = ((p.rewrite op).1, none) := by
  have hzero' : (file.info op.payload).regClass = .zero := hzero
  simp [step, rewrite, hcode, Op.reg, hzero']

theorem step_writeReg (hcode : op.code = .writeReg)
  (hzero : (file.info op.reg).regClass ≠ .zero) :
  p.step file op =
    ((p.rewrite op).1.write file op.reg ((p.rewrite op).2.operand 0),
      some (p.rewrite op).2) := by
  have hzero' : (file.info op.payload).regClass ≠ .zero := hzero
  simp only [step, rewrite, hcode, Op.reg, hzero', if_false]

/-- Any other operation keeps what is known or forgets the registers. -/
theorem step_other (hread : op.code ≠ .readReg) (hwrite : op.code ≠ .writeReg) :
  p.step file op = ((p.rewrite op).1, some (p.rewrite op).2) ∨
    p.step file op = ((p.rewrite op).1.clobberAll, some (p.rewrite op).2) := by
  cases hcode : op.code <;> simp_all [step, rewrite]

end Step

def run (file : RegisterFile) : BlockProp → List Op → List Op
  | _, [] => []
  | p, op :: ops =>
    let (p', op') := p.step file op
    op'.toList ++ run file p' ops

end BlockProp

/-- `copyPropagateBlock`. -/
def copyPropagateBlock (file : RegisterFile) (ops : List Op) : List Op :=
  BlockProp.empty.run file ops

/-! ## Load forwarding -/

structure LoadProp where
  subst : ValueSubst
  /-- The load result still known to hold an address. -/
  lastLoadOf : Expr → Option Nat

namespace LoadProp

def empty : LoadProp := ⟨.empty, fun _ => none⟩

def rewrite (p : LoadProp) (op : Op) : LoadProp × Op :=
  let (operands, subst) := ValueSubst.applyAll op.operands p.subst
  ({ p with subst := subst }, { op with operands := operands })

/-- The load from `address` becomes the known one. -/
def remember (p : LoadProp) (address : Expr) (result : Option Nat) : LoadProp :=
  { p with lastLoadOf := Function.update p.lastLoadOf address result }

def set (p : LoadProp) (result : Option Nat) (replacement : Expr) : LoadProp :=
  match result with
  | none => p
  | some v => { p with subst := p.subst.set v replacement }

/-- One round of the loop over a function whose values have the types
`valueType`. -/
def step (valueType : Nat → Option Ty) (p : LoadProp) (op : Op) : LoadProp × Option Op :=
  let (p, op) := p.rewrite op
  match op.code with
  | .load =>
    match op.operands with
    | [] => (p, some op)
    | address :: _ =>
      match p.lastLoadOf address with
      | some found =>
        if valueType found = some op.type then
          (p.set op.result (Expr.valueRef op.type found), none)
        else (p.remember address op.result, some op)
      | none => (p.remember address op.result, some op)
  | .store | .call | .intrinsic => ({ p with lastLoadOf := fun _ => none }, some op)
  | _ => (p, some op)

def run (valueType : Nat → Option Ty) : LoadProp → List Op → List Op
  | _, [] => []
  | p, op :: ops =>
    let (p', op') := p.step valueType op
    op'.toList ++ run valueType p' ops

end LoadProp

/-- `forwardRedundantLoads`. -/
def forwardRedundantLoads (valueType : Nat → Option Ty) (ops : List Op) : List Op :=
  LoadProp.empty.run valueType ops

/-! ## Dead code -/

/-- `collectValueUses` over the whole block. -/
def valueUses (ops : List Op) : List Nat :=
  ops.flatMap fun op => op.operands.flatMap (Expr.leaves .value)

/-- A snapshot whose result is not used. -/
def Op.unusedRead (uses : List Nat) (op : Op) : Bool :=
  op.code == .readReg && !op.result.any (uses.contains ·)

def OpCode.touchesRegister (code : OpCode) : Bool := code == .readReg || code == .writeReg

/-- Operations that can touch unknown state. -/
def OpCode.clobbers (code : OpCode) : Bool :=
  code == .call || code == .intrinsic || code == .unimplemented

structure DceState where
  removable : List Nat
  /-- A write of the root not read since. -/
  pendingWrites : RegId → Option Nat

namespace DceState

def empty : DceState := ⟨[], fun _ => none⟩

def step (file : RegisterFile) (uses : List Nat) (s : DceState) (op : Op) (position : Nat) :
    DceState :=
  if op.unusedRead uses then { s with removable := s.removable ++ [position] }
  else if op.code.touchesRegister then
    let root := file.rootOf op.reg
    if op.code = .readReg then
      { s with pendingWrites := Function.update s.pendingWrites root none }
    else
      ⟨s.removable ++ (s.pendingWrites root).toList,
        Function.update s.pendingWrites root (some position)⟩
  else if op.code.clobbers then { s with pendingWrites := fun _ => none }
  else s

def run (file : RegisterFile) (uses : List Nat) : DceState → List Op → Nat → DceState
  | s, [], _ => s
  | s, op :: ops, position => run file uses (s.step file uses op position) ops (position + 1)

end DceState

/-- The operations but for those at the given positions. -/
def removeOps (removable : List Nat) : List Op → Nat → List Op
  | [], _ => []
  | op :: ops, position =>
    if position ∈ removable then removeOps removable ops (position + 1)
    else op :: removeOps removable ops (position + 1)

/-- `dceBlock`. -/
def dceBlock (file : RegisterFile) (ops : List Op) : List Op :=
  removeOps (DceState.empty.run file (valueUses ops) ops 0).removable ops 0

/-- The three passes in the order `local-simplify` runs them. -/
def localPasses (file : RegisterFile) (valueType : Nat → Option Ty) (ops : List Op) : List Op :=
  dceBlock file (forwardRedundantLoads valueType (copyPropagateBlock file ops))

end Xdec

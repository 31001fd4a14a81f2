import Xdec.VerifiedBlocks

/-!
# What one instruction computes

`summarize` flattens the operations of an instruction into a list of nodes, each
with operands before it, and the effects in the order in which they are applied.
What it cannot represent clears `complete`.
-/

namespace Xdec

inductive LeafKind where
  | register | load
deriving DecidableEq

def LeafKind.index : LeafKind → Nat
  | .register => 0
  | .load => 1

def packLeaf (kind : LeafKind) (index : Nat) : U64 :=
  BitVec.ofNat 64 (kind.index * 2 ^ 32 + index % 2 ^ 32)

def leafKind (immediate : U64) : LeafKind :=
  if immediate.toNat / 2 ^ 32 = 0 then .register else .load

def leafIndex (immediate : U64) : Nat := immediate.toNat % 2 ^ 32

structure SemanticNode where
  op : ExprOp
  /-- Bits of the result; zero for flags. -/
  width : Nat
  operands : List Nat
  immediate : U64
deriving DecidableEq

inductive SemanticEffect where
  | writeReg (reg : RegId) (valueNode : Nat)
  | store (addressNode : Nat) (width : Nat) (valueNode : Nat)
deriving DecidableEq

def kMaxSemanticNodes : Nat := 1024

structure Summarizer where
  nodes : List SemanticNode
  effects : List SemanticEffect
  complete : Bool
  byValue : Nat → Option Nat
  byExpr : Expr → Option Nat
  written : List RegId
  loads : Nat
  overflowed : Bool

namespace Summarizer

def empty : Summarizer := ⟨[], [], true, fun _ => none, fun _ => none, [], 0, false⟩

def addNode (s : Summarizer) (op : ExprOp) (width : Nat) (operands : List Nat) (immediate : U64) :
    Nat × Summarizer :=
  if s.nodes.length ≥ kMaxSemanticNodes then (0, { s with overflowed := true })
  else
    (s.nodes.length, { s with nodes := s.nodes ++ [⟨op, width % 2 ^ 16, operands, immediate⟩] })

def unknown (s : Summarizer) (width : Nat) : Nat × Summarizer :=
  { s with complete := false }.addNode .undef width [] 0#64

def remember (e : Expr) (r : Nat × Summarizer) : Nat × Summarizer :=
  (r.1, { r.2 with byExpr := Function.update r.2.byExpr e (some r.1) })

def bind (s : Summarizer) (result : Option Nat) (node : Nat) : Summarizer :=
  match result with
  | none => s
  | some v => { s with byValue := Function.update s.byValue v (some node) }

/-- `convert` at one node, given how its operands are converted. -/
def convertNode (e : Expr) (operands : Summarizer → List Nat × Summarizer) (s : Summarizer) :
    Nat × Summarizer :=
  match s.byExpr e with
  | some node => (node, s)
  | none =>
    if s.overflowed then (0, s)
    else if e.op = .value then
      match s.byValue e.handle with
      | some node => remember e (node, s)
      -- A value of another instruction.
      | none => remember e (s.unknown e.bits)
    else if e.op = .undef ∨ e.op = .entryReg then remember e (s.unknown e.bits)
    else
      let (nodes, s) := operands s
      remember e (s.addNode e.op e.bits nodes e.immediate)

def convert : Expr → Summarizer → Nat × Summarizer
  | e@(.leaf _ _ _) => convertNode e fun s => ([], s)
  | e@(.unary _ _ _ a) => convertNode e fun s =>
    let (x, s) := convert a s
    ([x], s)
  | e@(.binary _ _ _ a b) => convertNode e fun s =>
    let (x, s) := convert a s
    let (y, s) := convert b s
    ([x, y], s)
  | e@(.ternary _ _ _ a b c) => convertNode e fun s =>
    let (x, s) := convert a s
    let (y, s) := convert b s
    let (z, s) := convert c s
    ([x, y, z], s)

section Visit

variable (file : RegisterFile)

def isWritten (s : Summarizer) (reg : RegId) : Bool := decide (file.rootOf reg ∈ s.written)

def markWritten (s : Summarizer) (reg : RegId) : Summarizer :=
  if file.rootOf reg ∈ s.written then s
  else { s with written := s.written ++ [file.rootOf reg] }

def visitReadReg (s : Summarizer) (op : Op) : Summarizer :=
  let s := if s.isWritten file op.reg then { s with complete := false } else s
  let (node, s) := s.addNode .value op.type.bits [] (packLeaf .register op.reg)
  s.bind op.result node

def visitLoad (s : Summarizer) (op : Op) : Summarizer :=
  let (node, s) := { s with loads := s.loads + 1 }.addNode .value op.type.bits []
    (packLeaf .load s.loads)
  s.bind op.result node

def visitWriteReg (s : Summarizer) (op : Op) : Summarizer :=
  match op.operands with
  | [value] =>
    let (node, s) := convert value s
    let effects := s.effects ++ [SemanticEffect.writeReg op.reg node]
    { s with effects := effects }.markWritten file op.reg
  | _ => { s with complete := false }

def visitStore (s : Summarizer) (op : Op) : Summarizer :=
  match op.operands with
  | [address, value] =>
    let (addressNode, s) := convert address s
    let (valueNode, s) := convert value s
    let width := op.type.bits % 2 ^ 16
    { s with effects := s.effects ++ [SemanticEffect.store addressNode width valueNode] }
  | _ => { s with complete := false }

def visit (s : Summarizer) (op : Op) : Summarizer :=
  match op.code with
  | .readReg => s.visitReadReg file op
  | .load => s.visitLoad op
  | .writeReg => s.visitWriteReg file op
  | .store => s.visitStore op
  -- Control flow is described elsewhere.
  | .branch | .condBranch | .indirectBranch | .ret | .nop => s
  | _ =>
    let s := { s with complete := false }
    if Verifier.shouldDefine op && op.result.isSome then
      let (node, s) := s.addNode .undef op.type.bits [] 0#64
      s.bind op.result node
    else s

def run : List Op → Summarizer → Summarizer
  | [], s => s
  | op :: ops, s =>
    let s := s.visit file op
    if s.overflowed then { s with nodes := [], effects := [], complete := false }
    else run ops s

end Visit

end Summarizer

def summarize (file : RegisterFile) (ops : List Op) : Summarizer :=
  Summarizer.run file ops Summarizer.empty

/-! ## Evaluating a summary -/

/-- What the leaves of a summary stand for: the registers before the instruction
and the results of its loads. -/
structure Leaves where
  host : HostFloat
  register : RegId → U128
  loads : List U128

def Leaves.env (leaves : Leaves) : Env := ⟨leaves.host, fun _ => none, leaves.register⟩

/-- A node as an expression over operands of the given widths. -/
def SemanticNode.shape (n : SemanticNode) (widths : List Nat) : Expr :=
  match widths.map fun width => Expr.undefined (Ty.integer width) with
  | [] => .leaf n.op (Ty.integer n.width) n.immediate
  | [a] => .unary n.op (Ty.integer n.width) n.immediate a
  | [a, b] => .binary n.op (Ty.integer n.width) n.immediate a b
  | a :: b :: c :: _ => .ternary n.op (Ty.integer n.width) n.immediate a b c

/-- The value of a node after the nodes before it, given by width and value. -/
def SemanticNode.value (leaves : Leaves) (n : SemanticNode) (before : List (Nat × U128)) :
    Option U128 :=
  if n.op = .value then
    match leafKind n.immediate with
    | .register => some (leaves.register (leafIndex n.immediate))
    | .load => leaves.loads[leafIndex n.immediate]?
  else do
    let args ← n.operands.mapM fun k => before[k]?
    (applyOp leaves.env (n.shape (args.map Prod.fst))
      (args.map fun a => readArg n.op a.2)).toOption

/-- The nodes in the order of their indices. -/
def evalNodes (leaves : Leaves) (nodes : List SemanticNode) : Option (List (Nat × U128)) :=
  nodes.foldlM (fun before n => (n.value leaves before).map fun v => before ++ [(n.width, v)]) []

/-- A register write or a memory store with its operands. -/
inductive Performed where
  | writeReg (reg : RegId) (value : U128)
  | store (address : U64) (width : Nat) (value : U128)
deriving DecidableEq

def SemanticEffect.perform (values : List (Nat × U128)) : SemanticEffect → Option Performed
  | .writeReg reg valueNode => (values[valueNode]?).map fun v => .writeReg reg v.2
  | .store addressNode width valueNode => do
    let address ← values[addressNode]?
    let value ← values[valueNode]?
    some (.store address.2.lo width value.2)

/-! ## Running an instruction -/

section Runs

variable {W : Type} (c : BlockContext) (b : Backend W)

/-- What one operation does to registers and memory. -/
def performedBy (m : Machine W) (op : Op) : List Performed :=
  match op.code, m.eval c (op.operand 0), m.eval c (op.operand 1) with
  | .writeReg, .ok value, _ => [.writeReg op.reg value]
  | .store, .ok address, .ok value => [.store address.lo op.type.bits value]
  | _, _, _ => []

/-- The result of an operation that loads. -/
def loadedBy (m : Machine W) (op : Op) : List U128 :=
  match op.code, m.eval c (op.operand 0) with
  | .load, .ok address => (b.read m.world address.lo (op.type.bits / 8)).toOption.toList
  | _, _ => []

/-- The interpreter runs the operations without an error, to the machine given
last; what stops the block is the last of them. -/
inductive InstructionRun : List Op → Machine W → List U128 → List Performed → Machine W → Prop where
  | done (m : Machine W) : InstructionRun [] m [] [] m
  | step {op : Op} {ops : List Op} {m m₁ m₂ : Machine W} {loads : List U128}
      {performed : List Performed} (hop : Machine.runOp c b.hooks m op = (m₁, none))
      (hrest : InstructionRun ops m₁ loads performed m₂) :
      InstructionRun (op :: ops) m (loadedBy c b m op ++ loads) (performedBy c m op ++ performed) m₂
  | stop {op : Op} {m m₁ : Machine W} {o : ExecOutcome}
      (hop : Machine.runOp c b.hooks m op = (m₁, some o)) (hok : o.stop ≠ .error) :
      InstructionRun [op] m (loadedBy c b m op) (performedBy c m op) m₁

/-- Registers and memory after a write or a store. -/
def Performed.apply (file : RegisterFile) (state : Cells × W) : Performed → Cells × W
  | .writeReg reg value => (Interpreter.writeRegister file state.1 reg value, state.2)
  | .store address width value => (state.1, (b.write state.2 address (width / 8) value).2)

end Runs

end Xdec

import Xdec.Interp
import Xdec.Registers

/-!
# Running a block

`Interpreter::runBlock` over the operations of one block.  Everything outside
the registers and the values the block defines, that is the memory behind the
interpreter and the delegates an embedder installs, is a state `W` that the
interpreter only passes on: `Hooks` lists the ways it is used.
-/

namespace Xdec

inductive OpCode where
  | readReg | writeReg | load | store | branch | condBranch | indirectBranch | call | ret
  | intrinsic | nop | unreachable | unimplemented | phi | count
deriving DecidableEq

structure Op where
  code : OpCode
  /-- Type of the result, and the accessed width of a load or store. -/
  type : Ty
  va : U64
  result : Option Nat
  /-- A register for register access, an interned name otherwise. -/
  payload : Nat
  operands : List Expr
  targets : List Nat
deriving DecidableEq

namespace Op

def reg (op : Op) : RegId := op.payload

/-- The verifier sees to it that the operand is there. -/
def operand (op : Op) (index : Nat) : Expr := op.operands.getD index (Expr.undefined Ty.voidType)

end Op

def DiagCode.text : DiagCode → String
  | .analysisLimit => "analysis-limit"
  | .internal => "internal"
  | .verifyFailure => "verify-failure"
  | .liftFailure => "lift-failure"
  | .notImplemented => "not-implemented"

/-- `Diag::format` of a diagnostic without address and notes. -/
def Diag.format (d : Diag) : String := d.code.text ++ ": " ++ d.message

inductive ExecStop where
  | branch | condBranch | indirectBranch | call | returned | unreachable | unimplemented
  | intrinsic | interrupted | error
deriving DecidableEq

structure ExecOutcome where
  stop : ExecStop
  /-- Address of the operation that ended the block. -/
  va : U64
  target : U64
  fallthrough : U64
  condition : Bool
  detail : String
deriving DecidableEq

namespace ExecOutcome

/-- An outcome with all but the first two fields at their defaults. -/
def at_ (stop : ExecStop) (va : U64) : ExecOutcome := ⟨stop, va, 0#64, 0#64, false, ""⟩

/-- `Interpreter::fail`. -/
def fail (message : String) (va : U64) : ExecOutcome :=
  { at_ .error va with detail := message }

end ExecOutcome

/-- How a block uses what is outside of it. -/
structure Hooks (W : Type) where
  interrupt : W → Op → Bool
  /-- The delegate called before each operation. -/
  enter : W → Op → W
  /-- `none` stops the block. -/
  intrinsic : W → String → Ty → List U128 → Option U128 × W
  read : W → U64 → Nat → Except String U128 × W
  write : W → U64 → Nat → U128 → Except String Unit × W

/-- What a block reads of the function around it. -/
structure BlockContext where
  file : RegisterFile
  host : HostFloat
  blockVa : Nat → U64
  nameOf : Nat → String
  endVa : U64

structure Machine (W : Type) where
  registers : Cells
  /-- `none` for a value not defined yet. -/
  values : Nat → Option U128
  world : W

namespace Machine

variable {W : Type}

def define (m : Machine W) (result : Option Nat) (contents : U128) : Machine W :=
  match result with
  | none => m
  | some v => { m with values := Function.update m.values v (some contents) }

def env (c : BlockContext) (m : Machine W) : Env :=
  ⟨c.host, m.values, Interpreter.readRegister c.file m.registers⟩

/-- `eval(operand, 0)`. -/
def eval (c : BlockContext) (m : Machine W) (e : Expr) : Except String U128 :=
  match Xdec.eval (m.env c) e 0 with
  | .ok v => .ok v
  | .error d => .error d.format

/-- One operation; without an outcome the block goes on. -/
def runOp (c : BlockContext) (hooks : Hooks W) (m : Machine W) (op : Op) :
    Machine W × Option ExecOutcome :=
  match op.code with
  | .readReg =>
    (m.define op.result (Interpreter.readRegister c.file m.registers op.reg), none)
  | .writeReg =>
    match m.eval c (op.operand 0) with
    | .error message => (m, some (.fail message op.va))
    | .ok value =>
      ({ m with registers := Interpreter.writeRegister c.file m.registers op.reg value }, none)
  | .load =>
    match m.eval c (op.operand 0) with
    | .error message => (m, some (.fail message op.va))
    | .ok address =>
      match hooks.read m.world address.lo (op.type.bits / 8) with
      | (.error message, w) => ({ m with world := w }, some (.fail message op.va))
      | (.ok contents, w) => ({ m with world := w }.define op.result contents, none)
  | .store =>
    match m.eval c (op.operand 0), m.eval c (op.operand 1) with
    | .error message, _ => (m, some (.fail message op.va))
    | .ok _, .error message => (m, some (.fail message op.va))
    | .ok address, .ok value =>
      match hooks.write m.world address.lo (op.type.bits / 8) value with
      | (.error message, w) => ({ m with world := w }, some (.fail message op.va))
      | (.ok _, w) => ({ m with world := w }, none)
  | .branch =>
    (m, some { ExecOutcome.at_ .branch op.va with target := c.blockVa (op.targets.getD 0 0) })
  | .condBranch =>
    match m.eval c (op.operand 0) with
    | .error message => (m, some (.fail message op.va))
    | .ok condition =>
      (m, some { ExecOutcome.at_ .condBranch op.va with
        condition := condition.lo &&& 1#64 ≠ 0#64
        target := c.blockVa (op.targets.getD 0 0)
        fallthrough := c.blockVa (op.targets.getD 1 0) })
  | .indirectBranch =>
    match m.eval c (op.operand 0) with
    | .error message => (m, some (.fail message op.va))
    | .ok target => (m, some { ExecOutcome.at_ .indirectBranch op.va with target := target.lo })
  | .call =>
    match m.eval c (op.operand 0) with
    | .error message => (m, some (.fail message op.va))
    | .ok target => (m, some { ExecOutcome.at_ .call op.va with target := target.lo })
  | .ret => (m, some (.at_ .returned op.va))
  | .unreachable => (m, some (.at_ .unreachable op.va))
  | .unimplemented =>
    (m, some { ExecOutcome.at_ .unimplemented op.va with detail := c.nameOf op.payload })
  | .nop => (m, none)
  | .intrinsic =>
    match op.operands.mapM (m.eval c) with
    | .error message => (m, some (.fail message op.va))
    | .ok arguments =>
      match hooks.intrinsic m.world (c.nameOf op.payload) op.type arguments with
      | (none, w) =>
        ({ m with world := w },
          some { ExecOutcome.at_ .intrinsic op.va with detail := c.nameOf op.payload })
      | (some result, w) => ({ m with world := w }.define op.result result, none)
  | .phi =>
    (m, some (.fail ("phi nodes do not exist before SSA construction; the interpreter " ++
      "runs at lifted maturity") op.va))
  | .count => (m, some (.fail "op with no opcode" op.va))

/-- The loop over the operations. -/
def runOps (c : BlockContext) (hooks : Hooks W) : List Op → Machine W → Machine W × ExecOutcome
  | [], m => (m, .fail "block has no terminator" c.endVa)
  | op :: ops, m =>
    if hooks.interrupt m.world op then (m, .at_ .interrupted op.va)
    else
      match runOp c hooks { m with world := hooks.enter m.world op } op with
      | (m', some outcome) => (m', outcome)
      | (m', none) => runOps c hooks ops m'

/-- `Interpreter::runBlock`. -/
def runBlock (c : BlockContext) (hooks : Hooks W) (ops : List Op) (registers : Cells) (world : W) :
    Machine W × ExecOutcome :=
  runOps c hooks ops ⟨registers, fun _ => none, world⟩

end Machine

end Xdec

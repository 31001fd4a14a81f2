import Xdec.Fallible
import Xdec.SpecProgram

/-!
# The bytecode interpreter of a spec

One interpreter runs a rule's body in two ways.  With a lift site it builds IL in
the site's function; without one it skips every building opcode and only
computes integers and records the instruction's flow.

The function under construction is a parameter: `FunctionBuilders` is what the
interpreter calls of `il::Function`, each call answering `none` where an
assertion stops it.  The bytecode may jump backwards, so a run is given fuel.
`trace` is not in the source: it writes down every instruction executed, with the
integers in the slots.
-/

namespace Xdec

/-- A handle of the function: expression, value, operation or block.  `none` is
the invalid handle. -/
abbrev Handle := Option Nat

/-- A call on a function under construction; `none` is an assertion. -/
abbrev Builds (F α : Type) := F → Option (α × F)

/-- The operations of `il::Function` that elaboration uses.  Enumerations that a
program stores unchecked are passed as the stored byte. -/
structure FunctionBuilders (F : Type) where
  registers : F → RegisterFile
  typeOf : Handle → Builds F Ty
  resultOf : Handle → Builds F Handle
  constant : Ty → U64 → Builds F Handle
  valueRef : Handle → Builds F Handle
  undefined : Ty → Builds F Handle
  unary : U8 → Handle → Builds F Handle
  binary : U8 → Handle → Handle → Builds F Handle
  cast : U8 → Ty → Handle → Builds F Handle
  extract : Ty → Handle → Nat → Builds F Handle
  concat : Ty → Handle → Handle → Builds F Handle
  select : Handle → Handle → Handle → Builds F Handle
  flagDef : U8 → Nat → List Handle → Builds F Handle
  flagCondition : Handle → U8 → Builds F Handle
  flagBitOf : Handle → U8 → Builds F Handle
  appendReadReg : Handle → U64 → RegId → Builds F Handle
  appendWriteReg : Handle → U64 → RegId → Handle → Builds F Handle
  appendLoad : Handle → U64 → Ty → Handle → Builds F Handle
  appendStore : Handle → U64 → Ty → Handle → Handle → Builds F Handle
  appendBranch : Handle → U64 → Handle → Builds F Handle
  appendCondBranch : Handle → U64 → Handle → Handle → Handle → Builds F Handle
  appendIndirectBranch : Handle → U64 → Handle → Builds F Handle
  appendCall : Handle → U64 → Handle → Ty → Builds F Handle
  appendReturn : Handle → U64 → Builds F Handle
  appendNop : Handle → U64 → Builds F Handle
  appendUnreachable : Handle → U64 → Builds F Handle
  appendUnimplemented : Handle → U64 → String → Builds F Handle
  appendIntrinsic : Handle → U64 → String → Ty → List Handle → Builds F Handle

/-- Where elaboration puts the IL. -/
structure LiftSite (F : Type) where
  function : FunctionBuilders F
  block : Handle
  /-- The block at a branch target; may be left unset. -/
  blockAt : Option (U64 → Builds F Handle)

/-! ## Integers -/

inductive IntOp where
  | negate | not | logicalNot | add | sub | mul | divU | divS | remU | remS | and | or | xor | shl
  | shrU | shrS | equal | notEqual | lessU | lessEqualU | lessS | lessEqualS | greaterU
  | greaterEqualU | greaterS | greaterEqualS | logicalAnd | logicalOr
deriving DecidableEq

namespace IntOp

def enumerators : List IntOp :=
  [negate, not, logicalNot, add, sub, mul, divU, divS, remU, remS, and, or, xor, shl, shrU, shrS,
    equal, notEqual, lessU, lessEqualU, lessS, lessEqualS, greaterU, greaterEqualU, greaterS,
    greaterEqualS, logicalAnd, logicalOr]

def ofCode (code : U8) : Option IntOp := enumerators[code.toNat]?

end IntOp

def applyIntUnary (op : Option IntOp) (a : U64) : U64 :=
  match op with
  | some .negate => ~~~a + 1#64
  | some .not => ~~~a
  | some .logicalNot => if a = 0#64 then 1#64 else 0#64
  | _ => a

def asInteger (b : Bool) : U64 := if b then 1#64 else 0#64

/-- `none` is the signed quotient that overflows, which the language leaves
undefined. -/
def applyIntBinary (op : Option IntOp) (a b : U64) : Option U64 :=
  let overflows := a = 0x8000000000000000#64 ∧ b = ~~~0#64
  match op with
  | some .add => some (a + b)
  | some .sub => some (a - b)
  | some .mul => some (a * b)
  | some .divU => some (if b = 0#64 then 0#64 else a / b)
  | some .divS => if b = 0#64 then some 0#64 else if overflows then none else some (a.sdiv b)
  | some .remU => some (if b = 0#64 then 0#64 else a % b)
  | some .remS => if b = 0#64 then some 0#64 else if overflows then none else some (a.srem b)
  | some .and => some (a &&& b)
  | some .or => some (a ||| b)
  | some .xor => some (a ^^^ b)
  | some .shl => some (if 64#64 ≤ b then 0#64 else a <<< b.toNat)
  | some .shrU => some (if 64#64 ≤ b then 0#64 else a >>> b.toNat)
  | some .shrS =>
    some (if 64#64 ≤ b then (if a.msb then ~~~0#64 else 0#64) else a.sshiftRight b.toNat)
  | some .equal => some (asInteger (a == b))
  | some .notEqual => some (asInteger (a != b))
  | some .lessU => some (asInteger (a.ult b))
  | some .lessEqualU => some (asInteger (a.ule b))
  | some .lessS => some (asInteger (a.slt b))
  | some .lessEqualS => some (asInteger (a.sle b))
  | some .greaterU => some (asInteger (b.ult a))
  | some .greaterEqualU => some (asInteger (b.ule a))
  | some .greaterS => some (asInteger (b.slt a))
  | some .greaterEqualS => some (asInteger (b.sle a))
  | some .logicalAnd => some (asInteger (a != 0#64 && b != 0#64))
  | some .logicalOr => some (asInteger (a != 0#64 || b != 0#64))
  | _ => some 0#64

/-- Copies of an element, the lowest first. -/
def replicateElement (element : U64) (elementWidth : Nat) : Nat → U64
  | 0 => 0#64
  | n + 1 => replicateElement element elementWidth n ||| element <<< (n * elementWidth)

/-- `none` is a shift past the word, which the language leaves undefined. -/
def replicate (value : U64) (elementWidth totalWidth : Nat) : Option U64 :=
  if elementWidth = 0 ∨ 64 < elementWidth then some 0#64
  else
    let copies := (totalWidth + elementWidth - 1) / elementWidth
    if 64 ≤ (copies - 1) * elementWidth then none
    else some (zeroExtend (replicateElement (zeroExtend value elementWidth) elementWidth copies)
      totalWidth)

/-- A width, as `static_cast<unsigned>` reads it off an integer. -/
def asUnsigned (value : U64) : Nat := (value.setWidth 32).toNat

/-- `Type::integer`, whose width is a 16-bit field. -/
def integerType (bits : Nat) : Ty := Ty.integer (bits % 2 ^ 16)

def floatingType (bits : Nat) : Ty := Ty.floating (bits % 2 ^ 16)

def ExprOp.code (op : ExprOp) : U8 := BitVec.ofNat 8 op.ctorIdx

/-- The result type of a cast, which the operator determines except for a
bitcast. -/
def castResultType (op : U8) (width : Nat) (floatResult : Bool) : Ty :=
  if op = ExprOp.code .intToFpS ∨ op = ExprOp.code .intToFpU ∨ op = ExprOp.code .fpConvert then
    floatingType width
  else if op = ExprOp.code .bitcast then
    if floatResult then floatingType width else integerType width
  else integerType width

/-! ## The machine -/

/-- Which of the two a slot holds is fixed by the type checker. -/
structure Slot where
  integer : U64
  expr : Handle
deriving DecidableEq, Inhabited

def Slot.unset : Slot := ⟨0#64, none⟩

inductive FlowKind where
  | fallthrough | branch | condBranch | indirectBranch | return_ | unreachable | unknown
deriving DecidableEq

structure InsnFlow where
  kind : FlowKind
  target : U64
  fallthrough : U64
  calls : Bool
  callTargetKnown : Bool
  callTarget : U64
deriving DecidableEq

/-- A `Diag` of code `Internal`. -/
structure EngineError where
  message : String
  address : Option U64
deriving DecidableEq

/-- Why a run does not return a value. -/
inductive Halt where
  /-- A body returned false; the reason is in `error`. -/
  | failed
  /-- An assertion of the function. -/
  | assertion
  /-- A read outside the code array. -/
  | outside
  /-- An integer operation that the language leaves undefined. -/
  | undefined
  /-- The fuel ran out. -/
  | running
deriving DecidableEq

/-- An executed instruction, and the integers in the slots before it. -/
structure Observation where
  index : U32
  integers : List U64
deriving DecidableEq

structure SpecMachine (F : Type) where
  function : F
  slots : List Slot
  scratch : Slot
  flow : InsnFlow
  error : Option EngineError
  depth : Nat
  trace : List Observation

abbrev InterpM (F : Type) := Fallible (SpecMachine F) Halt

structure SpecInterpreter (F : Type) where
  program : SpecProgram
  insn : DecodedInsn
  site : Option (LiftSite F)

def kMaxCallDepth : Nat := 64

namespace SpecInterpreter

open Fallible

variable {F : Type}

/-- The machine before a run. -/
def start (function : F) : SpecMachine F :=
  ⟨function, [], .unset, ⟨.fallthrough, 0, 0, false, false, 0⟩, none, 0, []⟩

variable (it : SpecInterpreter F)

/-- The first error stays. -/
def setError (message : String) : InterpM F Unit :=
  modify fun m =>
    if m.error.isSome then m else { m with error := some ⟨message, some it.insn.address⟩ }

def outsideFrame (base : Nat) (index : U16) (m : SpecMachine F) : Bool :=
  index == kNoSlot || decide (m.slots.length ≤ base + index.toNat)

/-- A slot outside the frame is an error, and reads as the scratch slot. -/
def slot (base : Nat) (index : U16) : InterpM F Slot := do
  if ← reads (outsideFrame base index) then do
    it.setError "spec bytecode names a slot outside its frame"
    reads SpecMachine.scratch
  else reads fun m => m.slots.getD (base + index.toNat) .unset

/-- Assigns to a slot, or to the scratch slot. -/
def setSlot (base : Nat) (index : U16) (change : Slot → Slot) : InterpM F Unit := do
  if ← reads (outsideFrame base index) then do
    it.setError "spec bytecode names a slot outside its frame"
    modify fun m => { m with scratch := change m.scratch }
  else modify fun m => { m with slots := m.slots.modify (base + index.toNat) change }

def intAt (base : Nat) (index : U16) : InterpM F U64 := do
  let s ← it.slot base index
  return s.integer

def exprAt (base : Nat) (index : U16) : InterpM F Handle := do
  let s ← it.slot base index
  return s.expr

def setInt (base : Nat) (index : U16) (value : U64) : InterpM F Unit :=
  it.setSlot base index fun s => { s with integer := value }

def setExpr (base : Nat) (index : U16) (value : Handle) : InterpM F Unit :=
  it.setSlot base index fun s => { s with expr := value }

/-- A value that the language may leave undefined. -/
def defined {α : Type} (value : Option α) : InterpM F α :=
  match value with
  | none => fail .undefined
  | some a => pure a

/-! ## Building -/

/-- A call on the function under construction. -/
def build {α : Type} (call : Builds F α) : InterpM F α := fun m =>
  match call m.function with
  | none => (.error .assertion, m)
  | some (a, function) => (.ok a, { m with function := function })

/-- What is done with a lift site only. -/
def building (x : LiftSite F → InterpM F Unit) : InterpM F Unit :=
  match it.site with
  | none => pure ()
  | some site => x site

/-- The width of the register `x0`, or no result. -/
def callResultType (registers : RegisterFile) : Ty :=
  match registers.registers.findIdx? (·.name == "x0") with
  | none => Ty.voidType
  | some x0 => (registers.info (registers.rootOf x0)).type

def widthOf (site : LiftSite F) (expr : Handle) : InterpM F Nat := do
  let type ← build (site.function.typeOf expr)
  return type.bits

/-- The block a branch target names. -/
def blockFor (site : LiftSite F) (address : U64) : InterpM F Handle :=
  match site.blockAt with
  | none => do
    it.setError "lifting a branch without a block resolver"
    return none
  | some blockAt => do
    let block ← build (blockAt address)
    if block = none then do
      it.setError ("branch target 0x" ++ String.ofList (Nat.toDigits 16 address.toNat) ++
        " is not inside this function")
      return none
    else return block

def record (change : InsnFlow → InsnFlow) : InterpM F Unit :=
  modify fun m => { m with flow := change m.flow }

/-- A run of slot indices. -/
def indicesFrom (first count : U16) : List U16 :=
  (List.range count.toNat).map fun i => first + BitVec.ofNat 16 i

/-- The expressions in some slots. -/
def exprsAt (base : Nat) : List U16 → InterpM F (List Handle)
  | [] => pure []
  | index :: rest => do
    let expr ← it.exprAt base index
    let exprs ← exprsAt base rest
    return expr :: exprs

/-- The result of an intrinsic, whose width is in a slot. -/
def intrinsicType (base : Nat) (index : U16) : InterpM F Ty :=
  if index = kNoSlot then return Ty.voidType
  else do
    let width ← it.intAt base index
    return integerType (asUnsigned width)

def string (index : U64) : String := it.program.strings.getD (asUnsigned index) ""

/-- Pure IL construction, and effects other than control flow. -/
def executeBuild (site : LiftSite F) (insn : Insn) (base : Nat) : InterpM F Unit :=
  let fn := site.function
  let va := it.insn.address
  match insn.op with
  | .imm => do
    let width ← it.intAt base insn.b
    let value ← it.intAt base insn.a
    it.setExpr base insn.dest (← build (fn.constant (integerType (asUnsigned width)) value))
  | .undef => do
    let width ← it.intAt base insn.a
    it.setExpr base insn.dest (← build (fn.undefined (integerType (asUnsigned width))))
  | .exprUnary => do
    let a ← it.exprAt base insn.a
    it.setExpr base insn.dest (← build (fn.unary insn.aux a))
  | .exprBinary => do
    let a ← it.exprAt base insn.a
    let b ← it.exprAt base insn.b
    it.setExpr base insn.dest (← build (fn.binary insn.aux a b))
  | .cast => do
    let op := insn.aux &&& 0x7F#8
    let width ← it.intAt base insn.b
    let type := castResultType op (asUnsigned width) (insn.aux &&& 0x80#8 != 0#8)
    let a ← it.exprAt base insn.a
    it.setExpr base insn.dest (← build (fn.cast op type a))
  | .extract => do
    let width ← it.intAt base insn.c
    let a ← it.exprAt base insn.a
    let lowBit ← it.intAt base insn.b
    it.setExpr base insn.dest
      (← build (fn.extract (integerType (asUnsigned width)) a (asUnsigned lowBit)))
  | .concat => do
    let high ← it.exprAt base insn.a
    let low ← it.exprAt base insn.b
    let highWidth ← widthOf site high
    let lowWidth ← widthOf site low
    it.setExpr base insn.dest
      (← build (fn.concat (integerType (highWidth + lowWidth)) high low))
  | .select => do
    let a ← it.exprAt base insn.a
    let b ← it.exprAt base insn.b
    let c ← it.exprAt base insn.c
    it.setExpr base insn.dest (← build (fn.select a b c))
  | .flagDef => do
    let operands ← it.exprsAt base ([insn.a, insn.b, insn.c].takeWhile (· != kNoSlot))
    match operands with
    | [] => do
      it.setError "flagdef with no operands"
      fail .failed
    | first :: _ => do
      let width ← widthOf site first
      it.setExpr base insn.dest (← build (fn.flagDef insn.aux width operands))
  | .flagCond => do
    let a ← it.exprAt base insn.a
    let code ← it.intAt base insn.b
    it.setExpr base insn.dest (← build (fn.flagCondition a (code.setWidth 8)))
  | .flagBit => do
    let a ← it.exprAt base insn.a
    let bit ← it.intAt base insn.b
    it.setExpr base insn.dest (← build (fn.flagBitOf a (bit.setWidth 8)))
  | .readReg => do
    let offset ← it.intAt base insn.a
    let reg := asUnsigned (insn.imm + offset)
    if it.program.registers.registers.length ≤ reg then do
      it.setError "spec bytecode reads a register that does not exist"
      fail .failed
    else do
      let value ← build (fn.appendReadReg site.block va reg)
      it.setExpr base insn.dest (← build (fn.valueRef value))
  | .writeReg => do
    let offset ← it.intAt base insn.a
    let reg := asUnsigned (insn.imm + offset)
    if it.program.registers.registers.length ≤ reg then do
      it.setError "spec bytecode writes a register that does not exist"
      fail .failed
    -- a write to the zero register is discarded
    else if (it.program.registers.info reg).regClass = .zero then pure ()
    else do
      let value ← it.exprAt base insn.b
      let _ ← build (fn.appendWriteReg site.block va reg value)
  | .load => do
    let width ← it.intAt base insn.b
    let address ← it.exprAt base insn.a
    let value ← build (fn.appendLoad site.block va (integerType (asUnsigned width)) address)
    it.setExpr base insn.dest (← build (fn.valueRef value))
  | .store => do
    let value ← it.exprAt base insn.b
    let type ← build (fn.typeOf value)
    let address ← it.exprAt base insn.a
    let _ ← build (fn.appendStore site.block va type address value)
  | .nop => do
    let _ ← build (fn.appendNop site.block va)
  | .intrinsic => do
    let arguments ← it.exprsAt base (indicesFrom insn.a insn.b)
    let resultType ← it.intrinsicType base insn.c
    let op ← build (fn.appendIntrinsic site.block va (it.string insn.imm) resultType arguments)
    if insn.dest = kNoSlot then pure ()
    else do
      let value ← build (fn.resultOf op)
      it.setExpr base insn.dest (← build (fn.valueRef value))
  | _ => do
    it.setError "spec bytecode has an opcode the engine does not implement: ?"
    fail .failed

/-! ## One instruction -/

/-- Control flow is recorded with and without a site. -/
def executeEffect (insn : Insn) (base : Nat) : InterpM F Unit :=
  let va := it.insn.address
  match insn.op with
  | .branch => do
    let target ← it.intAt base insn.a
    record fun flow => { flow with kind := .branch, target := target }
    it.building fun site => do
      let block ← it.blockFor site target
      if block = none then fail .failed
      else do
        let _ ← build (site.function.appendBranch site.block va block)
  | .condBranch => do
    let target ← it.intAt base insn.b
    let fallthrough ← it.intAt base insn.c
    record fun flow =>
      { flow with kind := .condBranch, target := target, fallthrough := fallthrough }
    it.building fun site => do
      let taken ← it.blockFor site target
      let notTaken ← it.blockFor site fallthrough
      if taken = none ∨ notTaken = none then fail .failed
      else do
        let condition ← it.exprAt base insn.a
        let _ ← build (site.function.appendCondBranch site.block va condition taken notTaken)
  | .indirectBranch => do
    record fun flow => { flow with kind := .indirectBranch }
    it.building fun site => do
      let target ← it.exprAt base insn.a
      let _ ← build (site.function.appendIndirectBranch site.block va target)
  | .ret => do
    record fun flow => { flow with kind := .return_ }
    it.building fun site => do
      let _ ← build (site.function.appendReturn site.block va)
  | .unreachable => do
    record fun flow => { flow with kind := .unreachable }
    it.building fun site => do
      let _ ← build (site.function.appendUnreachable site.block va)
  | .callAddr => do
    let target ← it.intAt base insn.a
    record fun flow => { flow with calls := true, callTargetKnown := true, callTarget := target }
    it.building fun site => do
      let callee ← build (site.function.constant
        (integerType it.program.pointerBits.toNat) target)
      let registers ← reads fun m => site.function.registers m.function
      let _ ← build (site.function.appendCall site.block va callee (callResultType registers))
  | .indirectCall => do
    record fun flow => { flow with calls := true }
    it.building fun site => do
      let callee ← it.exprAt base insn.a
      let registers ← reads fun m => site.function.registers m.function
      let _ ← build (site.function.appendCall site.block va callee (callResultType registers))
  | .unimplemented => do
    record fun flow => { flow with kind := .unknown }
    it.building fun site => do
      let _ ← build (site.function.appendUnimplemented site.block va (it.string insn.imm))
  | _ => it.building fun site => it.executeBuild site insn base

/-- What a body does after one of its instructions. -/
inductive Control where
  | next
  | goto (pc : U32)
  | done (result : Slot)

/-- The slots that hold a callee's arguments. -/
def slotsAt (base : Nat) : List U16 → InterpM F (List Slot)
  | [] => pure []
  | index :: rest => do
    let s ← it.slot base index
    let slots ← slotsAt base rest
    return s :: slots

/-- One instruction of a body; `call` runs a callee's body. -/
def executeInsn (call : Body → List Slot → InterpM F Slot) (insn : Insn) (base : Nat) :
    InterpM F Control :=
  match insn.op with
  | .halt => return .done .unset
  | .jump => return .goto (insn.imm.setWidth 32)
  | .jumpIfZero => do
    let a ← it.intAt base insn.a
    if a = 0#64 then return .goto (insn.imm.setWidth 32) else return .next
  | .ret_ =>
    if insn.a = kNoSlot then return .done .unset
    else do
      let result ← it.slot base insn.a
      return .done result
  | .constInt => do
    it.setInt base insn.dest insn.imm
    return .next
  | .field => do
    it.setInt base insn.dest (it.insn.fields.getD insn.a.toNat 0#64)
    return .next
  | .insnPc => do
    it.setInt base insn.dest it.insn.address
    return .next
  | .insnLen => do
    it.setInt base insn.dest (BitVec.ofNat 64 it.insn.length)
    return .next
  | .opword => do
    it.setInt base insn.dest it.insn.word
    return .next
  | .move => do
    let s ← it.slot base insn.a
    it.setSlot base insn.dest fun _ => s
    return .next
  | .intUnary => do
    let a ← it.intAt base insn.a
    it.setInt base insn.dest (applyIntUnary (IntOp.ofCode insn.aux) a)
    return .next
  | .intBinary => do
    let a ← it.intAt base insn.a
    let b ← it.intAt base insn.b
    let value ← defined (applyIntBinary (IntOp.ofCode insn.aux) a b)
    it.setInt base insn.dest value
    return .next
  | .intSelect => do
    let a ← it.intAt base insn.a
    let s ← it.slot base (if a = 0#64 then insn.c else insn.b)
    it.setSlot base insn.dest fun _ => s
    return .next
  | .sExtInt => do
    let bits ← it.intAt base insn.b
    let a ← it.intAt base insn.a
    it.setInt base insn.dest (signExtend a (asUnsigned bits))
    return .next
  | .onesInt => do
    let a ← it.intAt base insn.a
    it.setInt base insn.dest (lowMask (asUnsigned a))
    return .next
  | .highestBitInt => do
    let a ← it.intAt base insn.a
    it.setInt base insn.dest
      (if a = 0#64 then ~~~0#64 else BitVec.ofNat 64 (63 - countLeadingZeros a 64))
    return .next
  | .rorInt => do
    let a ← it.intAt base insn.a
    let amount ← it.intAt base insn.b
    let width ← it.intAt base insn.c
    it.setInt base insn.dest
      (if asUnsigned width = 0 ∨ 64 < asUnsigned width then a
      else rotateRight a (asUnsigned width) (asUnsigned amount))
    return .next
  | .replicateInt => do
    let a ← it.intAt base insn.a
    let fromWidth ← it.intAt base insn.b
    let toWidth ← it.intAt base insn.c
    let value ← defined (replicate a (asUnsigned fromWidth) (asUnsigned toWidth))
    it.setInt base insn.dest value
    return .next
  | .callFn =>
    match it.program.functions[insn.imm.toNat]? with
    | none => do
      it.setError "spec bytecode calls a function that does not exist"
      fail .failed
    | some callee => do
      let arguments ← it.slotsAt base (indicesFrom insn.a insn.b)
      let returned ← call callee.body arguments
      it.setSlot base insn.dest fun _ => returned
      return .next
  | _ => do
    it.executeEffect insn base
    return .next

/-! ## Bodies -/

/-- Runs a body in a frame of its own. -/
def runWith (execute : Body → Nat → InterpM F Slot) (body : Body) (arguments : List Slot) :
    InterpM F Slot := do
  if (← reads SpecMachine.depth) ≥ kMaxCallDepth then do
    it.setError "spec helper calls nested too deeply"
    fail .failed
  else do
    let base ← reads fun m => m.slots.length
    modify fun m =>
      { m with
        slots := m.slots ++ arguments ++
          List.replicate (body.slots.toNat - arguments.length) .unset
        depth := m.depth + 1 }
    let result ← execute body base
    modify fun m => { m with slots := m.slots.take base, depth := m.depth - 1 }
    return result

/-- The code array at an instruction of a body. -/
def fetch (body : Body) (pc : U32) : InterpM F Insn := do
  modify fun m =>
    { m with trace := m.trace ++ [⟨body.start + pc, m.slots.map Slot.integer⟩] }
  match it.program.code[(body.start + pc).toNat]? with
  | none => fail .outside
  | some insn => return insn

/-- The loop over a body's instructions. -/
def execute : Nat → Body → Nat → U32 → InterpM F Slot
  | 0, _, _, _ => fail .running
  | fuel + 1, body, base, pc =>
    if body.length ≤ pc then pure .unset
    else do
      if ← reads fun m => m.error.isSome then fail .failed
      else do
        let insn ← it.fetch body pc
        let control ← it.executeInsn
          (it.runWith fun body base => execute fuel body base 0#32) insn base
        match control with
        | .next => execute fuel body base (pc + 1#32)
        | .goto pc => execute fuel body base pc
        | .done result => pure result

def run (fuel : Nat) (body : Body) (arguments : List Slot) : InterpM F Slot :=
  it.runWith (fun body base => it.execute fuel body base 0#32) body arguments

end SpecInterpreter

/-! ## Probing and elaborating -/

namespace SpecProgram

open SpecInterpreter

variable (p : SpecProgram)

def semanticsOf (insn : DecodedInsn) : Body :=
  (p.instructions.getD insn.instruction noInsn).semantics

def probing (insn : DecodedInsn) : SpecInterpreter Unit := ⟨p, insn, none⟩

def elaborating {F : Type} (insn : DecodedInsn) (site : LiftSite F) : SpecInterpreter F :=
  ⟨p, insn, some site⟩

/-- A rule's body without a site. -/
def probeRun (fuel : Nat) (insn : DecodedInsn) : Except Halt Slot × SpecMachine Unit :=
  (p.probing insn).run fuel (p.semanticsOf insn) [] (start ())

/-- A rule's body at a site. -/
def elaborateRun {F : Type} (fuel : Nat) (insn : DecodedInsn) (site : LiftSite F) (function : F) :
    Except Halt Slot × SpecMachine F :=
  (p.elaborating insn site).run fuel (p.semanticsOf insn) [] (start function)

/-- `SpecEngine::probe`. -/
def probe (fuel : Nat) (insn : DecodedInsn) : Except Halt InsnFlow :=
  let next := insn.address + BitVec.ofNat 64 insn.length
  let unknown : InsnFlow := ⟨.unknown, 0, next, false, false, 0⟩
  if !insn.valid then .ok unknown
  else
    match p.probeRun fuel insn with
    | (.error .failed, _) => .ok unknown
    | (.error halt, _) => .error halt
    | (.ok _, m) =>
      .ok (if m.flow.kind = .fallthrough then { m.flow with fallthrough := next } else m.flow)

/-- `SpecEngine::elaborate`: a diagnostic, or none. -/
def elaborate {F : Type} (fuel : Nat) (insn : DecodedInsn) (site : LiftSite F) (function : F) :
    Except Halt (Option EngineError) × F :=
  if !insn.valid then
    match site.function.appendUnimplemented site.block insn.address "undecodable" function with
    | none => (.error .assertion, function)
    | some (_, function) => (.ok none, function)
  else
    match p.elaborateRun fuel insn site function with
    | (.error .failed, m) =>
      (.ok (some (m.error.getD ⟨"spec semantics failed to run", none⟩)), m.function)
    | (.error halt, m) => (.error halt, m.function)
    | (.ok _, m) => (.ok none, m.function)

end SpecProgram

end Xdec

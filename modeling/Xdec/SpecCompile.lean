import Xdec.SpecRuns
import Xdec.SpecWalk

/-!
# Compiling rules

A rule becomes a run of straight-line code in which `if` is the only jump, and its
target is patched when what it jumps over has been emitted.
-/

namespace Xdec

namespace SpecAst

open Fallible

/-- What the compiler has emitted, and what it knows in the body at hand. -/
structure Compiler where
  code : List Insn
  asmPieces : List ProgramAsmPiece
  strings : List String
  bodyStart : Nat
  slotTop : U16
  slotHighWater : U16
  names : List (String × U16)
  intSlots : List U16
  /-- The fields of the rule, outside of helpers absent. -/
  fields : Option (List ProgramField)

abbrev CompileM := Fallible Compiler String

/-- What the checker hands over: the program without code, the registers with names, and
the names of the views of a register file. -/
structure CheckedModule where
  program : SpecProgram
  namedRegs : List (String × U64)
  viewNames : String → List String

/-- The opcode of a builtin, and whether it has no value. -/
structure BuiltinLowering where
  op : Opcode
  aux : U8
  isEffect : Bool

def flagCode (op : FlagOp) : U8 := BitVec.ofNat 8 op.ctorIdx

def loweringTable : List (String × BuiltinLowering) :=
  [("imm", ⟨.imm, 0#8, false⟩), ("undef", ⟨.undef, 0#8, false⟩),
    ("zext", ⟨.cast, ExprOp.zext.code, false⟩), ("sext", ⟨.cast, ExprOp.sext.code, false⟩),
    ("trunc", ⟨.cast, ExprOp.trunc.code, false⟩),
    ("bitcast_int", ⟨.cast, ExprOp.bitcast.code, false⟩),
    ("bitcast_float", ⟨.cast, ExprOp.bitcast.code ||| 0x80#8, false⟩),
    ("extract", ⟨.extract, 0#8, false⟩), ("concat", ⟨.concat, 0#8, false⟩),
    ("select", ⟨.select, 0#8, false⟩), ("select_flags", ⟨.select, 0#8, false⟩),
    ("clz", ⟨.exprUnary, ExprOp.clz.code, false⟩), ("ctz", ⟨.exprUnary, ExprOp.ctz.code, false⟩),
    ("popcount", ⟨.exprUnary, ExprOp.popCount.code, false⟩),
    ("bswap", ⟨.exprUnary, ExprOp.byteSwap.code, false⟩),
    ("brev", ⟨.exprUnary, ExprOp.bitReverse.code, false⟩),
    ("rotr", ⟨.exprBinary, ExprOp.rotR.code, false⟩),
    ("rotl", ⟨.exprBinary, ExprOp.rotL.code, false⟩),
    ("mulhi_u", ⟨.exprBinary, ExprOp.mulHiU.code, false⟩),
    ("mulhi_s", ⟨.exprBinary, ExprOp.mulHiS.code, false⟩),
    ("flagdef_add", ⟨.flagDef, flagCode .add, false⟩),
    ("flagdef_sub", ⟨.flagDef, flagCode .sub, false⟩),
    ("flagdef_adc", ⟨.flagDef, flagCode .addCarry, false⟩),
    ("flagdef_sbc", ⟨.flagDef, flagCode .subCarry, false⟩),
    ("flagdef_logic", ⟨.flagDef, flagCode .logical, false⟩),
    ("flagconst", ⟨.flagDef, flagCode .const, false⟩), ("cond", ⟨.flagCond, 0#8, false⟩),
    ("flagbit", ⟨.flagBit, 0#8, false⟩), ("load", ⟨.load, 0#8, false⟩),
    ("fadd", ⟨.exprBinary, ExprOp.fAdd.code, false⟩),
    ("fsub", ⟨.exprBinary, ExprOp.fSub.code, false⟩),
    ("fmul", ⟨.exprBinary, ExprOp.fMul.code, false⟩),
    ("fdiv", ⟨.exprBinary, ExprOp.fDiv.code, false⟩),
    ("fneg", ⟨.exprUnary, ExprOp.fNeg.code, false⟩),
    ("fabs", ⟨.exprUnary, ExprOp.fAbs.code, false⟩),
    ("fsqrt", ⟨.exprUnary, ExprOp.fSqrt.code, false⟩),
    ("fceil", ⟨.exprUnary, ExprOp.fCeil.code, false⟩),
    ("fcmp_eq", ⟨.exprBinary, ExprOp.fCmpEq.code, false⟩),
    ("fcmp_lt", ⟨.exprBinary, ExprOp.fCmpLt.code, false⟩),
    ("fcmp_le", ⟨.exprBinary, ExprOp.fCmpLe.code, false⟩),
    ("fcmp_uno", ⟨.exprBinary, ExprOp.fCmpUnordered.code, false⟩),
    ("inttofp_s", ⟨.cast, ExprOp.intToFpS.code, false⟩),
    ("inttofp_u", ⟨.cast, ExprOp.intToFpU.code, false⟩),
    ("fptoint_s", ⟨.cast, ExprOp.fpToIntS.code, false⟩),
    ("fptoint_u", ⟨.cast, ExprOp.fpToIntU.code, false⟩),
    ("fpconvert", ⟨.cast, ExprOp.fpConvert.code, false⟩), ("sextint", ⟨.sExtInt, 0#8, false⟩),
    ("ones_int", ⟨.onesInt, 0#8, false⟩), ("highestbit_int", ⟨.highestBitInt, 0#8, false⟩),
    ("ror_int", ⟨.rorInt, 0#8, false⟩), ("replicate_int", ⟨.replicateInt, 0#8, false⟩),
    ("store", ⟨.store, 0#8, true⟩), ("branch", ⟨.branch, 0#8, true⟩),
    ("cbranch", ⟨.condBranch, 0#8, true⟩), ("brind", ⟨.indirectBranch, 0#8, true⟩),
    ("call", ⟨.callAddr, 0#8, true⟩), ("callind", ⟨.indirectCall, 0#8, true⟩),
    ("ret", ⟨.ret, 0#8, true⟩), ("nop", ⟨.nop, 0#8, true⟩),
    ("unreachable", ⟨.unreachable, 0#8, true⟩), ("intrinsic", ⟨.intrinsic, 0#8, true⟩),
    ("intrinsic_value", ⟨.intrinsic, 0#8, false⟩), ("unimplemented", ⟨.unimplemented, 0#8, true⟩)]

def IntOp.code (op : IntOp) : U8 := BitVec.ofNat 8 op.ctorIdx

def toExprOp : BinaryOp → Option ExprOp
  | .add => some .add
  | .sub => some .sub
  | .mul => some .mul
  | .divU => some .divU
  | .divS => some .divS
  | .remU => some .remU
  | .remS => some .remS
  | .and => some .and
  | .or => some .or
  | .xor => some .xor
  | .shl => some .shl
  | .shrU => some .shrU
  | .shrS => some .shrS
  | .equal => some .cmpEq
  | .notEqual => some .cmpNe
  | .lessU => some .cmpLtU
  | .lessEqualU => some .cmpLeU
  | .lessS => some .cmpLtS
  | .lessEqualS => some .cmpLeS
  | _ => none

/-- `toString`. -/
def operatorText : BinaryOp → String
  | .add => "+"
  | .sub => "-"
  | .mul => "*"
  | .divU => "/"
  | .divS => "/s"
  | .remU => "%"
  | .remS => "%s"
  | .and => "&"
  | .or => "|"
  | .xor => "^"
  | .shl => "<<"
  | .shrU => ">>"
  | .shrS => ">>>"
  | .equal => "=="
  | .notEqual => "!="
  | .lessU => "<u"
  | .lessEqualU => "<=u"
  | .lessS => "<"
  | .lessEqualS => "<="
  | .greaterU => ">u"
  | .greaterEqualU => ">=u"
  | .greaterS => ">"
  | .greaterEqualS => ">="
  | .logicalAnd => "&&"
  | .logicalOr => "||"

def isReversedComparison : BinaryOp → Bool
  | .greaterU | .greaterEqualU | .greaterS | .greaterEqualS => true
  | _ => false

def reverseComparison : BinaryOp → BinaryOp
  | .greaterU => .lessU
  | .greaterEqualU => .lessEqualU
  | .greaterS => .lessS
  | .greaterEqualS => .lessEqualS
  | op => op

/-! ## Emitting -/

namespace Compiler

def allocSlot : CompileM U16 := do
  let slot ← reads Compiler.slotTop
  modify fun c =>
    { c with
      slotTop := c.slotTop + 1#16
      slotHighWater := if c.slotHighWater.ult (c.slotTop + 1#16) then c.slotTop + 1#16
        else c.slotHighWater }
  return slot

def emit (insn : Insn) : CompileM Unit := modify fun c => { c with code := c.code ++ [insn] }

/-- A fresh slot for the result of an instruction. -/
def emitResult (insn : U16 → Insn) : CompileM U16 := do
  let dest ← allocSlot
  Compiler.emit (insn dest)
  return dest

/-- The position in the body. -/
def here (c : Compiler) : U64 := BitVec.ofNat 64 ((c.code.length - c.bodyStart) % 2 ^ 32)

def patchJump (site : Nat) (target : U64) : CompileM Unit :=
  modify fun c => { c with code := c.code.modify site fun insn => { insn with imm := target } }

def internString (text : String) : CompileM U64 := do
  match ← reads fun c => c.strings.idxOf? text with
  | some index => return BitVec.ofNat 64 index
  | none => do
    let index ← reads fun c => c.strings.length
    modify fun c => { c with strings := c.strings ++ [text] }
    return BitVec.ofNat 64 index

def beginBody : CompileM Unit :=
  modify fun c =>
    { c with
      bodyStart := c.code.length
      slotTop := 0
      slotHighWater := 0
      names := []
      intSlots := [] }

def endBody : CompileM Body :=
  reads fun c =>
    ⟨BitVec.ofNat 32 c.bodyStart, BitVec.ofNat 32 (c.code.length - c.bodyStart), c.slotHighWater⟩

end Compiler

open Compiler

/-! ## Expressions -/

/-- A map that is filled in order keeps the last entry of a name. -/
def lastIndex (names : List String) (name : String) : Option Nat :=
  (names.reverse.idxOf? name).map fun i => names.length - 1 - i

/-- The name that a node holds. -/
def Expr.nameOf : Expr → String
  | .name text => text
  | .call callee _ => callee
  | .member _ view => view
  | _ => ""

namespace Module

variable (m : Module) (checked : CheckedModule)

/-- `functionIndex_`: the last declaration of a name. -/
def functionIndex (name : String) : Option Nat := lastIndex (m.functions.map FnDecl.name) name

def isIntCall (callee : String) : Bool :=
  if callee ∈ ["sextint", "ones_int", "highestbit_int", "ror_int", "replicate_int"] then true
  else if (loweringTable.lookup callee).isSome then false
  else ((m.functionIndex callee).bind fun index => m.functions[index]?).elim false
    fun f => f.result.kind = .int

/-- Whether an expression produces a compile-time integer. -/
def isIntExpr (c : Compiler) : Expr → Bool
  | .integer _ => true
  | .string _ => false
  | .name name =>
    match c.names.lookup name with
    | some slot => c.intSlots.contains slot
    | none =>
      if (c.fields.getD []).any (·.name == name) then true
      else name == "insn_pc" || name == "insn_len" || name == "opcode"
  | .unary _ operand => isIntExpr c operand
  | .binary _ lhs rhs => isIntExpr c lhs && isIntExpr c rhs
  | .conditional _ ifTrue _ => isIntExpr c ifTrue
  | .index _ _ | .member _ _ => false
  | .call callee _ => m.isIntCall callee

def compileName (name : String) : CompileM U16 := do
  match ← reads fun c => c.names.lookup name with
  | some slot => return slot
  | none =>
    let fields ← reads Compiler.fields
    match fields.bind fun fields => lastIndex (fields.map ProgramField.name) name with
    | some field =>
      emitResult fun dest => ⟨.field, 0, dest, BitVec.ofNat 16 field, kNoSlot, kNoSlot, 0⟩
    | none =>
      if fields.isSome && name == "insn_pc" then
        emitResult fun dest => ⟨.insnPc, 0, dest, kNoSlot, kNoSlot, kNoSlot, 0⟩
      else if fields.isSome && name == "insn_len" then
        emitResult fun dest => ⟨.insnLen, 0, dest, kNoSlot, kNoSlot, kNoSlot, 0⟩
      else if fields.isSome && name == "opcode" then
        emitResult fun dest => ⟨.opword, 0, dest, kNoSlot, kNoSlot, kNoSlot, 0⟩
      else
        match checked.namedRegs.lookup name with
        | some reg => do
          let zero ← emitResult fun dest =>
            ⟨.constInt, 0, dest, kNoSlot, kNoSlot, kNoSlot, 0⟩
          emitResult fun dest => ⟨.readReg, 0, dest, zero, kNoSlot, kNoSlot, reg⟩
        | none => fail ("unresolved name '" ++ name ++ "'")

/-- The register of element zero, of a file or of one of its views. -/
def regAccessBase (file : String) (view : Option String) : CompileM U64 :=
  match checked.program.regFiles.find? (·.name == file) with
  | none => fail ("unknown register file '" ++ file ++ "'")
  | some regFile =>
    match view with
    | none => return regFile.base.setWidth 64
    | some view =>
      match (checked.viewNames file).idxOf? view with
      | none => fail ("unknown view '" ++ view ++ "'")
      | some index => return (regFile.views.getD index (0, 0)).1.setWidth 64

/-- Evaluated arguments are copied into a contiguous run. -/
def gatherArguments (evaluated : List U16) : CompileM U16 := do
  let base ← reads Compiler.slotTop
  copySlots evaluated
  if evaluated.isEmpty then
    let _ ← allocSlot
  return base
where
  copySlots : List U16 → CompileM Unit
    | [] => pure ()
    | slot :: slots => do
      let _ ← emitResult fun target => ⟨.move, 0, target, slot, kNoSlot, kNoSlot, 0⟩
      copySlots slots

mutual

def compileExpr : Expr → CompileM U16
  | .integer value =>
    emitResult fun dest => ⟨.constInt, 0, dest, kNoSlot, kNoSlot, kNoSlot, value⟩
  | .string _ => fail "a string is not a value"
  | .name name => compileName checked name
  | .unary op operand => do
    let slot ← compileExpr operand
    if ← reads fun c => m.isIntExpr c operand then
      emitResult fun dest =>
        ⟨.intUnary, IntOp.code op.toIntOp, dest, slot, kNoSlot, kNoSlot, 0⟩
    else
      emitResult fun dest =>
        ⟨.exprUnary, (if op = .negate then ExprOp.neg else ExprOp.not).code, dest, slot, kNoSlot,
          kNoSlot, 0⟩
  | .binary op lhs rhs => do
    if ← reads fun c => m.isIntExpr c lhs && m.isIntExpr c rhs then
      let a ← compileExpr lhs
      let b ← compileExpr rhs
      emitResult fun dest => ⟨.intBinary, IntOp.code op.toIntOp, dest, a, b, kNoSlot, 0⟩
    else
      match toExprOp (reverseComparison op) with
      | none => fail ("operator '" ++ operatorText op ++ "' has no IL form")
      | some exprOp =>
        -- The IL has no reversed comparisons, and the operands are emitted in its order.
        if isReversedComparison op then
          let a ← compileExpr rhs
          let b ← compileExpr lhs
          emitResult fun dest => ⟨.exprBinary, exprOp.code, dest, a, b, kNoSlot, 0⟩
        else
          let a ← compileExpr lhs
          let b ← compileExpr rhs
          emitResult fun dest => ⟨.exprBinary, exprOp.code, dest, a, b, kNoSlot, 0⟩
  | .conditional condition ifTrue ifFalse => do
    let a ← compileExpr condition
    let b ← compileExpr ifTrue
    let c ← compileExpr ifFalse
    emitResult fun dest => ⟨.intSelect, 0, dest, a, b, c, 0⟩
  | .index (.name file) element => do
    let base ← regAccessBase checked file none
    let index ← compileExpr element
    emitResult fun dest => ⟨.readReg, 0, dest, index, kNoSlot, kNoSlot, base⟩
  | .member (.index (.name file) element) view => do
    let base ← regAccessBase checked file (some view)
    let index ← compileExpr element
    emitResult fun dest => ⟨.readReg, 0, dest, index, kNoSlot, kNoSlot, base⟩
  | .index _ _ | .member _ _ => fail "expected a register file element"
  | .call callee args =>
    match loweringTable.lookup callee with
    | some lowering =>
      if lowering.op = .intrinsic then do
        let name ← internString ((args.head?.map Expr.nameOf).getD "")
        let hasResult := callee == "intrinsic_value"
        let width ← compileExprs 1 (if hasResult then 1 else 0) args
        let first := if hasResult then 2 else 1
        let evaluated ← compileExprs first args.length args
        let base ← gatherArguments evaluated
        let dest ← if hasResult then allocSlot else pure kNoSlot
        Compiler.emit ⟨.intrinsic, 0, dest, base, BitVec.ofNat 16 (args.length - first),
          width.headD kNoSlot, name⟩
        return dest
      else if lowering.op = .unimplemented then do
        let name ← internString ((args.head?.map Expr.nameOf).getD "")
        Compiler.emit ⟨.unimplemented, 0, kNoSlot, kNoSlot, kNoSlot, kNoSlot, name⟩
        return kNoSlot
      else do
        let operands ← compileExprs 0 3 args
        let dest ← if lowering.isEffect then pure kNoSlot else allocSlot
        Compiler.emit ⟨lowering.op, lowering.aux, dest, operands.getD 0 kNoSlot,
          operands.getD 1 kNoSlot, operands.getD 2 kNoSlot, 0⟩
        return dest
    | none =>
      match m.functionIndex callee with
      | none => fail ("unresolved function '" ++ callee ++ "'")
      | some index => do
        let evaluated ← compileExprs 0 args.length args
        let base ← gatherArguments evaluated
        emitResult fun dest =>
          ⟨.callFn, 0, dest, base, BitVec.ofNat 16 args.length, kNoSlot,
            BitVec.ofNat 64 index⟩

/-- Some arguments, from one on and so many at most. -/
def compileExprs : Nat → Nat → List Expr → CompileM (List U16)
  | _, _, [] => pure []
  | skip + 1, count, _ :: es => compileExprs skip count es
  | 0, 0, _ :: _ => pure []
  | 0, count + 1, e :: es => do
    let slot ← compileExpr e
    let slots ← compileExprs 0 count es
    return slot :: slots

end

/-! ## Statements -/

def compileAssign (target value : Expr) : CompileM Unit := do
  let slot ← m.compileExpr checked value
  match target with
  | .name name =>
    match checked.namedRegs.lookup name with
    | none => fail ("'" ++ name ++ "' is not a register")
    | some reg => do
      let zero ← emitResult fun dest => ⟨.constInt, 0, dest, kNoSlot, kNoSlot, kNoSlot, 0⟩
      Compiler.emit ⟨.writeReg, 0, kNoSlot, zero, slot, kNoSlot, reg⟩
  | .index (.name file) element => do
    let base ← regAccessBase checked file none
    let index ← m.compileExpr checked element
    Compiler.emit ⟨.writeReg, 0, kNoSlot, index, slot, kNoSlot, base⟩
  | .member (.index (.name file) element) view => do
    let base ← regAccessBase checked file (some view)
    let index ← m.compileExpr checked element
    Compiler.emit ⟨.writeReg, 0, kNoSlot, index, slot, kNoSlot, base⟩
  | _ => fail "expected a register file element"

/-- What is bound in a branch ends with it. -/
def inScope (x : CompileM Unit) : CompileM Unit := do
  let saved ← reads id
  x
  modify fun c =>
    { c with slotTop := saved.slotTop, names := saved.names, intSlots := saved.intSlots }

/-- `JumpIfZero` or `Jump` with a target that is not known yet. -/
def emitJump (op : Opcode) (condition : U16) : CompileM Nat := do
  let site ← reads fun c => c.code.length
  Compiler.emit ⟨op, 0, kNoSlot, condition, kNoSlot, kNoSlot, 0⟩
  return site

def patchHere (site : Nat) : CompileM Unit := do
  let target ← reads here
  patchJump site target

mutual

def compileStatement : Stmt → CompileM Unit
  | .letBind name value => do
    let isInt ← reads fun c => m.isIntExpr c value
    let slot ← m.compileExpr checked value
    let bound ← emitResult fun dest => ⟨.move, 0, dest, slot, kNoSlot, kNoSlot, 0⟩
    modify fun c =>
      { c with
        names := (name, bound) :: c.names
        intSlots := if isInt then bound :: c.intSlots else c.intSlots.filter (· != bound) }
  | .assign target value => m.compileAssign checked target value
  | .effect value => do
    let _ ← m.compileExpr checked value
  | .ifElse condition thenBody elseBody => do
    let slot ← m.compileExpr checked condition
    let branchToElse ← emitJump .jumpIfZero slot
    inScope (compileStatements thenBody)
    if elseBody.isEmpty then patchHere branchToElse
    else do
      let branchToEnd ← emitJump .jump kNoSlot
      patchHere branchToElse
      inScope (compileStatements elseBody)
      patchHere branchToEnd
  | .ret value => do
    let slot ← match value with
      | some value => m.compileExpr checked value
      | none => pure kNoSlot
    Compiler.emit ⟨.ret_, 0, kNoSlot, slot, kNoSlot, kNoSlot, 0⟩

def compileStatements : List Stmt → CompileM Unit
  | [] => pure ()
  | stmt :: body => do
    compileStatement stmt
    compileStatements body

end

/-! ## Bodies -/

/-- A body around what emits it. -/
def compileBody (x : CompileM Unit) : CompileM Body := do
  beginBody
  x
  endBody

def bindParams : List ParamDecl → CompileM Unit
  | [] => pure ()
  | param :: params => do
    let slot ← allocSlot
    modify fun c =>
      { c with
        names := (param.name, slot) :: c.names
        intSlots := if param.type.kind = .int then slot :: c.intSlots else c.intSlots }
    bindParams params

def halt : Insn := ⟨.halt, 0, kNoSlot, kNoSlot, kNoSlot, kNoSlot, 0⟩

def compileFunction (f : FnDecl) : CompileM Body :=
  compileBody do
    bindParams f.params
    m.compileStatements checked f.body
    Compiler.emit halt

def compileValueBody (e : Expr) : CompileM Body :=
  compileBody do
    let slot ← m.compileExpr checked e
    Compiler.emit ⟨.ret_, 0, kNoSlot, slot, kNoSlot, kNoSlot, 0⟩

def compileConstantBody (value : U64) : CompileM Body :=
  compileBody do
    let dest ← emitResult fun dest => ⟨.constInt, 0, dest, kNoSlot, kNoSlot, kNoSlot, value⟩
    Compiler.emit ⟨.ret_, 0, kNoSlot, dest, kNoSlot, kNoSlot, 0⟩

def noBody : Body := ⟨0, 0, 0⟩

/-! ### Disassembly -/

def asmStyles : List String :=
  ["", "reg", "regsp", "vreg", "hex", "dec", "cond", "label", "shift", "extend"]

/-- The width a `:label` substitution is sign-extended at. -/
def labelFieldBits (fields : List ProgramField) : Expr → CompileM U64
  | .name text =>
    match fields.find? (·.name == text) with
    | some field => return field.bits.setWidth 64
    | none => fail "a label operand must be an encoding field"
  | _ => fail "a label operand must be an encoding field"

def pushPiece (piece : ProgramAsmPiece) : CompileM Unit :=
  modify fun c => { c with asmPieces := c.asmPieces ++ [piece] }

def compileStyleArgument (fields : List ProgramField) (value : Expr) (style : String)
    (styleArgument : Option Expr) : CompileM Body :=
  match styleArgument with
  | some argument => m.compileValueBody checked argument
  | none =>
    if style = "label" then do
      let bits ← labelFieldBits fields value
      compileConstantBody bits
    else return noBody

mutual

def compileAsmPiece (fields : List ProgramField) : AsmPiece → CompileM Unit
  | .text text => do
    let index ← internString text
    pushPiece ⟨0, 0, index.setWidth 32, noBody, noBody⟩
  | .substitution value style styleArgument =>
    match asmStyles.idxOf? style with
    | none => fail ("unknown asm style '" ++ style ++ "'")
    | some code => do
      let body ← m.compileValueBody checked value
      let argument ← m.compileStyleArgument checked fields value style styleArgument
      pushPiece ⟨1, BitVec.ofNat 8 code, 0, body, argument⟩
  | .optionalGroup group => do
    pushPiece ⟨2, 0, 0, noBody, noBody⟩
    compileAsmPieces fields group
    pushPiece ⟨3, 0, 0, noBody, noBody⟩

def compileAsmPieces (fields : List ProgramField) : List AsmPiece → CompileM Unit
  | [] => pure ()
  | piece :: pieces => do
    compileAsmPiece fields piece
    compileAsmPieces fields pieces

end

/-! ### Rules -/

/-- Fields are written most significant first. -/
def fieldsFrom : Nat → List EncodingItem → List ProgramField
  | _, [] => []
  | offset, item :: items =>
    match item.field with
    | none => fieldsFrom (offset - item.bits) items
    | some field =>
      ⟨field, BitVec.ofNat 8 (offset - item.bits), BitVec.ofNat 8 item.bits⟩ ::
        fieldsFrom (offset - item.bits) items

def compileGuards : List Expr → CompileM (List Body)
  | [] => pure []
  | guard :: guards => do
    let body ← m.compileValueBody checked guard
    let bodies ← compileGuards guards
    return body :: bodies

def compileAsm (fields : List ProgramField) : Option (List AsmPiece) → CompileM (U32 × U32)
  | none => pure (0, 0)
  | some pieces => do
    let start ← reads fun c => c.asmPieces.length
    m.compileAsmPieces checked fields pieces
    let stop ← reads fun c => c.asmPieces.length
    return (BitVec.ofNat 32 start, BitVec.ofNat 32 (stop - start))

def compileInsn (insn : InsnDecl) : CompileM ProgramInsn := do
  let fields := fieldsFrom insn.width insn.encoding
  modify fun c => { c with fields := some fields }
  let guards ← m.compileGuards checked insn.guards
  let disassembly ← m.compileAsm checked fields insn.asmTemplate
  let semantics ← compileBody do
    m.compileStatements checked insn.semantics
    Compiler.emit halt
  modify fun c => { c with fields := none }
  return ⟨insn.name, fields, guards, semantics, disassembly.1, disassembly.2⟩

def compileFunctions : List FnDecl → CompileM (List ProgramFn)
  | [] => pure []
  | f :: fs => do
    let body ← m.compileFunction checked f
    let functions ← compileFunctions fs
    return ⟨f.name, BitVec.ofNat 16 f.params.length, body⟩ :: functions

def compileInsns : List InsnDecl → CompileM (List ProgramInsn)
  | [] => pure []
  | insn :: insns => do
    let compiled ← m.compileInsn checked insn
    let rest ← compileInsns insns
    return compiled :: rest

/-- `compile`: the program of a module that has been checked. -/
def compile : Except String SpecProgram :=
  match (do
      let functions ← m.compileFunctions checked m.functions
      let instructions ← m.compileInsns checked m.instructions
      return (functions, instructions) : CompileM _) ⟨[], [], [], 0, 0, 0, [], [], none⟩ with
  | (.error message, _) => .error message
  | (.ok (functions, instructions), c) =>
    .ok { checked.program with
      code := c.code
      asmPieces := c.asmPieces
      strings := c.strings
      functions := functions
      instructions := instructions }

end Module

end SpecAst

end Xdec

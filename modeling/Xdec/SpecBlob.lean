import Xdec.ByteReader
import Xdec.SpecProgram

/-!
# The spec blob

A compiled spec as a flat buffer, field by field, and the loader that reads it
back.  The decision tree is not stored: it is a function of the patterns.

The loader's registers go through `RegisterFile::add` and `addSubRegister`, whose
assertions are an outcome of their own here.  So is what the register file here
has no place for: a class that no enumerator has, and a view whose end wraps
round 32 bits.
-/

namespace Xdec

open Reader

namespace Opcode

/-- The enumerators, in order. -/
def enumerators : List Opcode :=
  [halt, constInt, field, insnPc, insnLen, opword, intUnary, intBinary, intSelect, sExtInt,
    onesInt, highestBitInt, rorInt, replicateInt, move, jump, jumpIfZero, ret_, callFn, imm, undef,
    exprUnary, exprBinary, cast, extract, concat, select, flagDef, flagCond, flagBit, readReg,
    writeReg, load, store, branch, condBranch, indirectBranch, callAddr, indirectCall, ret, nop,
    unreachable, intrinsic, unimplemented]

def code : Opcode → U8
  | unknown code => code
  | op => BitVec.ofNat 8 (enumerators.idxOf op)

def ofCode (code : U8) : Opcode := enumerators.getD code.toNat (unknown code)

end Opcode

namespace RegClass

def enumerators : List RegClass :=
  [general, float, vector, flags, stackPointer, programCounter, zero, special]

def code (c : RegClass) : U8 := BitVec.ofNat 8 (enumerators.idxOf c)

def ofCode (code : U8) : Option RegClass := enumerators[code.toNat]?

end RegClass

/-- Why a blob is not loaded. -/
inductive LoadError where
  | corrupt (what : String)
  | version (found : U32)
  /-- An assertion of the register file. -/
  | assertion
  /-- A register class that no enumerator has, or a view whose end wraps. -/
  | unrepresented
deriving DecidableEq

namespace SpecProgram

def kMagic : U32 := 0x43455053#32
def kVersion : U32 := 1#32

/-- The handle of no register. -/
def kNoRegister : U32 := 0xFFFFFFFF#32

end SpecProgram

/-- `Diag::format`. -/
def LoadError.format : LoadError → String
  | .corrupt what => "bad-format: spec blob is corrupt: " ++ what
  | .version found => "bad-format: spec blob is version " ++ toString found.toNat ++
      " but this build reads version " ++ toString SpecProgram.kVersion.toNat
  | .assertion => ""
  | .unrepresented => ""

/-! ## Writing -/

def put8 (v : Byte) : List Byte := [v]

def putBool (b : Bool) : List Byte := put8 (if b then 1#8 else 0#8)

def putBody (body : Body) : List Byte :=
  written [put32 body.start, put32 body.length, put16 body.slots]

def putRegister (reg : RegisterInfo) : List Byte :=
  written [putText reg.name, putCount reg.bits, put8 reg.regClass.code,
    match reg.parent with
    | some parent => putCount parent
    | none => put32 SpecProgram.kNoRegister,
    putCount reg.offsetInParent, putBool reg.zeroExtendsParent]

def putView (view : U32 × U32) : List Byte := written [put32 view.1, put32 view.2]

def putRegFile (file : ProgramRegFile) : List Byte :=
  written [putText file.name, put32 file.base, put32 file.count, put32 file.bits, put8 file.role,
    putTable putView file.views]

def putInsn (insn : Insn) : List Byte :=
  written [put8 insn.op.code, put8 insn.aux, put16 insn.dest, put16 insn.a, put16 insn.b,
    put16 insn.c, put64 insn.imm]

def putPiece (piece : ProgramAsmPiece) : List Byte :=
  written [put8 piece.op, put8 piece.style, put32 piece.text, putBody piece.value,
    putBody piece.styleArgument]

def putFunction (function : ProgramFn) : List Byte :=
  written [putText function.name, put16 function.paramCount, putBody function.body]

def putField (field : ProgramField) : List Byte :=
  written [putText field.name, put8 field.shift, put8 field.bits]

def putInstruction (insn : ProgramInsn) : List Byte :=
  written [putText insn.name, putTable putField insn.fields, putTable putBody insn.guards,
    putBody insn.semantics, put32 insn.asmStart, put32 insn.asmLength]

def putPattern (pattern : EncodingPattern) : List Byte :=
  written [putCount pattern.instruction, putText pattern.name, put64 pattern.mask,
    put64 pattern.value, put32 (BitVec.ofInt 32 pattern.priority), putBool pattern.hasGuards]

def serialize (p : SpecProgram) : List Byte :=
  written [put32 SpecProgram.kMagic, put32 SpecProgram.kVersion, putText p.name,
    put32 (p.arch.setWidth 32), put8 (match p.endian with | .big => 1#8 | .little => 0#8),
    put32 p.insnWidth, put32 p.pointerBits,
    putTable putRegister p.registers.registers, putTable putRegFile p.regFiles,
    putTable putText p.strings, putTable putInsn p.code, putTable putPiece p.asmPieces,
    putTable putFunction p.functions, putTable putInstruction p.instructions,
    putTable putPattern p.patterns]

/-! ## Reading -/

abbrev LoadM := ReadM LoadError

def getText : LoadM String := Reader.text

def getBool : LoadM Bool := do
  let byte ← u8
  return byte != 0#8

def getBody : LoadM Body := do
  let start ← u32
  let length ← u32
  let slots ← u16
  return ⟨start, length, slots⟩

/-- One register, added to those before it. -/
def getRegister (file : RegisterFile) : LoadM RegisterFile := do
  let name ← getText
  let bits ← u32
  let regClass ← u8
  let parent ← u32
  let offset ← u32
  let zeroExtends ← getBool
  if parent = SpecProgram.kNoRegister then
    match RegClass.ofCode regClass with
    | none => .fail .unrepresented
    | some regClass =>
      match file.add name bits.toNat regClass with
      | none => .fail .assertion
      | some file => pure file
  else if 2 ^ 32 ≤ offset.toNat + bits.toNat then .fail .unrepresented
  else
    match file.addSubRegister name parent.toNat offset.toNat bits.toNat zeroExtends with
    | none => .fail .assertion
    | some file => pure file

/-- The loop over the registers. -/
def getRegisters : Nat → RegisterFile → LoadM RegisterFile
  | 0, file => pure file
  | n + 1, file => do
    if ← Fallible.reads Reader.failed then pure file
    else do
      let file ← getRegister file
      getRegisters n file

def getView : LoadM (U32 × U32) := do
  let base ← u32
  let bits ← u32
  return (base, bits)

def getRegFile : LoadM ProgramRegFile := do
  let name ← getText
  let base ← u32
  let count ← u32
  let bits ← u32
  let role ← u8
  let views ← table 8 getView
  return ⟨name, base, count, bits, views, role⟩

def getInsn : LoadM Insn := do
  let op ← u8
  let aux ← u8
  let dest ← u16
  let a ← u16
  let b ← u16
  let c ← u16
  let imm ← u64
  return ⟨Opcode.ofCode op, aux, dest, a, b, c, imm⟩

def getPiece : LoadM ProgramAsmPiece := do
  let op ← u8
  let style ← u8
  let text ← u32
  let value ← getBody
  let styleArgument ← getBody
  return ⟨op, style, text, value, styleArgument⟩

def getFunction : LoadM ProgramFn := do
  let name ← getText
  let paramCount ← u16
  let body ← getBody
  return ⟨name, paramCount, body⟩

def getField : LoadM ProgramField := do
  let name ← getText
  let shift ← u8
  let bits ← u8
  return ⟨name, shift, bits⟩

def getInstruction : LoadM ProgramInsn := do
  let name ← getText
  let fields ← table 6 getField
  let guards ← table 10 getBody
  let semantics ← getBody
  let asmStart ← u32
  let asmLength ← u32
  return ⟨name, fields, guards, semantics, asmStart, asmLength⟩

def getPattern : LoadM EncodingPattern := do
  let instruction ← u32
  let name ← getText
  let mask ← u64
  let value ← u64
  let priority ← u32
  let hasGuards ← getBool
  return ⟨instruction.toNat, name, mask, value, priority.toInt, hasGuards⟩

namespace SpecProgram

/-- The buffer after the version. -/
def getTables : LoadM SpecProgram := do
  let name ← getText
  let arch ← u32
  let endian ← u8
  let insnWidth ← u32
  let pointerBits ← u32
  let registerCount ← count 8
  let registers ← getRegisters registerCount RegisterFile.empty
  let regFiles ← table 8 getRegFile
  let strings ← table 4 getText
  let code ← table 18 getInsn
  let asmPieces ← table 26 getPiece
  let functions ← table 16 getFunction
  let instructions ← table 24 getInstruction
  let patterns ← table 29 getPattern
  return {
    name := name
    arch := arch.setWidth 8
    endian := if endian = 0#8 then .little else .big
    insnWidth := insnWidth
    pointerBits := pointerBits
    registers := registers
    regFiles := regFiles
    strings := strings
    code := code
    asmPieces := asmPieces
    functions := functions
    instructions := instructions
    patterns := patterns }

def bodyInRange (p : SpecProgram) (body : Body) : Bool :=
  decide (body.start.toNat + body.length.toNat ≤ p.code.length)

/-- What is wrong with one instruction's bodies. -/
def instructionFault (p : SpecProgram) (insn : ProgramInsn) : Option String :=
  if p.bodyInRange insn.semantics = false then some "an insn body points outside the code array"
  else if insn.guards.all p.bodyInRange = false then
    some "a guard points outside the code array"
  else if p.asmPieces.length < insn.asmStart.toNat + insn.asmLength.toNat then
    some "an asm template points outside the piece array"
  else none

/-- The structural sanity of what was read. -/
def fault (p : SpecProgram) : Option String :=
  if p.functions.all (fun function => p.bodyInRange function.body) = false then
    some "a function body points outside the code array"
  else
    match p.instructions.findSome? p.instructionFault with
    | some what => some what
    | none =>
      if p.patterns.all (fun pattern => decide (pattern.instruction < p.instructions.length)) =
          false then some "a pattern names an instruction that does not exist"
      else none

end SpecProgram

/-- The whole buffer. -/
def getProgram : LoadM SpecProgram := do
  let magic ← u32
  if magic ≠ SpecProgram.kMagic then .fail (.corrupt "bad magic")
  else do
    let version ← u32
    if version ≠ SpecProgram.kVersion then .fail (.version version)
    else do
      let p ← SpecProgram.getTables
      if ← Fallible.reads Reader.failed then .fail (.corrupt "truncated")
      else
        match p.fault with
        | some what => .fail (.corrupt what)
        | none => pure p

def deserialize (bytes : List Byte) : Except LoadError SpecProgram := (getProgram ⟨bytes, false⟩).1

end Xdec

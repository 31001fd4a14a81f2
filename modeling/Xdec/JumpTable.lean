import Xdec.Verify
import Xdec.ByteImage

/-!
# Jump tables

`matchJumpTable` takes the target of a computed branch apart: an entry loaded
from a base plus an index, behind a chain of casts, shifted and added to an
anchor.  `entryTarget` then reads the table the way its parameters say.
-/

namespace Xdec

/-- `ConstantResolver`, where the caller supplies one. -/
abbrev ConstantResolver := Option (Expr → Option U64)

structure JumpTable where
  base : U64
  stride : Nat
  entryBits : Nat
  relative : Bool
  anchor : U64
  signedOffsets : Bool
  offsetShift : Nat
  index : Option Expr
deriving DecidableEq

structure TableAddress where
  base : U64
  stride : Nat
  index : Option Expr
deriving DecidableEq

namespace Expr

/-- `operands[index]`. -/
def operandAt (e : Expr) (index : Nat) : Expr := e.operands.getD index (undefined Ty.voidType)

def isCast (e : Expr) : Bool := e.op == .zext || e.op == .sext || e.op == .trunc

/-- What lies under a chain of casts. -/
def belowCasts : Expr → Expr
  | e@(.unary _ _ _ a) => if e.isCast then belowCasts a else e
  | e => e

/-- There is a sign extension in the chain. -/
def signedCasts : Expr → Bool
  | e@(.unary op _ _ a) => if e.isCast then op == .sext || signedCasts a else false
  | _ => false

end Expr

section Matching

variable (f : IlFunction) (resolve : ConstantResolver)

def singleValueOf (e : Expr) : Option U64 :=
  match e.asConstant with
  | some c => some c
  | none => resolve.bind fun r => r e

/-- The scaled index next to the base. -/
def matchScaled (base : U64) (scaled : Expr) (defaultStride : Nat) : Option TableAddress :=
  let amount := (scaled.operandAt 1).asConstant
  if scaled.op = .shl ∧ amount.any (fun c => decide (c.toNat ≤ 3)) then
    some ⟨base, 2 ^ (amount.getD 0#64).toNat, some (scaled.operandAt 0)⟩
  else if scaled.op = .mul ∧
      amount.any (fun c => c == 1#64 || c == 2#64 || c == 4#64 || c == 8#64) then
    some ⟨base, (amount.getD 0#64).toNat, some (scaled.operandAt 0)⟩
  -- The index without a scale: entries sit back to back.
  else if scaled.op = .zext ∨ scaled.op = .sext ∨ scaled.op = .and then
    some ⟨base, defaultStride, some scaled⟩
  else none

/-- The base and the other operand of an address. -/
def splitAddress (address : Expr) : Option (U64 × Expr) :=
  match singleValueOf resolve (address.operandAt 0) with
  | some base => some (base, address.operandAt 1)
  | none => (singleValueOf resolve (address.operandAt 1)).map fun base => (base, address.operandAt 0)

def matchTableAddress (address : Expr) (defaultStride : Nat) : Option TableAddress :=
  match address.asConstant with
  | some base => some ⟨base, defaultStride, none⟩
  | none =>
    if address.op ≠ .add then none
    else (splitAddress resolve address).bind fun split =>
      matchScaled split.1 split.2 defaultStride

/-- The load that defines what is under the casts, with the type it defines. -/
def loadUnder (loaded : Expr) : Option (Ty × Op) :=
  let e := loaded.belowCasts
  if e.op ≠ .value then none
  else do
    let info ← f.values[e.handle]?
    let definition ← info.definition
    let load ← f.ops[definition]?
    if load.code ≠ .load ∨ info.type.isScalarInteger = false then none
    else some (info.type, load.toOp)

/-- The address with the width of an entry and whether the casts extend signs. -/
def loadTable (loaded : Expr) : Option (TableAddress × Nat × Bool) := do
  let (type, load) ← loadUnder f loaded
  let address ← matchTableAddress resolve (load.operand 0) (type.bits / 8)
  return (address, type.bits, loaded.signedCasts)

/-- `anchor + sext(load32(..))`, entries unshifted. -/
def matchSigned (anchor : U64) (offset : Expr) : Option JumpTable :=
  if offset.op = .sext ∧ offset.operandCount = 1 then do
    let (address, entryBits, _) ← loadTable f resolve (offset.operandAt 0)
    if entryBits = 32 then
      some ⟨address.base, address.stride, entryBits, true, anchor, true, 0, address.index⟩
    else none
  else none

/-- `anchor + (extend(loadW(..)) << k)`, small entries packed. -/
def matchPacked (anchor : U64) (offset : Expr) : Option JumpTable :=
  if offset.op = .shl ∧ offset.operandCount = 2 then do
    let shift ← (offset.operandAt 1).asConstant
    if shift.toNat ≤ 4 then do
      let (address, entryBits, signedEntries) ← loadTable f resolve (offset.operandAt 0)
      if entryBits = 8 ∨ entryBits = 16 ∨ entryBits = 32 then
        some ⟨address.base, address.stride, entryBits, true, anchor, signedEntries, shift.toNat,
          address.index⟩
      else none
    else none
  else none

def matchOffset (anchor : U64) (offset : Expr) : Option JumpTable :=
  (matchSigned f resolve anchor offset).or (matchPacked f resolve anchor offset)

/-- One arm of the sum as the anchor, the other as the offset. -/
def matchArm (target : Expr) (arm : Nat) : Option JumpTable :=
  (singleValueOf resolve (target.operandAt arm)).bind fun anchor =>
    matchOffset f resolve anchor (target.operandAt (1 - arm))

/-- The branch target is the entry itself. -/
def matchPointer (target : Expr) : Option JumpTable := do
  let (address, entryBits, _) ← loadTable f resolve target
  if entryBits = 64 then
    some ⟨address.base, address.stride, entryBits, false, 0#64, false, 0, address.index⟩
  else none

def matchJumpTable (target : Expr) : Option JumpTable :=
  ((if target.op = .add then
      (matchArm f resolve target 0).or (matchArm f resolve target 1)
    else none)).or (matchPointer f resolve target)

end Matching

/-! ## Reading a table -/

def kNoTarget : U64 := 1#64

def kMaxOffsetSpan : U64 := 64#64 <<< 20

/-- Where entry `index` points, or `kNoTarget`. -/
def entryTarget (image : ByteImage) (table : JumpTable) (index : U64) : U64 :=
  let slot := table.base + index * BitVec.ofNat 64 table.stride
  match image.word slot (table.entryBits / 8) with
  | none => kNoTarget
  | some entry =>
    let offset := (if table.signedOffsets then signExtend entry table.entryBits else entry) <<<
      table.offsetShift
    let va := if table.relative then table.anchor + offset else entry
    if va % 4#64 ≠ 0#64 then kNoTarget
    else if table.relative then
      let span := if table.anchor < va then va - table.anchor else table.anchor - va
      if kMaxOffsetSpan < span then kNoTarget else va
    else va

end Xdec

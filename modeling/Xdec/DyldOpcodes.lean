import Xdec.ChainedFixups
import Xdec.Leb
import Xdec.ByteReader

/-!
# dyld's opcode streams

Before chained fixups a linker wrote the slots of an image as programs: an opcode selects a
segment and an offset, moves on, or names a row of slots to rebase or to bind.  The loader
runs the three programs and emits a relocation for each slot.

`DyldAction` is what an opcode means, with its operands as integers, and `NamedSlot` a slot
that a program names.  The loader neither bounds the operands nor the slots
(`applyDyldInfo_exact`).
-/

namespace Xdec

open Leb MachO

namespace MachO

def kRebaseOpcodeMask : Byte := 0xf0#8
def kRebaseImmediateMask : Byte := 0x0f#8
def kRebaseOpDone : Byte := 0x00#8
def kRebaseOpSetTypeImm : Byte := 0x10#8
def kRebaseOpSetSegmentAndOffsetUleb : Byte := 0x20#8
def kRebaseOpAddAddrUleb : Byte := 0x30#8
def kRebaseOpAddAddrImmScaled : Byte := 0x40#8
def kRebaseOpDoRebaseImmTimes : Byte := 0x50#8
def kRebaseOpDoRebaseUlebTimes : Byte := 0x60#8
def kRebaseOpDoRebaseAddAddrUleb : Byte := 0x70#8
def kRebaseOpDoRebaseUlebTimesSkippingUleb : Byte := 0x80#8

def kBindOpcodeMask : Byte := 0xf0#8
def kBindImmediateMask : Byte := 0x0f#8
def kBindOpDone : Byte := 0x00#8
def kBindOpSetDylibOrdinalImm : Byte := 0x10#8
def kBindOpSetDylibOrdinalUleb : Byte := 0x20#8
def kBindOpSetDylibSpecialImm : Byte := 0x30#8
def kBindOpSetSymbolTrailingFlagsImm : Byte := 0x40#8
def kBindOpSetTypeImm : Byte := 0x50#8
def kBindOpSetAddendSleb : Byte := 0x60#8
def kBindOpSetSegmentAndOffsetUleb : Byte := 0x70#8
def kBindOpAddAddrUleb : Byte := 0x80#8
def kBindOpDoBind : Byte := 0x90#8
def kBindOpDoBindAddAddrUleb : Byte := 0xa0#8
def kBindOpDoBindAddAddrImmScaled : Byte := 0xb0#8
def kBindOpDoBindUlebTimesSkippingUleb : Byte := 0xc0#8

end MachO

/-! ## Reading operands -/

/-- The loop of `readUleb`; `none` is a shift by 64 or more. -/
def readUlebFrom : List Byte → Nat → U64 → Option (U64 × List Byte)
  | [], _, result => some (result, [])
  | byte :: stream, shift, result =>
    if 64 ≤ shift then none
    else
      let result := result ||| (byte &&& 0x7f#8).setWidth 64 <<< shift
      if byte &&& 0x80#8 = 0#8 then some (result, stream)
      else readUlebFrom stream (shift + 7) result

def readUleb (stream : List Byte) : Option (U64 × List Byte) := readUlebFrom stream 0 0#64

/-- The loop of `readSleb`, which leaves the last byte and how far the bits reach. -/
def readSlebFrom : List Byte → Nat → U64 → Byte → Option (U64 × Nat × Byte × List Byte)
  | [], shift, result, last => some (result, shift, last, [])
  | byte :: stream, shift, result, _ =>
    if 64 ≤ shift then none
    else
      let result := result ||| (byte &&& 0x7f#8).setWidth 64 <<< shift
      if byte &&& 0x80#8 = 0#8 then some (result, shift + 7, byte, stream)
      else readSlebFrom stream (shift + 7) result byte

def readSleb (stream : List Byte) : Option (U64 × List Byte) :=
  match readSlebFrom stream 0 0#64 0#8 with
  | none => none
  | some (result, shift, byte, stream) =>
    if shift < 64 ∧ byte &&& 0x40#8 ≠ 0#8 then
      -- `1 << 63` is the least integer, and has no negation.
      if shift = 63 then none else some (result ||| -(1#64 <<< shift), stream)
    else some (result, stream)

/-! ## The loader -/

structure DyldState where
  rebaseSegment : Nat
  rebaseAddress : U64
  bindSegment : Nat
  bindAddress : U64
  bindAddend : U64
  bindSymbol : SymbolName
  loader : MachLoader
deriving DecidableEq

def segmentVa (segments : List MachSegment) (segmentIndex : Nat) (offset : U64) : U64 :=
  match segments[segmentIndex]? with
  | none => 0#64
  | some segment => segment.vmaddr + offset

namespace DyldState

variable (segments : List MachSegment)

def emitRebase (s : DyldState) : DyldState :=
  if segments.length ≤ s.rebaseSegment then s
  else
    { s with loader := s.loader.push { Relocation.unresolved with
      va := s.rebaseAddress, kind := .relative, width := kPointerSize, isImplicitAddend := true } }

def emitBind (lazy : Bool) (s : DyldState) : DyldState :=
  if segments.length ≤ s.bindSegment ∨ s.bindSymbol = [] then s
  else
    let (symbolIndex, loader) := s.loader.importSymbolIndex s.bindSymbol
    { s with loader := loader.push { Relocation.unresolved with
      va := s.bindAddress, kind := if lazy then .jumpSlot else .gotSlot, width := kPointerSize,
      addend := s.bindAddend, symbolIndex := symbolIndex } }

/-- A slot emitted and passed. -/
def rebaseThen (step : U64) (s : DyldState) : DyldState :=
  let s := s.emitRebase segments
  { s with rebaseAddress := s.rebaseAddress + step }

def bindThen (lazy : Bool) (step : U64) (s : DyldState) : DyldState :=
  let s := s.emitBind segments lazy
  { s with bindAddress := s.bindAddress + step }

/-- One opcode: the state, the rest of the stream, and whether to go on. -/
def stepRebase (byte : Byte) (stream : List Byte) (s : DyldState) :
    Option (DyldState × List Byte × Bool) :=
  let opcode := byte &&& kRebaseOpcodeMask
  let imm := (byte &&& kRebaseImmediateMask).toNat
  let pointer := BitVec.ofNat 64 kPointerSize
  if opcode = kRebaseOpDone then some (s, stream, false)
  else if opcode = kRebaseOpSetTypeImm then some (s, stream, true)
  else if opcode = kRebaseOpSetSegmentAndOffsetUleb then
    (readUleb stream).map fun (offset, stream) =>
      ({ s with rebaseSegment := imm, rebaseAddress := segmentVa segments imm offset }, stream,
        true)
  else if opcode = kRebaseOpAddAddrUleb then
    (readUleb stream).map fun (distance, stream) =>
      ({ s with rebaseAddress := s.rebaseAddress + distance }, stream, true)
  else if opcode = kRebaseOpAddAddrImmScaled then
    some ({ s with rebaseAddress := s.rebaseAddress + BitVec.ofNat 64 imm * pointer }, stream, true)
  else if opcode = kRebaseOpDoRebaseImmTimes then
    some ((rebaseThen segments pointer)^[imm] s, stream, true)
  else if opcode = kRebaseOpDoRebaseUlebTimes then
    (readUleb stream).map fun (count, stream) =>
      ((rebaseThen segments pointer)^[count.toNat] s, stream, true)
  else if opcode = kRebaseOpDoRebaseAddAddrUleb then
    (readUleb stream).map fun (distance, stream) =>
      (rebaseThen segments (pointer + distance) s, stream, true)
  else if opcode = kRebaseOpDoRebaseUlebTimesSkippingUleb then
    (readUleb stream).bind fun (count, stream) => (readUleb stream).map fun (skip, stream) =>
      ((rebaseThen segments (pointer + skip))^[count.toNat] s, stream, true)
  else some (s, stream, false)

def stepBind (lazy : Bool) (byte : Byte) (stream : List Byte) (s : DyldState) :
    Option (DyldState × List Byte × Bool) :=
  let opcode := byte &&& kBindOpcodeMask
  let imm := (byte &&& kBindImmediateMask).toNat
  let pointer := BitVec.ofNat 64 kPointerSize
  if opcode = kBindOpDone then some ({ s with bindAddend := 0#64 }, stream, true)
  else if opcode = kBindOpSetDylibOrdinalImm ∨ opcode = kBindOpSetDylibSpecialImm then
    some (s, stream, true)
  else if opcode = kBindOpSetDylibOrdinalUleb then
    (readUleb stream).map fun (_, stream) => (s, stream, true)
  else if opcode = kBindOpSetSymbolTrailingFlagsImm then
    some ({ s with bindSymbol := stream.takeWhile (· != 0#8) },
      (stream.dropWhile (· != 0#8)).drop 1, true)
  else if opcode = kBindOpSetTypeImm then some (s, stream, true)
  else if opcode = kBindOpSetAddendSleb then
    (readSleb stream).map fun (addend, stream) => ({ s with bindAddend := addend }, stream, true)
  else if opcode = kBindOpSetSegmentAndOffsetUleb then
    (readUleb stream).map fun (offset, stream) =>
      ({ s with bindSegment := imm, bindAddress := segmentVa segments imm offset }, stream, true)
  else if opcode = kBindOpAddAddrUleb then
    (readUleb stream).map fun (distance, stream) =>
      ({ s with bindAddress := s.bindAddress + distance }, stream, true)
  else if opcode = kBindOpDoBind then some (bindThen segments lazy pointer s, stream, true)
  else if opcode = kBindOpDoBindAddAddrUleb then
    (readUleb stream).map fun (distance, stream) =>
      (bindThen segments lazy (pointer + distance) s, stream, true)
  else if opcode = kBindOpDoBindAddAddrImmScaled then
    some (bindThen segments lazy (pointer + BitVec.ofNat 64 imm * pointer) s, stream, true)
  else if opcode = kBindOpDoBindUlebTimesSkippingUleb then
    (readUleb stream).bind fun (count, stream) => (readUleb stream).map fun (skip, stream) =>
      ((bindThen segments lazy (pointer + skip))^[count.toNat] s, stream, true)
  else some (s, stream, false)

end DyldState

/-- The loop over a stream.  Every turn takes a byte, so that it needs no more fuel than
there are. -/
def runOpcodeStream
    (dispatch : Byte → List Byte → DyldState → Option (DyldState × List Byte × Bool)) :
    Nat → List Byte → DyldState → Option DyldState
  | _, [], s => some s
  | 0, _ :: _, _ => none
  | fuel + 1, byte :: stream, s =>
    match dispatch byte stream s with
    | none => none
    | some (s, stream, true) => runOpcodeStream dispatch fuel stream s
    | some (s, _, false) => some s

/-- Where the three streams stand in the file. -/
structure DyldInfo where
  rebaseOffset : Nat
  rebaseSize : Nat
  bindOffset : Nat
  bindSize : Nat
  lazyBindOffset : Nat
  lazyBindSize : Nat
deriving DecidableEq

/-- A stream that extends past the end of the file is not run. -/
def FieldReader.opcodeStream (file : FieldReader) (fileOffset size : Nat) : List Byte :=
  if size = 0 then []
  else if file.data.length < fileOffset + size then []
  else (file.data.drop fileOffset).take size

def applyDyldInfo (file : FieldReader) (segments : List MachSegment) (info : DyldInfo)
    (s : DyldState) : Option DyldState :=
  let run := fun dispatch stream s => runOpcodeStream dispatch (List.length stream) stream s
  (run (DyldState.stepRebase segments) (file.opcodeStream info.rebaseOffset info.rebaseSize) s).bind
    fun s => (run (DyldState.stepBind segments false)
      (file.opcodeStream info.bindOffset info.bindSize) s).bind
    fun s => run (DyldState.stepBind segments true)
      (file.opcodeStream info.lazyBindOffset info.lazyBindSize)
      { s with bindAddend := 0#64, bindSymbol := [] }

/-! ## What the programs mean -/

/-- An operand as it is encoded: the bytes of one integer. -/
structure Operand where
  signed : Bool
  bytes : List Byte
  one : split bytes = (bytes, [])

namespace Operand

/-- The operand at the start of a stream. -/
def ofStream (signed : Bool) (stream : List Byte) : Operand :=
  ⟨signed, (split stream).1, split_fst stream⟩

/-- The encoded integer modulo `2 ^ 64`. -/
def word (operand : Operand) : U64 :=
  BitVec.ofInt 64 (if operand.signed then signedValue operand.bytes else magnitude operand.bytes)

def read (operand : Operand) : Option (U64 × List Byte) :=
  if operand.signed then readSleb operand.bytes else readUleb operand.bytes

/-- Nothing is shifted by 64, and no sign stands at the last bit. -/
def Fits (operand : Operand) : Prop :=
  operand.bytes.length ≤ 10 ∧
    ¬ (operand.signed = true ∧ operand.bytes.length = 9 ∧ Negative operand.bytes)

instance (operand : Operand) : Decidable operand.Fits :=
  inferInstanceAs (Decidable (_ ∧ ¬ (_ ∧ _ ∧ _)))

end Operand

/-- What an opcode does. -/
inductive DyldAction where
  | pass
  | finish
  | select (segment : Nat) (offset : U64)
  | advance (distance : U64)
  | addend (value : U64)
  | symbol (name : SymbolName)
  /-- A row of slots, so many bytes between one and the next. -/
  | fix (times : Nat) (skip : U64)
deriving DecidableEq

structure DyldInsn where
  operands : List Operand
  action : DyldAction

namespace DyldInsn

def plain (action : DyldAction) (stream : List Byte) : Option (DyldInsn × List Byte) :=
  some (⟨[], action⟩, stream)

/-- An opcode with one operand. -/
def taking (signed : Bool) (stream : List Byte) (action : U64 → DyldAction) :
    Option (DyldInsn × List Byte) :=
  let operand := Operand.ofStream signed stream
  some (⟨[operand], action operand.word⟩, (split stream).2)

/-- An opcode with a count and a distance. -/
def row (stream : List Byte) : Option (DyldInsn × List Byte) :=
  let count := Operand.ofStream false stream
  let skip := Operand.ofStream false (split stream).2
  some (⟨[count, skip], .fix count.word.toNat skip.word⟩, (split (split stream).2).2)

end DyldInsn

open DyldInsn

/-- The opcode of a rebase program, where it does not end here. -/
def rebaseInsn (byte : Byte) (stream : List Byte) : Option (DyldInsn × List Byte) :=
  let opcode := byte &&& kRebaseOpcodeMask
  let imm := (byte &&& kRebaseImmediateMask).toNat
  if opcode = kRebaseOpDone then none
  else if opcode = kRebaseOpSetTypeImm then plain .pass stream
  else if opcode = kRebaseOpSetSegmentAndOffsetUleb then taking false stream (.select imm)
  else if opcode = kRebaseOpAddAddrUleb then taking false stream .advance
  else if opcode = kRebaseOpAddAddrImmScaled then
    plain (.advance (BitVec.ofNat 64 imm * BitVec.ofNat 64 kPointerSize)) stream
  else if opcode = kRebaseOpDoRebaseImmTimes then plain (.fix imm 0#64) stream
  else if opcode = kRebaseOpDoRebaseUlebTimes then
    taking false stream fun count => .fix count.toNat 0#64
  else if opcode = kRebaseOpDoRebaseAddAddrUleb then taking false stream (.fix 1)
  else if opcode = kRebaseOpDoRebaseUlebTimesSkippingUleb then row stream
  else none

def bindInsn (byte : Byte) (stream : List Byte) : Option (DyldInsn × List Byte) :=
  let opcode := byte &&& kBindOpcodeMask
  let imm := (byte &&& kBindImmediateMask).toNat
  if opcode = kBindOpDone then plain .finish stream
  else if opcode = kBindOpSetDylibOrdinalImm ∨ opcode = kBindOpSetDylibSpecialImm then
    plain .pass stream
  else if opcode = kBindOpSetDylibOrdinalUleb then taking false stream fun _ => .pass
  else if opcode = kBindOpSetSymbolTrailingFlagsImm then
    plain (.symbol (stream.takeWhile (· != 0#8))) ((stream.dropWhile (· != 0#8)).drop 1)
  else if opcode = kBindOpSetTypeImm then plain .pass stream
  else if opcode = kBindOpSetAddendSleb then taking true stream .addend
  else if opcode = kBindOpSetSegmentAndOffsetUleb then taking false stream (.select imm)
  else if opcode = kBindOpAddAddrUleb then taking false stream .advance
  else if opcode = kBindOpDoBind then plain (.fix 1 0#64) stream
  else if opcode = kBindOpDoBindAddAddrUleb then taking false stream (.fix 1)
  else if opcode = kBindOpDoBindAddAddrImmScaled then
    plain (.fix 1 (BitVec.ofNat 64 imm * BitVec.ofNat 64 kPointerSize)) stream
  else if opcode = kBindOpDoBindUlebTimesSkippingUleb then row stream
  else none

inductive StreamKind where
  | rebase
  | bind
  | lazyBind
deriving DecidableEq

def StreamKind.insnAt : StreamKind → Byte → List Byte → Option (DyldInsn × List Byte)
  | .rebase => rebaseInsn
  | .bind | .lazyBind => bindInsn

/-- The opcodes of a stream. -/
def decodeProgram (kind : StreamKind) : Nat → List Byte → List DyldInsn
  | _, [] => []
  | 0, _ :: _ => []
  | fuel + 1, byte :: stream =>
    match kind.insnAt byte stream with
    | none => []
    | some (insn, stream) => insn :: decodeProgram kind fuel stream

/-- Where a program stands, whether it has selected its segment, and whether it has
ended. -/
structure DyldCursor where
  segment : Nat
  address : U64
  addend : U64
  symbol : SymbolName
  selected : Bool
  ended : Bool
deriving DecidableEq

/-- A slot named by a program.  It is owed where the program has selected a segment and
has not ended. -/
structure NamedSlot where
  kind : StreamKind
  segment : Nat
  va : U64
  symbol : SymbolName
  addend : U64
  times : Nat
  owed : Bool
deriving DecidableEq

namespace DyldCursor

/-- The end of a lazy program is followed by the next one. -/
def after (segments : List MachSegment) (kind : StreamKind) (c : DyldCursor) :
    DyldAction → DyldCursor
  | .pass => c
  | .finish => { c with addend := 0#64, ended := c.ended || kind != .lazyBind }
  | .select segment offset =>
    { c with segment := segment, address := segmentVa segments segment offset, selected := true }
  | .advance distance => { c with address := c.address + distance }
  | .addend value => { c with addend := value }
  | .symbol name => { c with symbol := name }
  | .fix times skip =>
    { c with address :=
        c.address + BitVec.ofNat 64 times * (BitVec.ofNat 64 kPointerSize + skip) }

def slot (kind : StreamKind) (times : Nat) (c : DyldCursor) : NamedSlot :=
  ⟨kind, c.segment, c.address, c.symbol, c.addend, times, c.selected && !c.ended⟩

/-- The first slots of a row, of so many in all. -/
def row (kind : StreamKind) (times : Nat) (step : U64) (n : Nat) (c : DyldCursor) :
    List NamedSlot :=
  (List.range n).map fun i =>
    slot kind times { c with address := c.address + BitVec.ofNat 64 i * step }

def named (kind : StreamKind) (c : DyldCursor) : DyldAction → List NamedSlot
  | .fix times skip => c.row kind times (BitVec.ofNat 64 kPointerSize + skip) times
  | _ => []

/-- The slots that a program names, in order. -/
def slots (segments : List MachSegment) (kind : StreamKind) (c : DyldCursor) :
    List DyldInsn → List NamedSlot
  | [] => []
  | insn :: rest =>
    c.named kind insn.action ++ slots segments kind (c.after segments kind insn.action) rest

def afterAll (segments : List MachSegment) (kind : StreamKind) (c : DyldCursor)
    (program : List DyldInsn) : DyldCursor :=
  program.foldl (fun c insn => c.after segments kind insn.action) c

end DyldCursor

namespace NamedSlot

/-- Of a segment that exists, and for a bind with a symbol. -/
def Kept (segments : List MachSegment) (slot : NamedSlot) : Prop :=
  slot.segment < segments.length ∧ (slot.kind ≠ .rebase → slot.symbol ≠ [])

instance (segments : List MachSegment) (slot : NamedSlot) : Decidable (slot.Kept segments) :=
  inferInstanceAs (Decidable (_ ∧ (_ → _)))

/-- The slot lies wholly in its segment, and its row has no more slots than the segment has
bytes. -/
def Inside (segments : List MachSegment) (slot : NamedSlot) : Prop :=
  ∃ segment ∈ segments[slot.segment]?, segment.vmaddr.toNat ≤ slot.va.toNat ∧
    slot.va.toNat + kPointerSize ≤ segment.vmaddr.toNat + segment.vmsize.toNat ∧
    slot.times ≤ segment.vmsize.toNat

end NamedSlot

/-! ## Operands are read -/

section Operands

theorem setWidth_digit (byte : Byte) :
  (byte &&& 0x7f#8).setWidth 64 = BitVec.ofNat 64 (digit byte) := by
  refine BitVec.eq_of_toNat_eq ?_
  rw [BitVec.toNat_setWidth, BitVec.toNat_ofNat, digit]

theorem split_last {byte : Byte} (h : byte &&& 0x80#8 = 0#8) (stream : List Byte) :
  split (byte :: stream) = ([byte], stream) := by
  rw [split]
  exact if_neg (not_not_intro h)

theorem split_more {byte : Byte} (h : ¬ byte &&& 0x80#8 = 0#8) (stream : List Byte) :
  split (byte :: stream) = (byte :: (split stream).1, (split stream).2) := by
  rw [split]
  exact if_pos h

theorem digit_step {k v : Nat} (hv : v < 2 ^ (7 * k)) (byte : Byte) :
  v + digit byte * 2 ^ (7 * k) < 2 ^ (7 * (k + 1)) := by
  have hdigit := digit_lt byte
  have hpow : (2 : Nat) ^ (7 * (k + 1)) = 128 * 2 ^ (7 * k) := by
    rw [Nat.mul_add, Nat.pow_add, Nat.mul_comm]
  have hle : (digit byte + 1) * 2 ^ (7 * k) ≤ 128 * 2 ^ (7 * k) := Nat.mul_le_mul_right _ hdigit
  rw [Nat.add_mul, Nat.one_mul] at hle
  omega

theorem magnitude_step (k v d m : Nat) :
  v + d * 2 ^ (7 * k) + 2 ^ (7 * (k + 1)) * m = v + 2 ^ (7 * k) * (d + 2 ^ 7 * m) := by
  rw [Nat.mul_add 7, Nat.pow_add]
  ring

/-- The loop after `k` bytes. -/
theorem readSlebFrom_eq (stream : List Byte) {k v : Nat} (hk : k ≤ 10) (hv : v < 2 ^ (7 * k))
  (last : Byte) :
  readSlebFrom stream (7 * k) (BitVec.ofNat 64 v) last =
    if k + (split stream).1.length ≤ 10 then
      some (BitVec.ofNat 64 (v + 2 ^ (7 * k) * magnitude (split stream).1),
        7 * (k + (split stream).1.length), (split stream).1.getLastD last, (split stream).2)
    else none := by
  induction stream generalizing k v last with
  | nil =>
    rw [readSlebFrom, split, magnitude, if_pos (by simpa using hk), Nat.mul_zero, Nat.add_zero]
    rfl
  | cons byte stream ih =>
    rw [readSlebFrom]
    by_cases hshift : 64 ≤ 7 * k
    · rw [if_pos hshift, if_neg]
      rw [split]
      split <;> rw [List.length_cons] <;> omega
    · rw [if_neg hshift, setWidth_digit, or_shiftLeft_eq_add hv (by omega)]
      dsimp only
      by_cases hlast : byte &&& 0x80#8 = 0#8
      · rw [if_pos hlast, split_last hlast, if_pos (by rw [List.length_singleton]; omega),
          magnitude, magnitude, ← magnitude_step, Nat.mul_zero, Nat.add_zero]
        rfl
      · rw [if_neg hlast, show 7 * k + 7 = 7 * (k + 1) from rfl,
          ih (by omega) (digit_step hv byte), split_more hlast, magnitude, magnitude_step,
          List.length_cons,
          show k + 1 + (split stream).1.length = k + ((split stream).1.length + 1) by omega,
          List.getLastD_cons]

/-- The unsigned reader is the signed one without its shift and last byte. -/
theorem readUlebFrom_eq_map (stream : List Byte) (shift : Nat) (value : U64) (last : Byte) :
  readUlebFrom stream shift value =
    (readSlebFrom stream shift value last).map fun read => (read.1, read.2.2.2) := by
  induction stream generalizing shift value last with
  | nil => rfl
  | cons byte stream ih =>
    rw [readUlebFrom, readSlebFrom]
    split
    · rfl
    · dsimp only
      split
      · rfl
      · exact ih _ _ _

theorem readUlebFrom_eq (stream : List Byte) {k v : Nat} (hk : k ≤ 10) (hv : v < 2 ^ (7 * k)) :
  readUlebFrom stream (7 * k) (BitVec.ofNat 64 v) =
    if k + (split stream).1.length ≤ 10 then
      some (BitVec.ofNat 64 (v + 2 ^ (7 * k) * magnitude (split stream).1), (split stream).2)
    else none := by
  rw [readUlebFrom_eq_map stream _ _ 0#8, readSlebFrom_eq stream hk hv]
  split
  · rfl
  · rfl

theorem readUleb_eq (stream : List Byte) : readUleb stream =
  if (split stream).1.length ≤ 10 then
    some (BitVec.ofNat 64 (magnitude (split stream).1), (split stream).2)
  else none := by
  have h := @readUlebFrom_eq stream 0 0 (by decide) (by decide)
  rwa [Nat.zero_add, Nat.zero_add, Nat.mul_zero, Nat.pow_zero, Nat.one_mul] at h

theorem or_sign {v k : Nat} (hv : v < 2 ^ k) (hk : k < 64) :
  BitVec.ofNat 64 v ||| -(1#64 <<< k) = BitVec.ofInt 64 ((v : Int) - 2 ^ k) := by
  have hsplit : 2 ^ (64 - k) * 2 ^ k = 2 ^ 64 := by
    rw [← Nat.pow_add]
    congr 1
    omega
  have hpower : 2 ^ k < 2 ^ 64 := Nat.pow_lt_pow_right (by decide) hk
  have hpositive := Nat.two_pow_pos k
  have hrest : (2 ^ (64 - k) - 1) * 2 ^ k = 2 ^ 64 - 2 ^ k := by
    rw [Nat.sub_mul, hsplit, Nat.one_mul]
  have hsign : -(1#64 <<< k) = BitVec.ofNat 64 (2 ^ (64 - k) - 1) <<< k := by
    have h := @or_shiftLeft_eq_add 0 k hpositive hk (2 ^ (64 - k) - 1)
    have hone := @or_shiftLeft_eq_add 0 k hpositive hk 1
    rw [BitVec.zero_or, Nat.zero_add] at h hone
    rw [h, hone, hrest, Nat.one_mul]
    refine BitVec.eq_of_toNat_eq ?_
    rw [BitVec.toNat_neg, BitVec.toNat_ofNat, BitVec.toNat_ofNat, Nat.mod_eq_of_lt hpower]
  rw [hsign, or_shiftLeft_eq_add hv hk, hrest]
  refine BitVec.eq_of_toNat_eq ?_
  have hcast : (2 : Int) ^ k = ((2 ^ k : Nat) : Int) := (Int.natCast_pow 2 k).symm
  rw [BitVec.toNat_ofNat, BitVec.toNat_ofInt, hcast]
  generalize 2 ^ k = power at *
  omega

theorem readSleb_eq (stream : List Byte) : readSleb stream =
  if (split stream).1.length ≤ 10 ∧
      ¬ ((split stream).1.length = 9 ∧ Negative (split stream).1) then
    some (BitVec.ofInt 64 (signedValue (split stream).1), (split stream).2)
  else none := by
  have h := @readSlebFrom_eq stream 0 0 (by decide) (by decide) 0#8
  rw [Nat.zero_add, Nat.zero_add, Nat.mul_zero, Nat.pow_zero, Nat.one_mul] at h
  have hlt := magnitude_lt (split stream).1
  rw [readSleb, h, signedValue]
  by_cases hlength : (split stream).1.length ≤ 10
  · rw [if_pos hlength]
    dsimp only
    by_cases hnegative : Negative (split stream).1
    · rw [if_pos hnegative]
      by_cases hnine : (split stream).1.length = 9
      · rw [if_pos ⟨by omega, hnegative⟩, if_pos (by omega), if_neg fun h => h.2 ⟨hnine, hnegative⟩]
      · rw [if_pos (show _ ∧ ¬ (_ ∧ _) from ⟨hlength, fun h => hnine h.1⟩)]
        by_cases hten : (split stream).1.length = 10
        · -- The sign lies above the word.
          rw [if_neg (by omega), hten]
          refine congrArg (fun word => some (word, (split stream).2)) (BitVec.eq_of_toNat_eq ?_)
          rw [BitVec.toNat_ofNat, BitVec.toNat_ofInt]
          omega
        · rw [if_pos ⟨by omega, hnegative⟩, if_neg (by omega), or_sign hlt (by omega)]
    · rw [if_neg hnegative, if_neg fun h => hnegative h.2,
        if_pos (show _ ∧ ¬ (_ ∧ _) from ⟨hlength, fun h => hnegative h.2⟩), Int.sub_zero,
        BitVec.ofInt_natCast]
  · rw [if_neg hlength, if_neg fun h => hlength h.1]

namespace Operand

theorem readUleb_of_fits {stream : List Byte} (h : (ofStream false stream).Fits) :
  readUleb stream = some ((ofStream false stream).word, (split stream).2) := by
  have hlength : (split stream).1.length ≤ 10 := h.1
  rw [readUleb_eq, if_pos hlength, word, ofStream, if_neg Bool.false_ne_true,
    BitVec.ofInt_natCast]

theorem readSleb_of_fits {stream : List Byte} (h : (ofStream true stream).Fits) :
  readSleb stream = some ((ofStream true stream).word, (split stream).2) := by
  have hfits : (split stream).1.length ≤ 10 ∧
      ¬ ((split stream).1.length = 9 ∧ Negative (split stream).1) :=
    ⟨h.1, fun hnine => h.2 ⟨rfl, hnine⟩⟩
  rw [readSleb_eq, if_pos hfits, word, ofStream, if_pos rfl]

/-- An operand is read as the integer it encodes where it fits, and only there. -/
theorem read_eq_some_iff (operand : Operand) :
  operand.read = some (operand.word, []) ↔ operand.Fits := by
  obtain ⟨signed, bytes, hone⟩ := operand
  cases signed with
  | false =>
    rw [read, if_neg Bool.false_ne_true, readUleb_eq, hone, word, if_neg Bool.false_ne_true,
      BitVec.ofInt_natCast]
    simp [Fits]
  | true =>
    rw [read, if_pos rfl, readSleb_eq, hone, word, if_pos rfl]
    simp [Fits]

end Operand

end Operands

/-! ## What the loader emits -/

namespace NamedSlot

/-- A relocation that does to a slot what its program says.  An import is shown by the
index under which it was entered. -/
def Shows (loader : MachLoader) (relocation : Relocation) (slot : NamedSlot) : Prop :=
  match slot.kind with
  | .rebase =>
    relocation = { Relocation.unresolved with
      va := slot.va, kind := .relative, width := kPointerSize, isImplicitAddend := true }
  | kind =>
    ∃ index, loader.importIndex.lookup slot.symbol = some index ∧
      relocation = { Relocation.unresolved with
        va := slot.va, kind := if kind = .lazyBind then .jumpSlot else .gotSlot,
        width := kPointerSize, addend := slot.addend, symbolIndex := index }

theorem Shows.mono {loader loader' : MachLoader} {relocation : Relocation} {slot : NamedSlot}
  (h : slot.Shows loader relocation)
  (hlookups : ∀ name index, loader.importIndex.lookup name = some index →
    loader'.importIndex.lookup name = some index) : slot.Shows loader' relocation := by
  unfold Shows at h ⊢
  split at h
  · exact h
  · obtain ⟨index, hindex, hrelocation⟩ := h
    exact ⟨index, hlookups _ _ hindex, hrelocation⟩

end NamedSlot

/-- What the loader has collected of some slots. -/
structure MachLoader.Collects (segments : List MachSegment) (loader loader' : MachLoader)
    (slots : List NamedSlot) : Prop where
  relocations : ∃ added, loader'.relocations = loader.relocations ++ added ∧
    List.Forall₂ (fun relocation slot => slot.Shows loader' relocation) added
      (slots.filter fun slot => slot.Kept segments)
  lookups : ∀ name index, loader.importIndex.lookup name = some index →
    loader'.importIndex.lookup name = some index

namespace MachLoader.Collects

variable {segments : List MachSegment} {loader loader' loader'' : MachLoader}

theorem refl (loader : MachLoader) : loader.Collects segments loader [] :=
  ⟨⟨[], (List.append_nil _).symm, .nil⟩, fun _ _ => id⟩

theorem trans {xs ys : List NamedSlot} (h : loader.Collects segments loader' xs)
  (h' : loader'.Collects segments loader'' ys) :
  loader.Collects segments loader'' (xs ++ ys) := by
  obtain ⟨added, hadded, hshows⟩ := h.relocations
  obtain ⟨added', hadded', hshows'⟩ := h'.relocations
  refine ⟨⟨added ++ added', by rw [hadded', hadded, List.append_assoc], ?_⟩,
    fun name index hold => h'.lookups name index (h.lookups name index hold)⟩
  rw [List.filter_append]
  exact List.rel_append (hshows.imp fun _ _ hr => hr.mono h'.lookups) hshows'

theorem skip {slot : NamedSlot} (h : ¬ slot.Kept segments) :
  loader.Collects segments loader [slot] := by
  refine ⟨⟨[], (List.append_nil _).symm, ?_⟩, fun _ _ => id⟩
  rw [List.filter_cons_of_neg (by simpa using h)]
  exact .nil

theorem push {slot : NamedSlot} {relocation : Relocation} (h : slot.Kept segments)
  (hrelocations : loader'.relocations = loader.relocations)
  (hlookups : ∀ name index, loader.importIndex.lookup name = some index →
    loader'.importIndex.lookup name = some index)
  (hshows : slot.Shows loader' relocation) :
  loader.Collects segments (loader'.push relocation) [slot] := by
  refine ⟨⟨[relocation], by rw [MachLoader.push, hrelocations], ?_⟩, hlookups⟩
  rw [List.filter_cons_of_pos (by simpa using h)]
  exact .cons hshows .nil

end MachLoader.Collects

theorem MachLoader.lookup_importSymbolIndex (loader : MachLoader) (name : SymbolName) :
  (loader.importSymbolIndex name).2.importIndex.lookup name =
      some (loader.importSymbolIndex name).1 ∧
    (loader.importSymbolIndex name).2.relocations = loader.relocations ∧
    ∀ other index, loader.importIndex.lookup other = some index →
      (loader.importSymbolIndex name).2.importIndex.lookup other = some index := by
  unfold importSymbolIndex
  cases hlookup : loader.importIndex.lookup name with
  | some index => exact ⟨hlookup, rfl, fun _ _ => id⟩
  | none =>
    refine ⟨by rw [List.lookup_cons_self], rfl, fun other index hother => ?_⟩
    have hne : (other == name) = false := by
      refine beq_false_of_ne fun heq => ?_
      rw [heq, hlookup] at hother
      cases hother
    rw [List.lookup_cons, hne]
    exact hother

/-- The registers of a program. -/
def DyldState.At (s : DyldState) (kind : StreamKind) (c : DyldCursor) : Prop :=
  match kind with
  | .rebase => s.rebaseSegment = c.segment ∧ s.rebaseAddress = c.address
  | _ => s.bindSegment = c.segment ∧ s.bindAddress = c.address ∧ s.bindAddend = c.addend ∧
      s.bindSymbol = c.symbol

/-- What a step of a program does to the loader's state: rebasing leaves the registers of
the bind programs alone. -/
structure DyldState.Ran (segments : List MachSegment) (kind : StreamKind) (s s' : DyldState)
    (c' : DyldCursor) (slots : List NamedSlot) : Prop where
  here : s'.At kind c'
  bind : kind = .rebase → ∀ c, s.At .bind c → s'.At .bind c
  collects : s.loader.Collects segments s'.loader slots

namespace DyldState

variable {segments : List MachSegment} {kind : StreamKind} {s s' s'' : DyldState}
  {c c' c'' : DyldCursor}

/-- A step that emits nothing. -/
theorem Ran.silent (hhere : s'.At kind c')
  (hbind : kind = .rebase → ∀ c, s.At .bind c → s'.At .bind c) (hloader : s'.loader = s.loader) :
  Ran segments kind s s' c' [] := by
  refine ⟨hhere, hbind, ?_⟩
  rw [hloader]
  exact .refl _

theorem Ran.trans {xs ys : List NamedSlot} (h : Ran segments kind s s' c' xs)
  (h' : Ran segments kind s' s'' c'' ys) : Ran segments kind s s'' c'' (xs ++ ys) :=
  ⟨h'.here, fun hkind c hc => h'.bind hkind c (h.bind hkind c hc), h.collects.trans h'.collects⟩

theorem ran_rebaseThen (times : Nat) (step : U64) (h : s.At .rebase c) :
  Ran segments .rebase s (s.rebaseThen segments step) { c with address := c.address + step }
    [c.slot .rebase times] := by
  obtain ⟨hsegment, haddress⟩ := h
  unfold rebaseThen emitRebase
  by_cases hkept : segments.length ≤ s.rebaseSegment
  · rw [if_pos hkept]
    refine ⟨⟨hsegment, congrArg (· + step) haddress⟩, fun _ _ hc => hc, .skip fun hin => ?_⟩
    have hlt : c.segment < segments.length := hin.1
    omega
  · rw [if_neg hkept]
    refine ⟨⟨hsegment, congrArg (· + step) haddress⟩, fun _ _ hc => hc, ?_⟩
    refine .push ⟨?_, fun hne => absurd rfl hne⟩ rfl (fun _ _ => id) ?_
    · show c.segment < segments.length
      omega
    · rw [haddress]
      rfl

theorem ran_bindThen {lazy : Bool} (hkind : kind = if lazy then .lazyBind else .bind)
  (times : Nat) (step : U64) (h : s.At kind c) :
  Ran segments kind s (s.bindThen segments lazy step) { c with address := c.address + step }
    [c.slot kind times] := by
  have hne : kind ≠ .rebase := by cases lazy <;> rw [hkind] <;> simp
  have hat : ∀ (s : DyldState) (c : DyldCursor), s.At kind c ↔ s.bindSegment = c.segment ∧
      s.bindAddress = c.address ∧ s.bindAddend = c.addend ∧ s.bindSymbol = c.symbol := by
    intro s c
    cases lazy <;> rw [hkind] <;> rfl
  obtain ⟨hsegment, haddress, haddend, hsymbol⟩ := (hat s c).mp h
  unfold bindThen emitBind
  by_cases hkept : segments.length ≤ s.bindSegment ∨ s.bindSymbol = []
  · rw [if_pos hkept]
    refine ⟨(hat _ _).mpr ⟨hsegment, congrArg (· + step) haddress, haddend, hsymbol⟩,
      fun heq => absurd heq hne, .skip fun hin => ?_⟩
    have hlt : c.segment < segments.length := hin.1
    have hname : c.symbol ≠ [] := hin.2 hne
    rcases hkept with hkept | hkept
    · omega
    · exact hname (hsymbol ▸ hkept)
  · rw [if_neg hkept]
    obtain ⟨hlt, hname⟩ := not_or.mp hkept
    obtain ⟨hlookup, hrelocations, hlookups⟩ := s.loader.lookup_importSymbolIndex s.bindSymbol
    refine ⟨(hat _ _).mpr ⟨hsegment, congrArg (· + step) haddress, haddend, hsymbol⟩,
      fun heq => absurd heq hne, ?_⟩
    refine .push ⟨?_, fun _ => ?_⟩ hrelocations hlookups ?_
    · show c.segment < segments.length
      omega
    · rw [DyldCursor.slot, ← hsymbol]
      exact hname
    · have hentered : (s.loader.importSymbolIndex s.bindSymbol).2.importIndex.lookup c.symbol =
          some (s.loader.importSymbolIndex s.bindSymbol).1 := by
        rw [← hsymbol]
        exact hlookup
      rw [haddress, haddend]
      cases lazy <;> subst hkind <;> exact ⟨_, hentered, rfl⟩

theorem row_succ (times : Nat) (step : U64) (n : Nat) (c : DyldCursor) :
  c.row kind times step (n + 1) =
    c.slot kind times :: { c with address := c.address + step }.row kind times step n := by
  rw [DyldCursor.row, DyldCursor.row, List.range_succ_eq_map, List.map_cons, List.map_map]
  refine List.cons_eq_cons.mpr ⟨?_, List.map_congr_left fun i _ => ?_⟩
  · rw [BitVec.zero_mul, BitVec.add_zero]
  · refine congrArg (fun address => DyldCursor.slot kind times { c with address := address }) ?_
    rw [Nat.succ_eq_add_one, Nat.add_comm, BitVec.ofNat_add, BitVec.add_mul, BitVec.one_mul,
      BitVec.add_assoc]

theorem ran_row {body : DyldState → DyldState} {times : Nat} {step : U64}
  (hbody : ∀ (s : DyldState) (c : DyldCursor), s.At kind c →
    Ran segments kind s (body s) { c with address := c.address + step } [c.slot kind times])
  (n : Nat) (h : s.At kind c) :
  Ran segments kind s (body^[n] s) { c with address := c.address + BitVec.ofNat 64 n * step }
    (c.row kind times step n) := by
  induction n generalizing s c with
  | zero =>
    have haddress : c.address + BitVec.ofNat 64 0 * step = c.address := by
      rw [BitVec.zero_mul, BitVec.add_zero]
    rw [haddress]
    exact .silent h (fun _ _ => id) rfl
  | succ n ih =>
    have hfirst := hbody s c h
    rw [row_succ, Function.iterate_succ_apply, Nat.add_comm n 1, BitVec.ofNat_add,
      BitVec.add_mul, BitVec.one_mul, ← BitVec.add_assoc]
    exact hfirst.trans (ih hfirst.here)

end DyldState

/-! ## Running a program -/

namespace DyldState

variable {segments : List MachSegment} {kind : StreamKind} {s s' : DyldState} {c : DyldCursor}
  {byte : Byte} {stream : List Byte}

/-- One opcode of a stream: the loader stops where there is none, and else does what it
means, if its operands fit. -/
def Meets (segments : List MachSegment) (kind : StreamKind) (s : DyldState) (c : DyldCursor)
    (stream : List Byte) (result : Option (DyldState × List Byte × Bool)) :
    Option (DyldInsn × List Byte) → Prop
  | none => result = some (s, stream, false)
  | some (insn, rest) => rest.length ≤ stream.length ∧
      ((∀ operand ∈ insn.operands, operand.Fits) →
        ∃ s', result = some (s', rest, true) ∧
          Ran segments kind s s' (c.after segments kind insn.action) (c.named kind insn.action))

theorem Meets.ite {p : Prop} [Decidable p] {result other : Option (DyldState × List Byte × Bool)}
  {decoded undecoded : Option (DyldInsn × List Byte)}
  (h : Meets segments kind s c stream result decoded)
  (hother : Meets segments kind s c stream other undecoded) :
  Meets segments kind s c stream (if p then result else other)
    (if p then decoded else undecoded) := by
  split
  · exact h
  · exact hother

theorem meets_plain {action : DyldAction} {rest : List Byte} (hrest : rest.length ≤ stream.length)
  (hran : Ran segments kind s s' (c.after segments kind action) (c.named kind action)) :
  Meets segments kind s c stream (some (s', rest, true)) (plain action rest) :=
  ⟨hrest, fun _ => ⟨s', rfl, hran⟩⟩

/-- An opcode with one operand. -/
theorem meets_taking {signed : Bool} {read : List Byte → Option (U64 × List Byte)}
  {action : U64 → DyldAction} {perform : U64 × List Byte → DyldState × List Byte × Bool}
  (hread : (Operand.ofStream signed stream).Fits →
    read stream = some ((Operand.ofStream signed stream).word, (split stream).2))
  (hran : ∀ word rest, ∃ s', perform (word, rest) = (s', rest, true) ∧
    Ran segments kind s s' (c.after segments kind (action word)) (c.named kind (action word))) :
  Meets segments kind s c stream ((read stream).map perform) (taking signed stream action) := by
  refine ⟨length_split stream, fun hfits => ?_⟩
  rw [hread (hfits _ List.mem_cons_self), Option.map_some]
  obtain ⟨s', hs', hran⟩ := hran (Operand.ofStream signed stream).word (split stream).2
  exact ⟨s', congrArg some hs', hran⟩

theorem meets_row {perform : U64 × List Byte → Option (DyldState × List Byte × Bool)}
  (hran : ∀ count skip first rest, readUleb first = some (skip, rest) →
    ∃ s', perform (count, first) = some (s', rest, true) ∧ Ran segments kind s s'
      (c.after segments kind (.fix count.toNat skip)) (c.named kind (.fix count.toNat skip))) :
  Meets segments kind s c stream ((readUleb stream).bind perform) (DyldInsn.row stream) := by
  refine ⟨Nat.le_trans (length_split _) (length_split stream), fun hfits => ?_⟩
  have hcount := hfits _ List.mem_cons_self
  have hskip := hfits _ (List.mem_cons_of_mem _ List.mem_cons_self)
  rw [Operand.readUleb_of_fits hcount, Option.bind_some]
  exact hran _ _ _ _ (Operand.readUleb_of_fits hskip)

/-- A row of one slot. -/
theorem ran_fix_one {step skip : U64} (hstep : step = BitVec.ofNat 64 kPointerSize + skip)
  (h : Ran segments kind s s' { c with address := c.address + step } [c.slot kind 1]) :
  Ran segments kind s s' (c.after segments kind (.fix 1 skip)) (c.named kind (.fix 1 skip)) := by
  have hone : BitVec.ofNat 64 1 * (BitVec.ofNat 64 kPointerSize + skip) = step := by
    rw [BitVec.one_mul, hstep]
  have hrow : c.named kind (.fix 1 skip) = [c.slot kind 1] := by
    rw [DyldCursor.named, row_succ]
    rfl
  rw [hrow, DyldCursor.after, hone]
  exact h

theorem ran_rebaseRow {step skip : U64} (hstep : step = BitVec.ofNat 64 kPointerSize + skip)
  (times : Nat) (h : s.At .rebase c) :
  Ran segments .rebase s ((rebaseThen segments step)^[times] s)
    (c.after segments .rebase (.fix times skip)) (c.named .rebase (.fix times skip)) := by
  rw [DyldCursor.after, DyldCursor.named, ← hstep]
  exact ran_row (fun s c h => ran_rebaseThen times step h) times h

theorem ran_bindRow {lazy : Bool} (hkind : kind = if lazy then .lazyBind else .bind)
  {step skip : U64} (hstep : step = BitVec.ofNat 64 kPointerSize + skip)
  (times : Nat) (h : s.At kind c) :
  Ran segments kind s ((bindThen segments lazy step)^[times] s)
    (c.after segments kind (.fix times skip)) (c.named kind (.fix times skip)) := by
  rw [DyldCursor.after, DyldCursor.named, ← hstep]
  exact ran_row (fun s c h => ran_bindThen hkind times step h) times h

theorem stepRebase_meets (h : s.At .rebase c) :
  Meets segments .rebase s c stream (stepRebase segments byte stream s)
    (rebaseInsn byte stream) := by
  have hpointer : BitVec.ofNat 64 kPointerSize = BitVec.ofNat 64 kPointerSize + 0#64 :=
    (BitVec.add_zero _).symm
  have hle := Nat.le_refl stream.length
  have hbind : StreamKind.rebase = .rebase → ∀ c, s.At .bind c → s.At .bind c := fun _ _ => id
  obtain ⟨hsegment, haddress⟩ := h
  refine .ite rfl (.ite ?type (.ite ?select (.ite ?advance (.ite ?scaled (.ite ?times
    (.ite ?ulebTimes (.ite ?addAddr (.ite ?skipping rfl))))))))
  case type => exact meets_plain hle (.silent ⟨hsegment, haddress⟩ hbind rfl)
  case select =>
    refine meets_taking Operand.readUleb_of_fits fun word _ => ⟨_, rfl, ?_⟩
    exact .silent (And.intro rfl rfl) hbind rfl
  case advance =>
    refine meets_taking Operand.readUleb_of_fits fun word _ => ⟨_, rfl, ?_⟩
    exact .silent (And.intro hsegment (congrArg (· + word) haddress)) hbind rfl
  case scaled =>
    exact meets_plain hle (.silent (And.intro hsegment (congrArg (· + _) haddress)) hbind rfl)
  case times => exact meets_plain hle (ran_rebaseRow hpointer _ ⟨hsegment, haddress⟩)
  case ulebTimes =>
    refine meets_taking Operand.readUleb_of_fits fun word _ => ⟨_, rfl, ?_⟩
    exact ran_rebaseRow hpointer word.toNat ⟨hsegment, haddress⟩
  case addAddr =>
    refine meets_taking Operand.readUleb_of_fits fun word _ => ⟨_, rfl, ?_⟩
    exact ran_fix_one rfl (ran_rebaseThen 1 _ ⟨hsegment, haddress⟩)
  case skipping =>
    refine meets_row fun count skip first rest hread =>
      ⟨_, ?_, ran_rebaseRow rfl count.toNat ⟨hsegment, haddress⟩⟩
    dsimp only
    rw [hread, Option.map_some]

theorem stepBind_meets {lazy : Bool} (hkind : kind = if lazy then .lazyBind else .bind)
  (hat : s.At kind c) :
  Meets segments kind s c stream (stepBind segments lazy byte stream s)
    (bindInsn byte stream) := by
  have hbind : ∀ {s' : DyldState}, kind = .rebase → ∀ c, s.At .bind c → s'.At .bind c := by
    intro _ heq
    cases lazy <;> rw [heq] at hkind <;> cases hkind
  have hiff : ∀ (s : DyldState) (c : DyldCursor), s.At kind c ↔ s.bindSegment = c.segment ∧
      s.bindAddress = c.address ∧ s.bindAddend = c.addend ∧ s.bindSymbol = c.symbol := by
    intro s c
    cases lazy <;> rw [hkind] <;> rfl
  have hle := Nat.le_refl stream.length
  have hname : ((stream.dropWhile (· != 0#8)).drop 1).length ≤ stream.length :=
    ((List.drop_sublist 1 _).trans (List.dropWhile_sublist _)).length_le
  obtain ⟨hsegment, haddress, haddend, hsymbol⟩ := (hiff s c).mp hat
  refine .ite ?done (.ite ?imm (.ite ?ordinal (.ite ?symbol (.ite ?type (.ite ?addend (.ite ?select
    (.ite ?advance (.ite ?bind (.ite ?addAddr (.ite ?scaled (.ite ?skipping rfl)))))))))))
  case done =>
    exact meets_plain hle (.silent ((hiff _ _).mpr ⟨hsegment, haddress, rfl, hsymbol⟩) hbind rfl)
  case imm => exact meets_plain hle (.silent hat hbind rfl)
  case ordinal =>
    refine meets_taking Operand.readUleb_of_fits fun word _ => ⟨_, rfl, ?_⟩
    exact .silent hat hbind rfl
  case symbol =>
    exact meets_plain hname (.silent ((hiff _ _).mpr ⟨hsegment, haddress, haddend, rfl⟩) hbind rfl)
  case type => exact meets_plain hle (.silent hat hbind rfl)
  case addend =>
    refine meets_taking Operand.readSleb_of_fits fun word _ => ⟨_, rfl, ?_⟩
    exact .silent ((hiff _ _).mpr ⟨hsegment, haddress, rfl, hsymbol⟩) hbind rfl
  case select =>
    refine meets_taking Operand.readUleb_of_fits fun word _ => ⟨_, rfl, ?_⟩
    exact .silent ((hiff _ _).mpr ⟨rfl, rfl, haddend, hsymbol⟩) hbind rfl
  case advance =>
    refine meets_taking Operand.readUleb_of_fits fun word _ => ⟨_, rfl, ?_⟩
    have haddress := congrArg (· + word) haddress
    exact .silent ((hiff _ _).mpr ⟨hsegment, haddress, haddend, hsymbol⟩) hbind rfl
  case bind =>
    exact meets_plain hle (ran_fix_one (BitVec.add_zero _).symm (ran_bindThen hkind 1 _ hat))
  case addAddr =>
    refine meets_taking Operand.readUleb_of_fits fun word _ => ⟨_, rfl, ?_⟩
    exact ran_fix_one rfl (ran_bindThen hkind 1 _ hat)
  case scaled => exact meets_plain hle (ran_fix_one rfl (ran_bindThen hkind 1 _ hat))
  case skipping =>
    refine meets_row fun count skip first rest hread =>
      ⟨_, ?_, ran_bindRow hkind rfl count.toNat hat⟩
    dsimp only
    rw [hread, Option.map_some]

/-- The dispatch of each stream. -/
def step (segments : List MachSegment) : StreamKind → Byte → List Byte → DyldState →
    Option (DyldState × List Byte × Bool)
  | .rebase => stepRebase segments
  | .bind => stepBind segments false
  | .lazyBind => stepBind segments true

theorem step_meets (hat : s.At kind c) :
  Meets segments kind s c stream (step segments kind byte stream s)
    (kind.insnAt byte stream) := by
  cases kind with
  | rebase => exact stepRebase_meets hat
  | bind => exact stepBind_meets rfl hat
  | lazyBind => exact stepBind_meets rfl hat

/-- **Running a program.**  Where every operand fits, the loader emits what is kept of the
slots the program names. -/
theorem runOpcodeStream_ran {fuel : Nat} {stream : List Byte} {s : DyldState} {c : DyldCursor}
  (hfuel : stream.length ≤ fuel)
  (hfits : ∀ insn ∈ decodeProgram kind fuel stream, ∀ operand ∈ insn.operands, operand.Fits)
  (hat : s.At kind c) :
  ∃ s', runOpcodeStream (step segments kind) fuel stream s = some s' ∧
    Ran segments kind s s' (c.afterAll segments kind (decodeProgram kind fuel stream))
      (c.slots segments kind (decodeProgram kind fuel stream)) := by
  induction fuel generalizing stream s c with
  | zero =>
    obtain rfl := List.length_eq_zero_iff.mp (Nat.le_zero.mp hfuel)
    exact ⟨s, rfl, .silent hat (fun _ _ => id) rfl⟩
  | succ fuel ih =>
    cases stream with
    | nil => exact ⟨s, rfl, .silent hat (fun _ _ => id) rfl⟩
    | cons byte stream =>
      have hmeets := @step_meets segments kind s c byte stream hat
      rw [runOpcodeStream]
      rw [decodeProgram] at hfits ⊢
      cases hinsn : kind.insnAt byte stream with
      | none =>
        rw [hinsn] at hmeets
        rw [show step segments kind byte stream s = _ from hmeets]
        exact ⟨s, rfl, .silent hat (fun _ _ => id) rfl⟩
      | some decoded =>
        obtain ⟨insn, rest⟩ := decoded
        rw [hinsn] at hfits hmeets
        dsimp only at hfits ⊢
        obtain ⟨hrest, hsteps⟩ := hmeets
        obtain ⟨s₁, hs₁, hran⟩ := hsteps (hfits insn List.mem_cons_self)
        rw [List.length_cons] at hfuel
        obtain ⟨s', hs', hran'⟩ := ih (by omega)
          (fun other hother => hfits other (List.mem_cons_of_mem insn hother)) hran.here
        rw [hs₁]
        exact ⟨s', hs', hran.trans hran'⟩

end DyldState

/-! ## The three streams -/

namespace DyldInfo

variable (info : DyldInfo) (file : FieldReader) (segments : List MachSegment) (s : DyldState)

def stream : StreamKind → List Byte
  | .rebase => file.opcodeStream info.rebaseOffset info.rebaseSize
  | .bind => file.opcodeStream info.bindOffset info.bindSize
  | .lazyBind => file.opcodeStream info.lazyBindOffset info.lazyBindSize

def program (kind : StreamKind) : List DyldInsn :=
  decodeProgram kind (info.stream file kind).length (info.stream file kind)

def operands : List Operand :=
  (info.program file .rebase ++ info.program file .bind ++ info.program file .lazyBind).flatMap
    DyldInsn.operands

def rebaseCursor : DyldCursor := ⟨s.rebaseSegment, s.rebaseAddress, 0#64, [], false, false⟩

def bindCursor : DyldCursor :=
  ⟨s.bindSegment, s.bindAddress, s.bindAddend, s.bindSymbol, false, false⟩

/-- The lazy programs start without an addend and a symbol. -/
def lazyCursor : DyldCursor :=
  { (bindCursor s).afterAll segments .bind (info.program file .bind) with
    addend := 0#64, symbol := [], selected := false, ended := false }

/-- The slots that the streams name, in order. -/
def slots : List NamedSlot :=
  (rebaseCursor s).slots segments .rebase (info.program file .rebase) ++
    ((bindCursor s).slots segments .bind (info.program file .bind) ++
      (info.lazyCursor file segments s).slots segments .lazyBind (info.program file .lazyBind))

/-- The relocations that dyld's definition of the programs gives. -/
def owed : List NamedSlot :=
  (info.slots file segments s).filter fun slot => slot.owed ∧ slot.Kept segments

/-- Every operand is read as the integer it encodes, the relocations emitted are those owed,
in order, and every slot lies in the segment that its program selected. -/
def Decoded : Prop :=
  (∀ operand ∈ info.operands file, operand.read = some (operand.word, [])) ∧
    ∃ final added, applyDyldInfo file segments info s = some final ∧
      final.loader.relocations = s.loader.relocations ++ added ∧
      List.Forall₂ (fun relocation slot => slot.Shows final.loader relocation) added
        (info.owed file segments s) ∧
      ∀ slot ∈ info.owed file segments s, slot.Inside segments

variable {info file segments s}

/-- The loader emits what is kept of the slots named, owed or not. -/
theorem applyDyldInfo_collects (hfits : ∀ operand ∈ info.operands file, operand.Fits) :
  ∃ final, applyDyldInfo file segments info s = some final ∧
    s.loader.Collects segments final.loader (info.slots file segments s) := by
  have hprogram : ∀ kind : StreamKind, ∀ insn ∈ info.program file kind,
      ∀ operand ∈ insn.operands, operand.Fits := by
    intro kind insn hinsn operand hoperand
    refine hfits operand (List.mem_flatMap.mpr ⟨insn, ?_, hoperand⟩)
    cases kind with
    | rebase => exact List.mem_append_left _ (List.mem_append_left _ hinsn)
    | bind => exact List.mem_append_left _ (List.mem_append_right _ hinsn)
    | lazyBind => exact List.mem_append_right _ hinsn
  obtain ⟨s₁, hs₁, hran₁⟩ := @DyldState.runOpcodeStream_ran segments .rebase _
    (info.stream file .rebase) s (rebaseCursor s) (Nat.le_refl _) (hprogram .rebase) ⟨rfl, rfl⟩
  have hbind : s₁.At .bind (bindCursor s) :=
    hran₁.bind rfl (bindCursor s) ⟨rfl, rfl, rfl, rfl⟩
  obtain ⟨s₂, hs₂, hran₂⟩ := @DyldState.runOpcodeStream_ran segments .bind _
    (info.stream file .bind) s₁ (bindCursor s) (Nat.le_refl _) (hprogram .bind) hbind
  have hlazy : DyldState.At { s₂ with bindAddend := 0#64, bindSymbol := [] } .lazyBind
      (info.lazyCursor file segments s) :=
    ⟨hran₂.here.1, hran₂.here.2.1, rfl, rfl⟩
  obtain ⟨s₃, hs₃, hran₃⟩ := @DyldState.runOpcodeStream_ran segments .lazyBind _
    (info.stream file .lazyBind) _ _ (Nat.le_refl _) (hprogram .lazyBind) hlazy
  refine ⟨s₃, ?_, hran₁.collects.trans (hran₂.collects.trans hran₃.collects)⟩
  rw [applyDyldInfo]
  exact (congrArg (Option.bind · _) hs₁).trans ((congrArg (Option.bind · _) hs₂).trans hs₃)

/-- **dyld's opcode streams.**  They are decoded exactly where every operand fits and every
slot that the loader keeps is owed and lies in its segment. -/
theorem applyDyldInfo_exact (info : DyldInfo) (file : FieldReader) (segments : List MachSegment)
    (s : DyldState) :
    info.Decoded file segments s ↔
      (∀ operand ∈ info.operands file, operand.Fits) ∧
        ∀ slot ∈ info.slots file segments s, slot.Kept segments →
          slot.owed = true ∧ slot.Inside segments := by
  have hread : (∀ operand ∈ info.operands file, operand.read = some (operand.word, [])) ↔
      ∀ operand ∈ info.operands file, operand.Fits :=
    forall₂_congr fun operand _ => operand.read_eq_some_iff
  rw [Decoded, hread]
  refine and_congr_right fun hfits => ?_
  obtain ⟨final, hfinal, hcollects⟩ := @applyDyldInfo_collects info file segments s hfits
  obtain ⟨added, hadded, hshows⟩ := hcollects.relocations
  have howed : info.owed file segments s =
      ((info.slots file segments s).filter fun slot => slot.Kept segments).filter
        fun slot => slot.owed := by
    rw [owed, List.filter_filter]
    refine List.filter_congr fun slot _ => ?_
    rw [Bool.decide_and]
    simp
  constructor
  · rintro ⟨final', added', hfinal', hadded', hshows', hinside⟩ slot hslot hkept
    obtain rfl := Option.some.inj (hfinal.symm.trans hfinal')
    obtain rfl := List.append_cancel_left (hadded.symm.trans hadded')
    -- Every relocation shows a slot, so that none is kept that is not owed.
    have hlength := hshows.length_eq.symm.trans hshows'.length_eq
    rw [howed] at hlength hinside
    have hall := List.length_filter_eq_length_iff.mp hlength.symm
    have hin : slot ∈ (info.slots file segments s).filter fun slot => slot.Kept segments :=
      List.mem_filter.mpr ⟨hslot, by simpa using hkept⟩
    exact ⟨hall slot hin, hinside slot (List.mem_filter.mpr ⟨hin, hall slot hin⟩)⟩
  · intro hall
    have hkeep : info.owed file segments s =
        (info.slots file segments s).filter fun slot => slot.Kept segments := by
      rw [howed]
      refine List.filter_eq_self.mpr fun slot hslot => ?_
      obtain ⟨hslot, hkept⟩ := List.mem_filter.mp hslot
      exact (hall slot hslot (by simpa using hkept)).1
    refine ⟨final, added, hfinal, hadded, ?_, fun slot hslot => ?_⟩
    · rw [hkeep]
      exact hshows
    · rw [hkeep] at hslot
      obtain ⟨hslot, hkept⟩ := List.mem_filter.mp hslot
      exact (hall slot hslot (by simpa using hkept)).2

end DyldInfo

/-! ## A segment of one slot -/

/-- Two slots rebased in a segment of eight bytes. -/
def overrunFile : FieldReader := ⟨[0x20#8, 0x00#8, 0x52#8], .little⟩

def overrunInfo : DyldInfo := ⟨0, 3, 0, 0, 0, 0⟩

def overrunSegments : List MachSegment := [⟨0x1000#64, 8#64, 0#64, 8#64⟩]

def idleDyld : DyldState := ⟨0, 0#64, 0, 0#64, 0#64, [], emptyLoader⟩

/-- The second slot lies behind the segment.  An encoding of zero in eleven bytes is not
read at all. -/
theorem rebase_overruns :
    ¬ overrunInfo.Decoded overrunFile overrunSegments idleDyld ∧
      ((applyDyldInfo overrunFile overrunSegments overrunInfo idleDyld).map fun final =>
        final.loader.relocations.map (·.va)) = some [0x1000#64, 0x1008#64] ∧
      readUleb (List.replicate 10 0x80#8 ++ [0x00#8]) = none := by
  refine ⟨?_, by decide, by decide⟩
  rintro ⟨-, final, added, -, -, -, hinside⟩
  obtain ⟨segment, hsegment, -, hend, -⟩ :=
    hinside ⟨.rebase, 0, 0x1008#64, [], 0#64, 2, true⟩ (by decide)
  obtain rfl : (⟨0x1000#64, 8#64, 0#64, 8#64⟩ : MachSegment) = segment := by
    exact Option.some.inj hsegment
  exact absurd hend (by decide)

end Xdec

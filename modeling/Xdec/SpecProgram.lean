import Xdec.Registers
import Xdec.DecisionTree

/-!
# The compiled form of a spec

A `SpecProgram` is flat: bytecode, strings and pieces of disassembly stand in
arrays and are referred to by index.  Fields have the widths of the source, so
that a number too large for its field cannot be written down; enumerations that
a blob stores unchecked are the stored byte.

The decoder tries the candidates of the decision tree in order.  Guards run in
the bytecode interpreter, which is a parameter here: `Guards` says which bodies
accept an instruction.
-/

namespace Xdec

abbrev U8 := BitVec 8
abbrev U16 := BitVec 16
abbrev U32 := BitVec 32

/-- An operand that is absent. -/
def kNoSlot : U16 := 0xFFFF#16

inductive Opcode where
  | halt | constInt | field | insnPc | insnLen | opword | intUnary | intBinary | intSelect
  | sExtInt | onesInt | highestBitInt | rorInt | replicateInt | move | jump | jumpIfZero | ret_
  | callFn | imm | undef | exprUnary | exprBinary | cast | extract | concat | select | flagDef
  | flagCond | flagBit | readReg | writeReg | load | store | branch | condBranch
  | indirectBranch | callAddr | indirectCall | ret | nop | unreachable | intrinsic
  | unimplemented
  /-- A code no enumerator has. -/
  | unknown (code : U8)
deriving DecidableEq

/-- One bytecode instruction. -/
structure Insn where
  op : Opcode
  /-- Sub-operation. -/
  aux : U8
  dest : U16
  a : U16
  b : U16
  c : U16
  /-- Literal, jump target, function index, register base, or string index. -/
  imm : U64
deriving DecidableEq

/-- A run of the code array and the slots it needs. -/
structure Body where
  start : U32
  length : U32
  slots : U16
deriving DecidableEq

structure ProgramFn where
  name : String
  paramCount : U16
  body : Body
deriving DecidableEq

/-- Position of a field in the instruction word. -/
structure ProgramField where
  name : String
  shift : U8
  bits : U8
deriving DecidableEq

structure ProgramAsmPiece where
  op : U8
  style : U8
  text : U32
  value : Body
  styleArgument : Body
deriving DecidableEq

structure ProgramInsn where
  name : String
  fields : List ProgramField
  guards : List Body
  semantics : Body
  /-- A run of the asm pieces. -/
  asmStart : U32
  asmLength : U32
deriving DecidableEq

structure ProgramRegFile where
  name : String
  base : U32
  count : U32
  bits : U32
  /-- Register and width of each view. -/
  views : List (U32 × U32)
  role : U8
deriving DecidableEq

inductive Endian where
  | little | big
deriving DecidableEq

structure SpecProgram where
  name : String
  arch : U8
  endian : Endian
  insnWidth : U32
  pointerBits : U32
  registers : RegisterFile
  regFiles : List ProgramRegFile
  strings : List String
  code : List Insn
  asmPieces : List ProgramAsmPiece
  functions : List ProgramFn
  instructions : List ProgramInsn
  patterns : List EncodingPattern

namespace SpecProgram

/-- The decision tree is a function of the patterns: `rebuildDecoder`. -/
def decoder (sort : StdSort) (p : SpecProgram) : DecisionNode :=
  buildDecisionTree sort p.patterns p.insnWidth.toNat

end SpecProgram

/-! ## Decoding -/

def kMaxFields : Nat := 16

structure DecodedInsn where
  valid : Bool
  instruction : Nat
  address : U64
  word : U64
  length : Nat
  /-- Field values, in the order the rule declares them. -/
  fields : List U64
deriving DecidableEq

/-- Whether a guard runs on a decoded instruction and leaves a value other than
zero. -/
abbrev Guards := SpecProgram → DecodedInsn → Body → Bool

namespace SpecProgram

variable (p : SpecProgram)

/-- The instruction word of some bytes. -/
def wordOf (endian : Endian) (bytes : List U8) : U64 :=
  match endian with
  | .little =>
    bytes.zipIdx.foldl (fun word b => word ||| (b.1.setWidth 64).shiftLeft (b.2 * 8)) 0#64
  | .big => bytes.foldl (fun word b => word <<< 8 ||| b.setWidth 64) 0#64

def noInsn : ProgramInsn := ⟨"", [], [], ⟨0, 0, 0⟩, 0, 0⟩

def fieldValue (word : U64) (field : ProgramField) : U64 :=
  (word >>> field.shift.toNat) &&& lowMask field.bits.toNat

/-- What is known of an instruction before a rule is found for it. -/
def undecoded (word : U64) (address : U64) : DecodedInsn :=
  ⟨false, 0, address, word, p.insnWidth.toNat / 8, []⟩

/-- A candidate decodes the word if it matches and its guards accept. -/
def tryCandidate (guards : Guards) (word address : U64) (candidate : Nat) : Option DecodedInsn :=
  let pattern := DecisionTree.pattern p.patterns candidate
  if !pattern.matches word then none
  else
    let rule := p.instructions.getD pattern.instruction noInsn
    let trial := { p.undecoded word address with
      instruction := pattern.instruction
      fields := (rule.fields.take kMaxFields).map (fieldValue word) }
    if rule.guards.all (guards p trial) then some { trial with valid := true } else none

/-- Decoding over the candidates for a word. -/
def decodeBy (candidates : U64 → List Nat) (guards : Guards) (bytes : List U8) (address : U64) :
    DecodedInsn :=
  let length := p.insnWidth.toNat / 8
  if bytes.length < length then p.undecoded 0#64 address
  else
    let word := wordOf p.endian (bytes.take length)
    ((candidates word).findSome? (p.tryCandidate guards word address)).getD
      (p.undecoded word address)

/-- `SpecEngine::decode`. -/
def decode (sort : StdSort) (guards : Guards) (bytes : List U8) (address : U64) : DecodedInsn :=
  p.decodeBy (fun word => (p.decoder sort).lookup word) guards bytes address

/-- Decoding by testing every pattern in match order. -/
def decodeByScan (sort : StdSort) (guards : Guards) (bytes : List U8) (address : U64) :
    DecodedInsn :=
  p.decodeBy (fun _ => DecisionTree.matchOrder p.patterns sort) guards bytes address

/-! ## The tree decides as a scan does -/

variable {p} {sort sort' : StdSort} {guards : Guards} {word address : U64} {x y : Nat}

theorem matches_of_tryCandidate (h : (p.tryCandidate guards word address x).isSome) :
  (DecisionTree.pattern p.patterns x).matches word = true := by
  by_contra hno
  rw [Bool.not_eq_true] at hno
  simp only [tryCandidate, hno, Bool.not_false, if_true] at h
  exact nomatch h

theorem tryCandidate_of_not_matches
  (h : (DecisionTree.pattern p.patterns x).matches word = false) :
  p.tryCandidate guards word address x = none := by
  simp only [tryCandidate, h, Bool.not_false, if_true]

/-- Two hits with equal rank stand for the same rule, so they decode alike. -/
theorem tryCandidate_tie (hx : (p.tryCandidate guards word address x).isSome)
  (hy : (p.tryCandidate guards word address y).isSome)
  (hxy : DecisionTree.indexBefore p.patterns x y = false)
  (hyx : DecisionTree.indexBefore p.patterns y x = false) :
  p.tryCandidate guards word address x = p.tryCandidate guards word address y := by
  have hmx := matches_of_tryCandidate hx
  have hmy := matches_of_tryCandidate hy
  have hinsn : (DecisionTree.pattern p.patterns x).instruction =
      (DecisionTree.pattern p.patterns y).instruction := by
    unfold DecisionTree.indexBefore at hxy hyx
    rw [matchesBefore_eq_false_iff] at hxy hyx
    omega
  simp only [tryCandidate, hmx, hmy, hinsn]

open DecisionTree in
/-- A scan over the candidates of the tree finds what a scan over all patterns
does. -/
theorem findSome?_lookup (sort sort' : StdSort) :
  ((p.decoder sort).lookup word).findSome? (p.tryCandidate guards word address) =
    (matchOrder p.patterns sort').findSome? (p.tryCandidate guards word address) := by
  obtain ⟨hperm, hsorted⟩ := lookup_exact sort p.patterns p.insnWidth.toNat word
  have hdrop : ∀ l, (matching p.patterns word l).findSome? (p.tryCandidate guards word address) =
      l.findSome? (p.tryCandidate guards word address) :=
    fun l => findSome?_filter fun _ h => tryCandidate_of_not_matches h
  rw [← hdrop, ← hdrop (matchOrder p.patterns sort')]
  have hscan : SortedBy (indexBefore p.patterns)
      (matching p.patterns word (matchOrder p.patterns sort')) :=
    (matchOrder_sorted p.patterns sort').filter _
  refine findSome?_eq_of_perm (indexBefore_order p.patterns).irrefl hsorted hscan ?_
    fun x y hx hy hxy hyx => tryCandidate_tie hx hy hxy hyx
  exact hperm.trans ((sort'.perm _ _).filter _).symm

/-- **The decision tree equals a linear scan.**  For a word the tree returns, of
the patterns that match, all and in match order; so decoding through the tree is
decoding by a scan, whatever the order of equally ranked patterns. -/
theorem decode_eq_scan (sort sort' : StdSort) (p : SpecProgram) (guards : Guards) :
    (∀ word,
      (DecisionTree.matching p.patterns word ((p.decoder sort).lookup word)).Perm
          (DecisionTree.matching p.patterns word (List.range p.patterns.length)) ∧
        SortedBy (DecisionTree.indexBefore p.patterns)
          (DecisionTree.matching p.patterns word ((p.decoder sort).lookup word))) ∧
      ∀ bytes address, p.decode sort guards bytes address =
        p.decodeByScan sort' guards bytes address := by
  refine ⟨fun word => lookup_exact sort p.patterns p.insnWidth.toNat word, ?_⟩
  intro bytes address
  simp only [decode, decodeByScan, decodeBy, findSome?_lookup sort sort']

end SpecProgram

end Xdec

import Xdec.ElfLoader

/-!
# Relocations

The loader reads the records of every relocation table, tells from the type how
a slot is filled, and gives a value to those it can.  Records name a symbol by
its number in one table; the loader looks it up among the symbols of all tables.
-/

namespace Xdec

inductive RelocKind where
  | unknown
  | none
  | absolute
  | relative
  | gotSlot
  | jumpSlot
  | indirectFunction
  | tlsModule
  | tlsOffset
  | tlsDescriptor
deriving DecidableEq

/-- How a relocation type behaves, independent of architecture. -/
structure RelocSemantics where
  kind : RelocKind
  usesSymbol : Bool
  biasRelative : Bool
  /-- Bytes patched; 0 stands for the size of a pointer. -/
  width : Nat
deriving DecidableEq

def classifyAArch64 (type : Nat) : RelocSemantics :=
  match type with
  | 0 => ⟨.none, false, false, 0⟩
  | 257 => ⟨.absolute, true, false, 8⟩
  | 258 => ⟨.absolute, true, false, 4⟩
  | 259 => ⟨.absolute, true, false, 2⟩
  -- Relative to the place.
  | 260 => ⟨.absolute, true, false, 8⟩
  | 261 => ⟨.absolute, true, false, 4⟩
  | 1025 => ⟨.gotSlot, true, false, 8⟩
  | 1026 => ⟨.jumpSlot, true, false, 8⟩
  | 1027 => ⟨.relative, false, true, 8⟩
  | 1032 => ⟨.indirectFunction, false, true, 8⟩
  | 1028 => ⟨.tlsModule, true, false, 8⟩
  | 1029 | 1030 => ⟨.tlsOffset, true, false, 8⟩
  | 1031 => ⟨.tlsDescriptor, true, false, 16⟩
  | _ => ⟨.unknown, false, false, 0⟩

def classifyX8664 (type : Nat) : RelocSemantics :=
  match type with
  | 0 => ⟨.none, false, false, 0⟩
  | 1 => ⟨.absolute, true, false, 8⟩
  | 10 => ⟨.absolute, true, false, 4⟩
  | 6 => ⟨.gotSlot, true, false, 8⟩
  | 7 => ⟨.jumpSlot, true, false, 8⟩
  | 8 => ⟨.relative, false, true, 8⟩
  | 37 => ⟨.indirectFunction, false, true, 8⟩
  | 16 => ⟨.tlsModule, true, false, 8⟩
  | 17 | 18 => ⟨.tlsOffset, true, false, 8⟩
  | _ => ⟨.unknown, false, false, 0⟩

def classifyArm32 (type : Nat) : RelocSemantics :=
  match type with
  | 0 => ⟨.none, false, false, 0⟩
  | 2 => ⟨.absolute, true, false, 4⟩
  | 21 => ⟨.gotSlot, true, false, 4⟩
  | 22 => ⟨.jumpSlot, true, false, 4⟩
  | 23 => ⟨.relative, false, true, 4⟩
  | 160 => ⟨.indirectFunction, false, true, 4⟩
  | 17 => ⟨.tlsModule, true, false, 4⟩
  | 18 | 19 => ⟨.tlsOffset, true, false, 4⟩
  | _ => ⟨.unknown, false, false, 0⟩

def classifyRelocation (arch : Arch) (type : Nat) : RelocSemantics :=
  match arch with
  | .aarch64 => classifyAArch64 type
  | .x86_64 => classifyX8664 type
  | .arm32 => classifyArm32 type
  | _ => ⟨.unknown, false, false, 0⟩

def kNoSymbol : Nat := 2 ^ 32 - 1

structure Relocation where
  va : U64
  rawType : Nat
  kind : RelocKind
  value : U64
  hasValue : Bool
  addend : U64
  symbolIndex : Nat
  width : Nat
  isImplicitAddend : Bool
deriving DecidableEq

/-- A relocation before it is classified. -/
def Relocation.unresolved : Relocation :=
  ⟨0#64, 0, .unknown, 0#64, false, 0#64, kNoSymbol, 8, false⟩

/-- The formats of records. -/
inductive TableFormat where
  | rel
  | rela
  | relr
deriving DecidableEq

/-- One relocation table: where it lies, and the section it comes from unless the
dynamic segment names it. -/
structure RelocTable where
  format : TableFormat
  offset : U64
  size : U64
  source : Option SectionHeader
deriving DecidableEq

/-- The fields of a record. -/
structure RelocRecord where
  offset : U64
  symbol : Nat
  type : Nat
  /-- Present in RELA records. -/
  addend : Option U64
deriving DecidableEq

namespace ElfFile

open Elf

variable (f : ElfFile)

/-! ## The tables -/

def tableFormat (sectionType : Nat) : Option TableFormat :=
  if sectionType = kShtRela then some .rela
  else if sectionType = kShtRel then some .rel
  else if sectionType = kShtRelr ∨ sectionType = kShtAndroidRelr then some .relr
  else none

/-- The section, if it holds relocations that are decoded. -/
def sectionTable (s : SectionHeader) : Option RelocTable :=
  (tableFormat s.type).map fun format => ⟨format, s.offset, s.size, some s⟩

def tableAtVa (format : TableFormat) (va size : U64) : Option RelocTable :=
  if va = 0#64 then none
  else (f.virtualToFileOffset va).map fun offset => ⟨format, offset, size, none⟩

def dynamicTables : List RelocTable :=
  let isRela := f.dynamicValue kDtPltRel kDtRela == kDtRela
  [f.tableAtVa .rela (f.dynamicValue kDtRela 0#64) (f.dynamicValue kDtRelaSz 0#64),
    f.tableAtVa .rel (f.dynamicValue kDtRel 0#64) (f.dynamicValue kDtRelSz 0#64),
    f.tableAtVa (if isRela then .rela else .rel) (f.dynamicValue kDtJmpRel 0#64)
      (f.dynamicValue kDtPltRelSz 0#64),
    f.tableAtVa .relr (f.dynamicValue kDtRelr 0#64) (f.dynamicValue kDtRelrSz 0#64)].filterMap id

/-- Sections if there are any, also packed ones, the dynamic segment otherwise. -/
def relocationTables : List RelocTable :=
  if f.sectionHeaders.any fun s => (tableFormat s.type).isSome || s.type == kShtAndroidRela then
    f.sectionHeaders.filterMap sectionTable
  else f.dynamicTables

/-! ## The records -/

def recordSize (format : TableFormat) : Nat :=
  f.header.addressSize * (if format = .rela then 3 else 2)

def readRecord (table : RelocTable) (index : Nat) : Option RelocRecord := do
  let size := f.header.addressSize
  let base := entryOffset table.offset index (f.recordSize table.format)
  let offset ← f.reader.read base size
  let info ← f.reader.read (base + BitVec.ofNat 64 size) size
  let addend ←
    if table.format = .rela then
      (f.reader.signedRead (base + BitVec.ofNat 64 (size * 2)) size).map some
    else some none
  return if f.header.is64Bit then ⟨offset, info.toNat / 2 ^ 32, info.toNat % 2 ^ 32, addend⟩
    else ⟨offset, info.toNat / 2 ^ 8 % 2 ^ 32, info.toNat % 2 ^ 8, addend⟩

/-- The records of a REL or RELA table. -/
def records (table : RelocTable) : List RelocRecord :=
  readEntries (f.readRecord table) 0 (table.size.toNat / f.recordSize table.format)

/-- Where the symbols of a table start in the list of all symbols. -/
def symbolBase (tables : SymbolTables) (table : RelocTable) : Nat :=
  match table.source with
  | some s => (tables.symbolTableBase.lookup s.link).getD 0
  | none => tables.dynamicSymbolBase.getD 0

def relocationOf (tables : SymbolTables) (table : RelocTable) (record : RelocRecord) : Relocation :=
  { Relocation.unresolved with
    va := record.offset
    rawType := record.type
    addend := record.addend.getD 0#64
    symbolIndex :=
      if record.symbol = 0 then kNoSymbol
      else (symbolBase tables table + record.symbol) % 2 ^ 32 }

def implicitRelocation (va : U64) : Relocation :=
  { Relocation.unresolved with
    va := va
    kind := .relative
    width := f.header.addressSize
    isImplicitAddend := true }

/-- The slots a bitmap names after the cursor. -/
def bitmapSlots (cursor bitmap : U64) : List U64 :=
  ((List.range (f.header.addressSize * 8 - 1)).filter fun bit => bitmap.getLsbD bit).map
    fun bit => cursor + BitVec.ofNat 64 (bit * f.header.addressSize)

/-- A word with its low bit clear is a slot, one with it set a bitmap. -/
def relrSlots (cursor : U64) : List U64 → List U64
  | [] => []
  | word :: words =>
    let size := f.header.addressSize
    if word.getLsbD 0 = false then word :: relrSlots (word + BitVec.ofNat 64 size) words
    else
      f.bitmapSlots cursor (word >>> 1) ++
        relrSlots (cursor + BitVec.ofNat 64 ((size * 8 - 1) * size)) words

def relrWords (table : RelocTable) : List U64 :=
  readEntries (fun index =>
      f.reader.read (entryOffset table.offset index f.header.addressSize) f.header.addressSize) 0
    (table.size.toNat / f.header.addressSize)

/-- The relocations of one table. -/
def parseTable (tables : SymbolTables) (table : RelocTable) : List Relocation :=
  match table.format with
  | .relr => (f.relrSlots 0#64 (f.relrWords table)).map f.implicitRelocation
  | _ => (f.records table).map (relocationOf tables table)

def parseRelocations : List Relocation :=
  f.relocationTables.flatMap (f.parseTable f.parseSymbols)

/-! ## Their values -/

/-- The number that the slot holds before relocation. -/
def slot (va : U64) (width : Nat) : Option U64 :=
  (f.memory.read va width).map f.header.endian.number

def isTls (kind : RelocKind) : Bool :=
  kind == .tlsModule || kind == .tlsOffset || kind == .tlsDescriptor

/-- One round of the loop; a relocation that stays without value is left out of
the slots that are overlaid. -/
def resolve (symbols : List Symbol) (r : Relocation) : Relocation :=
  let pointerWidth := f.header.addressSize
  if r.isImplicitAddend then
    match f.slot r.va pointerWidth with
    | some value => { r with value := value, hasValue := true }
    | none => r
  else
    let semantics := classifyRelocation f.header.arch r.rawType
    let r := { r with
      kind := semantics.kind
      width := if semantics.width ≠ 0 then semantics.width else pointerWidth }
    if semantics.kind = .unknown then r
    else if semantics.biasRelative then { r with value := r.addend, hasValue := true }
    else if semantics.usesSymbol = false then r
    else
      match if r.symbolIndex = kNoSymbol then none else symbols[r.symbolIndex]? with
      | none => r
      | some symbol =>
        if symbol.defined = false ∨ isTls semantics.kind then r
        else { r with value := symbol.va + r.addend, hasValue := true }

def resolveRelocations : List Relocation :=
  f.parseRelocations.map (f.resolve f.parseSymbols.symbols)

end ElfFile

end Xdec

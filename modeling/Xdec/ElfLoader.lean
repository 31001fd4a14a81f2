import Xdec.MemoryMap

/-!
# The ELF loader

The loader reads headers, maps memory from segments (or from sections where
there are none), and reads the dynamic segment, the symbol tables and the
relocation tables.  `load` answers `none` where the source reports a diagnostic.
Names, permissions and libraries play no part in what a relocation is given.
-/

namespace Xdec

namespace Elf

/-! ## Constants of the format -/

def kIdentSize : Nat := 16
def kClass32 : Nat := 1
def kClass64 : Nat := 2
def kData2Lsb : Nat := 1
def kData2Msb : Nat := 2
def kPtLoad : Nat := 1
def kPtDynamic : Nat := 2
def kShtSymtab : Nat := 2
def kShtRela : Nat := 4
def kShtDynamic : Nat := 6
def kShtNoBits : Nat := 8
def kShtRel : Nat := 9
def kShtDynsym : Nat := 11
def kShtRelr : Nat := 19
def kShtAndroidRela : Nat := 0x60000002
def kShtAndroidRelr : Nat := 0x6fffff00
def kShfAlloc : U64 := 0x2#64
def kShnUndef : Nat := 0
def kSttGnuIfunc : Nat := 10
def kDtNull : U64 := 0#64
def kDtPltRelSz : U64 := 2#64
def kDtHash : U64 := 4#64
def kDtSymtab : U64 := 6#64
def kDtRela : U64 := 7#64
def kDtRelaSz : U64 := 8#64
def kDtSymEnt : U64 := 11#64
def kDtRel : U64 := 17#64
def kDtRelSz : U64 := 18#64
def kDtPltRel : U64 := 20#64
def kDtJmpRel : U64 := 23#64
def kDtRelrSz : U64 := 35#64
def kDtRelr : U64 := 36#64
def kDtGnuHash : U64 := 0x6ffffef5#64

structure HeaderLayout where
  type : U64
  machine : U64
  entry : U64
  phoff : U64
  shoff : U64
  phentsize : U64
  phnum : U64
  shentsize : U64
  shnum : U64
  shstrndx : U64
  addressSize : Nat

def kHeader32 : HeaderLayout := ⟨16, 18, 24, 28, 32, 42, 44, 46, 48, 50, 4⟩

def kHeader64 : HeaderLayout := ⟨16, 18, 24, 32, 40, 54, 56, 58, 60, 62, 8⟩

structure ProgramHeaderLayout where
  type : U64
  flags : U64
  offset : U64
  vaddr : U64
  filesz : U64
  memsz : U64
  align : U64
  size : Nat

def kProgram32 : ProgramHeaderLayout := ⟨0, 24, 4, 8, 16, 20, 28, 32⟩

def kProgram64 : ProgramHeaderLayout := ⟨0, 4, 8, 16, 32, 40, 48, 56⟩

structure SectionHeaderLayout where
  name : U64
  type : U64
  flags : U64
  addr : U64
  offset : U64
  size : U64
  link : U64
  info : U64
  entsize : U64
  flagsSize : Nat
  size_ : Nat

def kSection32 : SectionHeaderLayout := ⟨0, 4, 8, 12, 16, 20, 24, 28, 36, 4, 40⟩

def kSection64 : SectionHeaderLayout := ⟨0, 4, 8, 16, 24, 32, 40, 44, 56, 8, 64⟩

structure SymbolLayout where
  name : U64
  info : U64
  other : U64
  shndx : U64
  value : U64
  size : U64
  addressSize : Nat
  entrySize : Nat

def kSymbol32 : SymbolLayout := ⟨0, 12, 13, 14, 4, 8, 4, 16⟩

def kSymbol64 : SymbolLayout := ⟨0, 4, 5, 6, 8, 16, 8, 24⟩

end Elf

/-! ## Headers -/

inductive Arch where
  | aarch64
  | arm32
  | x86
  | x86_64
  | riscV
  | mips
  | powerPc64
  | loongArch64
deriving DecidableEq

/-- Relocatable objects are told from what is loaded as a whole. -/
inductive BinaryKind where
  | relocatable
  | loadable
deriving DecidableEq

structure ElfHeader where
  is64Bit : Bool
  endian : Endian
  kind : BinaryKind
  arch : Arch
  programHeaderOffset : U64
  sectionHeaderOffset : U64
  programHeaderEntrySize : Nat
  programHeaderCount : Nat
  sectionHeaderEntrySize : Nat
  sectionHeaderCount : Nat
deriving DecidableEq

structure ProgramHeader where
  type : Nat
  offset : U64
  vaddr : U64
  fileSize : U64
  memorySize : U64
deriving DecidableEq

structure SectionHeader where
  type : Nat
  flags : U64
  addr : U64
  offset : U64
  size : U64
  link : Nat
  info : Nat
  entrySize : U64
deriving DecidableEq

structure DynamicEntry where
  tag : U64
  value : U64
deriving DecidableEq

structure Symbol where
  va : U64
  defined : Bool
  /-- Its value is found by calling a resolver. -/
  indirectFunction : Bool
  /-- The section the value is an offset into, in a relocatable object. -/
  sectionIndex : Nat
deriving DecidableEq

namespace ElfHeader

def addressSize (header : ElfHeader) : Nat := if header.is64Bit then 8 else 4

end ElfHeader

section Headers

open Elf

def archFromMachine (machine : Nat) : Option Arch :=
  match machine with
  | 183 => some .aarch64
  | 40 => some .arm32
  | 3 => some .x86
  | 62 => some .x86_64
  | 243 => some .riscV
  | 8 => some .mips
  | 21 => some .powerPc64
  | 258 => some .loongArch64
  | _ => none

def parseIdentAndHeader (file : List (BitVec 8)) : Option (FieldReader × ElfHeader) := do
  if file.length < kIdentSize then none
  let ident : FieldReader := ⟨file, .little⟩
  if (← ident.u8 0#64) ≠ 0x7f ∨ (← ident.u8 1#64) ≠ 0x45 ∨ (← ident.u8 2#64) ≠ 0x4c ∨
      (← ident.u8 3#64) ≠ 0x46 then none
  let classByte ← ident.u8 4#64
  let dataByte ← ident.u8 5#64
  if classByte ≠ kClass64 ∧ classByte ≠ kClass32 then none
  if dataByte ≠ kData2Lsb ∧ dataByte ≠ kData2Msb then none
  let is64Bit := decide (classByte = kClass64)
  let endian : Endian := if dataByte = kData2Lsb then .little else .big
  let reader : FieldReader := ⟨file, endian⟩
  let layout := if is64Bit then kHeader64 else kHeader32
  let type ← reader.u16 layout.type
  let machine ← reader.u16 layout.machine
  let _ ← reader.read layout.entry layout.addressSize
  let programHeaderOffset ← reader.read layout.phoff layout.addressSize
  let sectionHeaderOffset ← reader.read layout.shoff layout.addressSize
  let programHeaderEntrySize ← reader.u16 layout.phentsize
  let programHeaderCount ← reader.u16 layout.phnum
  let sectionHeaderEntrySize ← reader.u16 layout.shentsize
  let sectionHeaderCount ← reader.u16 layout.shnum
  let _ ← reader.u16 layout.shstrndx
  let arch ← archFromMachine machine
  return (reader,
    { is64Bit := is64Bit, endian := endian
      kind := if type = 1 then .relocatable else .loadable
      arch := arch
      programHeaderOffset := programHeaderOffset, sectionHeaderOffset := sectionHeaderOffset
      programHeaderEntrySize := programHeaderEntrySize, programHeaderCount := programHeaderCount
      sectionHeaderEntrySize := sectionHeaderEntrySize, sectionHeaderCount := sectionHeaderCount })

/-- Address of entry `index` of a table. -/
def entryOffset (table : U64) (index entrySize : Nat) : U64 :=
  table + BitVec.ofNat 64 (index * entrySize)

variable (reader : FieldReader) (header : ElfHeader)

def readProgramHeader (base : U64) : Option ProgramHeader := do
  let layout := if header.is64Bit then kProgram64 else kProgram32
  let type ← reader.u32 (base + layout.type)
  let _ ← reader.u32 (base + layout.flags)
  let offset ← reader.read (base + layout.offset) header.addressSize
  let vaddr ← reader.read (base + layout.vaddr) header.addressSize
  let fileSize ← reader.read (base + layout.filesz) header.addressSize
  let memorySize ← reader.read (base + layout.memsz) header.addressSize
  let _ ← reader.read (base + layout.align) header.addressSize
  return ⟨type, offset, vaddr, fileSize, memorySize⟩

def parseProgramHeaders : Option (List ProgramHeader) :=
  if header.programHeaderCount = 0 then some []
  else if header.programHeaderEntrySize < (if header.is64Bit then kProgram64 else kProgram32).size
  then none
  else (List.range header.programHeaderCount).mapM fun index =>
    readProgramHeader reader header
      (entryOffset header.programHeaderOffset index header.programHeaderEntrySize)

def readSectionHeader (base : U64) : Option SectionHeader := do
  let layout := if header.is64Bit then kSection64 else kSection32
  let _ ← reader.u32 (base + layout.name)
  let type ← reader.u32 (base + layout.type)
  let flags ← reader.read (base + layout.flags) layout.flagsSize
  let addr ← reader.read (base + layout.addr) header.addressSize
  let offset ← reader.read (base + layout.offset) header.addressSize
  let size ← reader.read (base + layout.size) header.addressSize
  let link ← reader.u32 (base + layout.link)
  let info ← reader.u32 (base + layout.info)
  let entrySize ← reader.read (base + layout.entsize) header.addressSize
  return ⟨type, flags, addr, offset, size, link, info, entrySize⟩

def parseSectionHeaders : Option (List SectionHeader) :=
  if header.sectionHeaderCount = 0 ∨ header.sectionHeaderOffset = 0#64 then some []
  else if header.sectionHeaderEntrySize < (if header.is64Bit then kSection64 else kSection32).size_
  then none
  else (List.range header.sectionHeaderCount).mapM fun index =>
    readSectionHeader reader header
      (entryOffset header.sectionHeaderOffset index header.sectionHeaderEntrySize)

end Headers

/-! ## The memory map -/

section Memory

open Elf

def addRegionsFromSections (sections : List SectionHeader) : Option (List MemoryRegion) :=
  let added := (sections.filter fun s =>
      s.flags &&& kShfAlloc != 0#64 && s.size != 0#64 && s.addr != 0#64).map fun s =>
    ⟨s.addr, s.size, s.offset, if s.type = kShtNoBits then 0#64 else s.size⟩
  if added.isEmpty then none else some added

def buildMemoryMap (file : List (BitVec 8)) (segments : List ProgramHeader)
    (sections : List SectionHeader) : Option MemoryMap := do
  let loads := segments.filter fun h => h.type == kPtLoad && h.memorySize != 0#64
  let regions ←
    if loads.isEmpty then addRegionsFromSections sections
    else if loads.any fun h => decide (h.memorySize < h.fileSize) then none
    else some (loads.map fun h => ⟨h.vaddr, h.memorySize, h.offset, h.fileSize⟩)
  let memory ← MemoryMap.finalize file regions
  if memory.regions.isEmpty then none else some memory

end Memory

/-- What the loader has read once memory is mapped. -/
structure ElfFile where
  reader : FieldReader
  header : ElfHeader
  programHeaders : List ProgramHeader
  sectionHeaders : List SectionHeader
  memory : MemoryMap

/-- `ElfLoader::load`, up to the tables that are read on demand below. -/
def ElfFile.load (file : List (BitVec 8)) : Option ElfFile := do
  let (reader, header) ← parseIdentAndHeader file
  let programHeaders ← parseProgramHeaders reader header
  let sectionHeaders ← parseSectionHeaders reader header
  let memory ← buildMemoryMap file programHeaders sectionHeaders
  return ⟨reader, header, programHeaders, sectionHeaders, memory⟩

namespace ElfFile

open Elf

variable (f : ElfFile)

/-- Segments first, sections without them. -/
def virtualToFileOffset (va : U64) : Option U64 :=
  let inSegment := f.programHeaders.find? fun h =>
    h.type == kPtLoad && decide (h.vaddr ≤ va) && decide (va - h.vaddr < h.fileSize)
  match inSegment with
  | some h => some (h.offset + (va - h.vaddr))
  | none =>
    let inSection := f.sectionHeaders.find? fun s =>
      s.flags &&& kShfAlloc != 0#64 && s.type != kShtNoBits && s.size != 0#64 &&
        decide (s.addr ≤ va) && decide (va - s.addr < s.size)
    inSection.map fun s => s.offset + (va - s.addr)

/-- Entries read one after the other until one is truncated. -/
def readEntries {α : Type} (entry : Nat → Option α) : Nat → Nat → List α
  | _, 0 => []
  | index, count + 1 =>
    match entry index with
    | none => []
    | some a => a :: readEntries entry (index + 1) count

/-! ## The dynamic segment -/

def dynamicRange : Option (U64 × U64) :=
  let fromSegment := (f.programHeaders.find? fun h => h.type == kPtDynamic).map
    fun h => (h.offset, h.fileSize)
  match fromSegment.filter fun range => range.2 != 0#64 with
  | some range => some range
  | none =>
    ((f.sectionHeaders.find? fun s => s.type == kShtDynamic).map
      fun s => (s.offset, s.size)).filter fun range => range.2 != 0#64

def readDynamicEntry (offset : U64) (index : Nat) : Option DynamicEntry := do
  let size := f.header.addressSize
  let base := entryOffset offset index (size * 2)
  let tag ← f.reader.signedRead base size
  let value ← f.reader.read (base + BitVec.ofNat 64 size) size
  return ⟨tag, value⟩

def parseDynamic : List DynamicEntry :=
  match f.dynamicRange with
  | none => []
  | some (offset, size) =>
    (readEntries (f.readDynamicEntry offset) 0 (size.toNat / (f.header.addressSize * 2))).takeWhile
      fun entry => entry.tag != kDtNull

def dynamicValue (tag : U64) (fallback : U64) : U64 :=
  ((f.parseDynamic.find? fun entry => entry.tag == tag).map DynamicEntry.value).getD fallback

/-! ## Symbols -/

def symbolLayout : SymbolLayout := if f.header.is64Bit then kSymbol64 else kSymbol32

def readSymbol (base : U64) : Option Symbol := do
  let layout := f.symbolLayout
  let _ ← f.reader.u32 (base + layout.name)
  let info ← f.reader.u8 (base + layout.info)
  let _ ← f.reader.u8 (base + layout.other)
  let sectionIndex ← f.reader.u16 (base + layout.shndx)
  let value ← f.reader.read (base + layout.value) layout.addressSize
  let _ ← f.reader.read (base + layout.size) layout.addressSize
  return ⟨value, sectionIndex != kShnUndef, info % 16 == kSttGnuIfunc, sectionIndex⟩

def parseSymbolRange (table : U64) (count entrySize : Nat) : List Symbol :=
  readEntries (fun index => f.readSymbol (entryOffset table index entrySize)) 0 count

/-- The size of a symbol in a section, as an unsigned number of 32 bits. -/
def symbolEntrySize (s : SectionHeader) : Nat :=
  if s.entrySize ≠ 0#64 then s.entrySize.toNat % 2 ^ 32 else f.symbolLayout.entrySize

/-- The symbols of all tables, with the place where each table starts. -/
structure SymbolTables where
  symbols : List Symbol
  symbolTableBase : List (Nat × Nat)
  /-- Where dynamic symbols start, if there are some. -/
  dynamicSymbolBase : Option Nat
deriving DecidableEq

/-- One section of the loop. -/
def addSymbolSection (tables : SymbolTables) (entry : SectionHeader × Nat) : SymbolTables :=
  let s := entry.1
  if (s.type ≠ kShtSymtab ∧ s.type ≠ kShtDynsym) ∨ f.sectionHeaders.length ≤ s.link then tables
  else
    let base := tables.symbols.length % 2 ^ 32
    let entrySize := f.symbolEntrySize s
    { symbols := tables.symbols ++ f.parseSymbolRange s.offset (s.size.toNat / entrySize) entrySize
      symbolTableBase := (entry.2, base) :: tables.symbolTableBase
      dynamicSymbolBase :=
        if s.type = kShtDynsym then some base else tables.dynamicSymbolBase }

/-- The chain of the last bucket, up to its terminator. -/
def lastOfChain (chains : U64) : Nat → Nat → Option Nat
  | 0, _ => none
  | fuel + 1, index => do
    let value ← f.reader.u32 (entryOffset chains index 4)
    if value % 2 = 1 then some (index + 1) else lastOfChain chains fuel (index + 1)

/-- Without section headers the number of symbols comes from a hash table. -/
def dynamicSymbolCount : Nat :=
  let fromHash : Option Nat := do
    let hashVa := f.dynamicValue kDtHash 0#64
    if hashVa = 0#64 then none
    let offset ← f.virtualToFileOffset hashVa
    let chainCount ← f.reader.u32 (offset + 4#64)
    if chainCount = 0 then none else some chainCount
  let fromGnuHash : Option Nat := do
    let gnuHashVa := f.dynamicValue kDtGnuHash 0#64
    if gnuHashVa = 0#64 then none
    let offset ← f.virtualToFileOffset gnuHashVa
    let bucketCount ← f.reader.u32 offset
    let symbolOffset ← f.reader.u32 (offset + 4#64)
    let bloomSize ← f.reader.u32 (offset + 8#64)
    if bucketCount = 0 then none
    let buckets := offset + 16#64 + BitVec.ofNat 64 (bloomSize * f.header.addressSize)
    let values ← (List.range bucketCount).mapM fun bucket =>
      f.reader.u32 (entryOffset buckets bucket 4)
    let highestSymbol := values.foldl max 0
    if highestSymbol < symbolOffset then some symbolOffset
    else
      -- Every word of the chain lies in the file.
      let last ← f.lastOfChain (entryOffset buckets bucketCount 4) (f.reader.data.length + 1)
        (highestSymbol - symbolOffset)
      return symbolOffset + last
  (fromHash.or fromGnuHash).getD 0

def parseSymbols : SymbolTables :=
  let fromSections := f.sectionHeaders.zipIdx.foldl f.addSymbolSection ⟨[], [], none⟩
  if !fromSections.symbols.isEmpty then fromSections
  else
    let symbolTableVa := f.dynamicValue kDtSymtab 0#64
    if symbolTableVa = 0#64 then fromSections
    else
      match f.virtualToFileOffset symbolTableVa with
      | none => fromSections
      | some offset =>
        let entrySize :=
          (f.dynamicValue kDtSymEnt (BitVec.ofNat 64 f.symbolLayout.entrySize)).toNat % 2 ^ 32
        let count := f.dynamicSymbolCount
        if count = 0 then fromSections
        else
          { fromSections with
            symbols := f.parseSymbolRange offset count entrySize
            dynamicSymbolBase := some 0 }

end ElfFile

end Xdec

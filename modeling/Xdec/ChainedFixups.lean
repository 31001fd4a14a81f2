import Xdec.ElfRelocations
import Xdec.MemoryMap

/-!
# Chained fixups

A segment that dyld fixes up is a row of pages, and a page is a chain: every slot holds,
besides what it is set to, the distance to the next one.  `applyChainedFixups` turns every
slot into a relocation.

`ChainedImage` is what a linker meant to write, and `ChainedImage.Encodes` says how a file
holds it.  Of such a file every slot is decoded, but the addend that an import carries is
not read (`applyChainedFixups_exact`).  Of any file the walk ends.
-/

namespace Xdec

structure MachSegment where
  vmaddr : U64
  vmsize : U64
  fileoff : U64
  filesize : U64
deriving DecidableEq

abbrev SymbolName := List (BitVec 8)

/-- `cstring`: the bytes before the next zero. -/
def FieldReader.cstring (reader : FieldReader) (offset : U64) : Option SymbolName :=
  let rest := reader.data.drop offset.toNat
  if rest.any (· == 0#8) then some (rest.takeWhile (· != 0#8)) else none

def FieldReader.u64 (reader : FieldReader) (offset : U64) : Option U64 := reader.read offset 8

namespace MachO

def kPointerSize : Nat := 8

def kChainedFixupsStartsOffset : U64 := 4#64
def kChainedFixupsImportsOffset : U64 := 8#64
def kChainedFixupsSymbolsOffset : U64 := 12#64
def kChainedFixupsImportsCount : U64 := 16#64
def kChainedFixupsImportsFormat : U64 := 20#64
def kChainedFixupsHeaderSize : Nat := 28

def kChainedStartsSegCount : U64 := 0#64
def kChainedStartsSegInfoOffset : U64 := 4#64

def kChainedSegPageSize : U64 := 4#64
def kChainedSegPointerFormat : U64 := 6#64
def kChainedSegSegmentOffset : U64 := 8#64
def kChainedSegPageCount : U64 := 20#64
def kChainedSegPageStart : U64 := 22#64

def kChainedPtrStartNone : Nat := 0xFFFF
def kChainedPtrStartMulti : Nat := 0x8000

def kChainedImportFormatNormal : Nat := 1
def kChainedImportFormatAddend : Nat := 2
def kChainedImportFormatAddend64 : Nat := 3
def kChainedImportNameOffsetShift : Nat := 9
def kChainedImportNameOffsetMask : U64 := 0x7fffff#64
def kChainedImport64NameOffsetShift : Nat := 32

def kChainedPtr64 : Nat := 2
def kChainedPtr64Offset : Nat := 6

end MachO

open MachO

structure ImportTable where
  header : U64
  importsOffset : U64
  symbolsOffset : U64
  count : Nat
  format : Nat
deriving DecidableEq

/-- What loading has collected: relocations, the names of the imported symbols, and the
index under which each was entered. -/
structure MachLoader where
  relocations : List Relocation
  symbols : List SymbolName
  importIndex : List (SymbolName × Nat)
deriving DecidableEq

namespace MachLoader

/-- The index of an import, which is entered where it is new. -/
def importSymbolIndex (loader : MachLoader) (name : SymbolName) : Nat × MachLoader :=
  match loader.importIndex.lookup name with
  | some index => (index, loader)
  | none =>
    let index := loader.symbols.length % 2 ^ 32
    (index, { loader with
      symbols := loader.symbols ++ [name]
      importIndex := (name, index) :: loader.importIndex })

def push (loader : MachLoader) (relocation : Relocation) : MachLoader :=
  { loader with relocations := loader.relocations ++ [relocation] }

end MachLoader

namespace FieldReader

variable (file : FieldReader)

/-- An empty name also stands for no name. -/
def resolveChainedImportName (imports : ImportTable) (ordinal : Nat) : SymbolName :=
  if imports.count ≤ ordinal then []
  else
    let entry : Nat → U64 := fun entrySize =>
      imports.header + (imports.importsOffset + BitVec.ofNat 64 (ordinal * entrySize))
    let narrow : Nat → Option U64 := fun entrySize => (file.u32 (entry entrySize)).map fun word =>
      (BitVec.ofNat 64 word >>> kChainedImportNameOffsetShift) &&& kChainedImportNameOffsetMask
    let nameOffset : Option U64 :=
      if imports.format = kChainedImportFormatNormal then narrow 4
      else if imports.format = kChainedImportFormatAddend then narrow 8
      else if imports.format = kChainedImportFormatAddend64 then
        (file.u64 (entry 16)).map fun word : U64 => word >>> kChainedImport64NameOffsetShift
      else none
    match nameOffset with
    | none => []
    | some nameOffset =>
      (file.cstring (imports.header + imports.symbolsOffset + nameOffset)).getD []

end FieldReader

namespace MachLoader

def emitChainedRebase (loader : MachLoader) (va word : U64) (pointerFormat : Nat)
    (imageBase : U64) : MachLoader :=
  let target := word &&& 0xfffffffff#64
  let high8 := (word >>> 36) &&& 0xff#64
  let value := (if pointerFormat = kChainedPtr64Offset then imageBase + target else target) |||
    high8 <<< 56
  loader.push { Relocation.unresolved with
    va := va, kind := .relative, width := kPointerSize, value := value, hasValue := true }

def emitChainedBind (loader : MachLoader) (file : FieldReader) (imports : ImportTable)
    (va word : U64) : MachLoader :=
  let ordinal := (word &&& 0xffffff#64).toNat
  let addend := (word >>> 24) &&& 0xff#64
  let name := file.resolveChainedImportName imports ordinal
  if name = [] then loader
  else
    let (index, loader) := loader.importSymbolIndex name
    loader.push { Relocation.unresolved with
      va := va, kind := .gotSlot, width := kPointerSize, addend := addend, symbolIndex := index }

end MachLoader

/-- One page's chain; without fuel the walk has not ended. -/
def walkChain (file : FieldReader) (imports : ImportTable) (segment : MachSegment)
    (pageBase : U64) (pointerFormat : Nat) (imageBase : U64) :
    Nat → U64 → MachLoader → Option MachLoader
  | 0, _, _ => none
  | fuel + 1, offsetInPage, loader =>
    let fileOffset := segment.fileoff + pageBase + offsetInPage
    if file.data.length < (fileOffset + 8#64).toNat then some loader
    else
      match file.u64 fileOffset with
      | none => some loader
      | some word =>
        let va := segment.vmaddr + pageBase + offsetInPage
        let next := (word >>> 51) &&& 0xfff#64
        let loader :=
          if word &&& (1#64 <<< 63) ≠ 0#64 then loader.emitChainedBind file imports va word
          else loader.emitChainedRebase va word pointerFormat imageBase
        if next = 0#64 then some loader
        else
          walkChain file imports segment pageBase pointerFormat imageBase fuel
            (offsetInPage + next * 4#64) loader

/-- The mapped image begins at the first segment that the file holds bytes of. -/
def imageBase (segments : List MachSegment) : U64 :=
  match segments.find? (fun segment => segment.filesize ≠ 0#64) with
  | none => 0#64
  | some segment => segment.vmaddr

/-- The pages of a segment from one on; a page start that cannot be read ends them. -/
def walkPages (file : FieldReader) (imports : ImportTable) (segment : MachSegment)
    (segInfoBase : U64) (fuel pageSize pointerFormat : Nat) (segmentOffset imageBase : U64) :
    List Nat → MachLoader → Option MachLoader
  | [], loader => some loader
  | page :: pages, loader =>
    match file.u16 (segInfoBase + kChainedSegPageStart + BitVec.ofNat 64 (page * 2)) with
    | none => some loader
    | some pageStart =>
      let pageVa := imageBase + segmentOffset + BitVec.ofNat 64 (page * pageSize)
      let skipped := pageStart = kChainedPtrStartNone ∨
        pageStart &&& kChainedPtrStartMulti ≠ 0 ∨
        pageVa < segment.vmaddr ∨ segment.vmaddr + segment.vmsize ≤ pageVa
      if skipped then
        walkPages file imports segment segInfoBase fuel pageSize pointerFormat segmentOffset
          imageBase pages loader
      else
        match walkChain file imports segment (pageVa - segment.vmaddr) pointerFormat imageBase
            fuel (BitVec.ofNat 64 pageStart) loader with
        | none => none
        | some loader =>
          walkPages file imports segment segInfoBase fuel pageSize pointerFormat
            segmentOffset imageBase pages loader

def walkSegmentChains (file : FieldReader) (imports : ImportTable) (segments : List MachSegment)
    (fuel : Nat) (segment : MachSegment) (segInfoBase : U64) (loader : MachLoader) :
    Option MachLoader :=
  match (do
      let pageSize ← file.u16 (segInfoBase + kChainedSegPageSize)
      let pointerFormat ← file.u16 (segInfoBase + kChainedSegPointerFormat)
      let segmentOffset ← file.u64 (segInfoBase + kChainedSegSegmentOffset)
      let pageCount ← file.u16 (segInfoBase + kChainedSegPageCount)
      return (pageSize, pointerFormat, segmentOffset, pageCount)) with
  | none => some loader
  | some (pageSize, pointerFormat, segmentOffset, pageCount) =>
    if pointerFormat ≠ kChainedPtr64 ∧ pointerFormat ≠ kChainedPtr64Offset then some loader
    else
      walkPages file imports segment segInfoBase fuel pageSize pointerFormat segmentOffset
        (imageBase segments) (List.range pageCount) loader

/-- The segments from one on; an offset that cannot be read ends them. -/
def walkSegments (file : FieldReader) (imports : ImportTable) (segments : List MachSegment)
    (fuel : Nat) (startsBase : U64) : List Nat → MachLoader → Option MachLoader
  | [], loader => some loader
  | segmentIndex :: rest, loader =>
    match file.u32 (startsBase + kChainedStartsSegInfoOffset +
        BitVec.ofNat 64 (segmentIndex * 4)) with
    | none => some loader
    | some segInfoOffset =>
      match (if segInfoOffset = 0 then none else segments[segmentIndex]?) with
      | none => walkSegments file imports segments fuel startsBase rest loader
      | some segment =>
        match walkSegmentChains file imports segments fuel segment
            (startsBase + BitVec.ofNat 64 segInfoOffset) loader with
        | none => none
        | some loader => walkSegments file imports segments fuel startsBase rest loader

/-- The position of a `LC_DYLD_CHAINED_FIXUPS` command's data. -/
structure ChainedFixupsData where
  off : Nat
  size : Nat
deriving DecidableEq

def applyChainedFixups (file : FieldReader) (segments : List MachSegment) (fuel : Nat)
    (command : Option ChainedFixupsData) (loader : MachLoader) : Option MachLoader :=
  match command with
  | none => some loader
  | some command =>
    if file.data.length < command.off + command.size ∨
        command.size < kChainedFixupsHeaderSize then some loader
    else
      let header := BitVec.ofNat 64 command.off
      match (do
          let startsOffset ← file.u32 (header + kChainedFixupsStartsOffset)
          let importsOffset ← file.u32 (header + kChainedFixupsImportsOffset)
          let symbolsOffset ← file.u32 (header + kChainedFixupsSymbolsOffset)
          let importsCount ← file.u32 (header + kChainedFixupsImportsCount)
          let importsFormat ← file.u32 (header + kChainedFixupsImportsFormat)
          return (startsOffset, importsOffset, symbolsOffset, importsCount, importsFormat)) with
      | none => some loader
      | some (startsOffset, importsOffset, symbolsOffset, importsCount, importsFormat) =>
        let imports : ImportTable :=
          ⟨header, BitVec.ofNat 64 importsOffset, BitVec.ofNat 64 symbolsOffset, importsCount,
            importsFormat⟩
        let startsBase := header + BitVec.ofNat 64 startsOffset
        match file.u32 (startsBase + kChainedStartsSegCount) with
        | none => some loader
        | some segCount =>
          walkSegments file imports segments fuel startsBase (List.range segCount) loader

/-! ## What a linker writes -/

/-- What a slot is set to, with the bits that the format reserves. -/
inductive ChainSlot where
  | rebase (target : BitVec 36) (high8 : BitVec 8) (reserved : BitVec 7)
  | bind (ordinal : BitVec 24) (addend : BitVec 8) (reserved : BitVec 19)
deriving DecidableEq

/-- The slot's word, with the distance to the next slot. -/
def ChainSlot.word (next : BitVec 12) : ChainSlot → U64
  | .rebase target high8 reserved => (0#1 ++ next ++ reserved ++ high8 ++ target : BitVec 64)
  | .bind ordinal addend reserved => (1#1 ++ next ++ reserved ++ addend ++ ordinal : BitVec 64)

variable {n : Nat}

theorem toNat_append_eq {w : Nat} (x : BitVec n) (y : BitVec w) :
  (x ++ y).toNat = x.toNat * 2 ^ w + y.toNat := by
  rw [BitVec.toNat_append, ← Nat.shiftLeft_add_eq_or_of_lt y.isLt, Nat.shiftLeft_eq]

theorem toNat_field (v mask : U64) {k : Nat} (hmask : mask = lowMask n) :
  ((v >>> k) &&& mask).toNat = v.toNat / 2 ^ k % 2 ^ n := by
  rw [hmask]
  exact (zeroExtend_toNat _ _).trans (by rw [BitVec.toNat_ushiftRight, Nat.shiftRight_eq_div_pow])

theorem toNat_lowField (v mask : U64) (hmask : mask = lowMask n) :
  (v &&& mask).toNat = v.toNat % 2 ^ n := by
  rw [hmask]
  exact zeroExtend_toNat _ _

theorem and_topBit (v : U64) : v &&& (1#64 <<< 63) = 0#64 ↔ v.toNat < 2 ^ 63 := by
  have hbit : v &&& (1#64 <<< 63) = if v.getLsbD 63 then 1#64 <<< 63 else 0#64 :=
    BitVec.and_twoPow v 63
  have hlt := v.isLt
  rw [hbit, BitVec.getLsbD, Nat.testBit_eq_decide_div_mod_eq]
  by_cases h : v.toNat < 2 ^ 63
  · rw [if_neg (by rw [decide_eq_true_eq]; omega)]
    exact iff_of_true rfl h
  · rw [if_pos (by rw [decide_eq_true_eq]; omega)]
    exact iff_of_false (by decide) h

namespace ChainSlot

theorem toNat_rebase (next : BitVec 12) (target : BitVec 36) (high8 : BitVec 8)
  (reserved : BitVec 7) :
  ((rebase target high8 reserved).word next).toNat =
    ((next.toNat * 2 ^ 7 + reserved.toNat) * 2 ^ 8 + high8.toNat) * 2 ^ 36 + target.toNat := by
  have h : ((rebase target high8 reserved).word next).toNat =
      (0#1 ++ next ++ reserved ++ high8 ++ target).toNat := rfl
  rw [h, toNat_append_eq, toNat_append_eq, toNat_append_eq, toNat_append_eq, BitVec.toNat_zero,
    Nat.zero_mul, Nat.zero_add]

theorem toNat_bind (next : BitVec 12) (ordinal : BitVec 24) (addend : BitVec 8)
  (reserved : BitVec 19) :
  ((bind ordinal addend reserved).word next).toNat =
    (((2 ^ 12 + next.toNat) * 2 ^ 19 + reserved.toNat) * 2 ^ 8 + addend.toNat) * 2 ^ 24 +
      ordinal.toNat := by
  have h : ((bind ordinal addend reserved).word next).toNat =
      (1#1 ++ next ++ reserved ++ addend ++ ordinal).toNat := rfl
  rw [h, toNat_append_eq, toNat_append_eq, toNat_append_eq, toNat_append_eq]
  rfl

theorem next_word (next : BitVec 12) (slot : ChainSlot) :
  (slot.word next >>> 51) &&& 0xfff#64 = next.setWidth 64 := by
  refine BitVec.eq_of_toNat_eq ?_
  rw [toNat_field (n := 12) _ _ (by decide), BitVec.toNat_setWidth]
  have hnext := next.isLt
  cases slot with
  | rebase target high8 reserved =>
    have htarget := target.isLt
    have hhigh8 := high8.isLt
    have hreserved := reserved.isLt
    rw [toNat_rebase]
    omega
  | bind ordinal addend reserved =>
    have hordinal := ordinal.isLt
    have haddend := addend.isLt
    have hreserved := reserved.isLt
    rw [toNat_bind]
    omega

theorem target_word (next : BitVec 12) (target : BitVec 36) (high8 : BitVec 8)
  (reserved : BitVec 7) :
  (rebase target high8 reserved).word next &&& 0xfffffffff#64 = target.setWidth 64 := by
  have htarget := target.isLt
  refine BitVec.eq_of_toNat_eq ?_
  rw [toNat_lowField (n := 36) _ _ (by decide), BitVec.toNat_setWidth, toNat_rebase]
  omega

theorem high8_word (next : BitVec 12) (target : BitVec 36) (high8 : BitVec 8)
  (reserved : BitVec 7) :
  ((rebase target high8 reserved).word next >>> 36) &&& 0xff#64 = high8.setWidth 64 := by
  have htarget := target.isLt
  have hhigh8 := high8.isLt
  refine BitVec.eq_of_toNat_eq ?_
  rw [toNat_field (n := 8) _ _ (by decide), BitVec.toNat_setWidth, toNat_rebase]
  omega

theorem ordinal_word (next : BitVec 12) (ordinal : BitVec 24) (addend : BitVec 8)
  (reserved : BitVec 19) :
  ((bind ordinal addend reserved).word next &&& 0xffffff#64).toNat = ordinal.toNat := by
  have hordinal := ordinal.isLt
  rw [toNat_lowField (n := 24) _ _ (by decide), toNat_bind]
  omega

theorem addend_word (next : BitVec 12) (ordinal : BitVec 24) (addend : BitVec 8)
  (reserved : BitVec 19) :
  ((bind ordinal addend reserved).word next >>> 24) &&& 0xff#64 = addend.setWidth 64 := by
  have hordinal := ordinal.isLt
  have haddend := addend.isLt
  refine BitVec.eq_of_toNat_eq ?_
  rw [toNat_field (n := 8) _ _ (by decide), BitVec.toNat_setWidth, toNat_bind]
  omega

theorem topBit_rebase (next : BitVec 12) (target : BitVec 36) (high8 : BitVec 8)
  (reserved : BitVec 7) :
  (rebase target high8 reserved).word next &&& (1#64 <<< 63) = 0#64 := by
  have hnext := next.isLt
  have htarget := target.isLt
  have hhigh8 := high8.isLt
  have hreserved := reserved.isLt
  rw [and_topBit, toNat_rebase]
  omega

theorem topBit_bind (next : BitVec 12) (ordinal : BitVec 24) (addend : BitVec 8)
  (reserved : BitVec 19) :
  (bind ordinal addend reserved).word next &&& (1#64 <<< 63) ≠ 0#64 := by
  rw [ne_eq, and_topBit, toNat_bind]
  omega

end ChainSlot

/-- An import: its name, and the addend that its entry carries. -/
structure ChainImport where
  name : SymbolName
  addend : U64
deriving DecidableEq

/-- A chain: where in the page the slots are, and what they are set to. -/
abbrev ChainedPage := List (Nat × ChainSlot)

structure ChainedSegment where
  pageSize : Nat
  pointerFormat : Nat
  segmentOffset : U64
  pages : List ChainedPage
deriving DecidableEq

structure ChainedImage where
  command : ChainedFixupsData
  startsOffset : Nat
  importsOffset : Nat
  symbolsOffset : Nat
  importsFormat : Nat
  imports : List ChainImport
  segments : List (Option ChainedSegment)
deriving DecidableEq

/-- What dyld does to a slot. -/
inductive Fixup where
  | rebase (va value : U64)
  | bind (va : U64) (name : SymbolName) (addend : U64)
deriving DecidableEq

/-- A slot of the image, at its address. -/
structure LocatedSlot where
  va : U64
  pointerFormat : Nat
  slot : ChainSlot
deriving DecidableEq

def ChainedPage.located (page : ChainedPage) (pageVa : U64) (pointerFormat : Nat) :
    List LocatedSlot :=
  page.map fun slot => ⟨pageVa + BitVec.ofNat 64 slot.1, pointerFormat, slot.2⟩

namespace ChainedSegment

variable (chains : ChainedSegment)

def pageVa (imageBase : U64) (page : Nat) : U64 :=
  imageBase + chains.segmentOffset + BitVec.ofNat 64 (page * chains.pageSize)

def pageSlots (imageBase : U64) (page : Nat) : List LocatedSlot :=
  (chains.pages.getD page []).located (chains.pageVa imageBase page) chains.pointerFormat

def slots (imageBase : U64) : List LocatedSlot :=
  (List.range chains.pages.length).flatMap (chains.pageSlots imageBase)

end ChainedSegment

namespace ChainedImage

variable (image : ChainedImage)

def header : U64 := BitVec.ofNat 64 image.command.off

def importTable : ImportTable :=
  ⟨image.header, BitVec.ofNat 64 image.importsOffset, BitVec.ofNat 64 image.symbolsOffset,
    image.imports.length, image.importsFormat⟩

def startsBase : U64 := image.header + BitVec.ofNat 64 image.startsOffset

def segmentSlots (imageBase : U64) (index : Nat) : List LocatedSlot :=
  match image.segments.getD index none with
  | none => []
  | some chains => chains.slots imageBase

def slots (imageBase : U64) : List LocatedSlot :=
  (List.range image.segments.length).flatMap (image.segmentSlots imageBase)

def importOf (ordinal : BitVec 24) : ChainImport := image.imports.getD ordinal.toNat ⟨[], 0#64⟩

/-- The address a rebase sets the slot to, below its high byte. -/
def rebaseTarget (imageBase : U64) (pointerFormat : Nat) (target : BitVec 36) : U64 :=
  if pointerFormat = kChainedPtr64Offset then imageBase + target.setWidth 64
  else target.setWidth 64

/-- What dyld does to a slot: a rebase adds the high byte, and a bind adds up the addend
of the slot and that of the import. -/
def fixup (imageBase : U64) (located : LocatedSlot) : Fixup :=
  match located.slot with
  | .rebase target high8 _ =>
    .rebase located.va
      (rebaseTarget imageBase located.pointerFormat target + high8.setWidth 64 <<< 56)
  | .bind ordinal addend _ =>
    .bind located.va (image.importOf ordinal).name
      (addend.setWidth 64 + (image.importOf ordinal).addend)

/-- The loader does the same: the high byte falls on no bit of the address, and the import
has a name and no addend of its own. -/
def Kept (imageBase : U64) (located : LocatedSlot) : Prop :=
  match located.slot with
  | .rebase target high8 _ =>
    rebaseTarget imageBase located.pointerFormat target &&& high8.setWidth 64 <<< 56 = 0#64
  | .bind ordinal _ _ =>
    (image.importOf ordinal).name ≠ [] ∧ (image.importOf ordinal).addend = 0#64

/-- What the loader makes of a slot. -/
def emitted (imageBase : U64) (located : LocatedSlot) : List Fixup :=
  match located.slot with
  | .rebase target high8 _ =>
    [.rebase located.va
      (rebaseTarget imageBase located.pointerFormat target ||| high8.setWidth 64 <<< 56)]
  | .bind ordinal addend _ =>
    if (image.importOf ordinal).name = [] then []
    else [.bind located.va (image.importOf ordinal).name (addend.setWidth 64)]

end ChainedImage

/-! ## How a file holds it -/

/-- An entry of an import table, in one of the three formats. -/
inductive ImportTable.Holds (file : FieldReader) (table : ImportTable) (ordinal : Nat)
    (entry : ChainImport) : Prop
  | normal (nameOffset : BitVec 23) (flags : BitVec 9)
      (format : table.format = kChainedImportFormatNormal)
      (word : file.u32 (table.header + (table.importsOffset + BitVec.ofNat 64 (ordinal * 4))) =
        some (nameOffset ++ flags).toNat)
      (name : file.cstring (table.header + table.symbolsOffset + nameOffset.setWidth 64) =
        some entry.name)
      (addend : entry.addend = 0#64)
  | addend (nameOffset : BitVec 23) (flags : BitVec 9)
      (format : table.format = kChainedImportFormatAddend)
      (word : file.u32 (table.header + (table.importsOffset + BitVec.ofNat 64 (ordinal * 8))) =
        some (nameOffset ++ flags).toNat)
      (name : file.cstring (table.header + table.symbolsOffset + nameOffset.setWidth 64) =
        some entry.name)
      (addend : file.signedRead
        (table.header + (table.importsOffset + BitVec.ofNat 64 (ordinal * 8)) + 4#64) 4 =
          some entry.addend)
  | addend64 (nameOffset : BitVec 32) (flags : BitVec 32)
      (format : table.format = kChainedImportFormatAddend64)
      (word : file.u64 (table.header + (table.importsOffset + BitVec.ofNat 64 (ordinal * 16))) =
        some (nameOffset ++ flags))
      (name : file.cstring (table.header + table.symbolsOffset + nameOffset.setWidth 64) =
        some entry.name)
      (addend : file.u64
        (table.header + (table.importsOffset + BitVec.ofNat 64 (ordinal * 16)) + 8#64) =
          some entry.addend)

/-- The slots of a page in the file, each with the distance to the next. -/
def ChainedPage.Linked (file : FieldReader) (base : U64) : ChainedPage → Prop
  | [] => True
  | (offset, slot) :: rest =>
    (∃ next : BitVec 12, file.u64 (base + BitVec.ofNat 64 offset) = some (slot.word next) ∧
      match rest with
      | [] => next = 0#12
      | (offset', _) :: _ => next ≠ 0#12 ∧ offset' = offset + next.toNat * 4) ∧
    ChainedPage.Linked file base rest

/-- A page's entry in the table of page starts, and its slots where the segment is. -/
def ChainedPage.Encodes (page : ChainedPage) (file : FieldReader) (segment : MachSegment)
    (startOffset pageVa : U64) : Prop :=
  match page with
  | [] => file.u16 startOffset = some kChainedPtrStartNone
  | (offset, _) :: _ =>
    file.u16 startOffset = some offset ∧ offset &&& kChainedPtrStartMulti = 0 ∧
      segment.vmaddr.toNat ≤ pageVa.toNat ∧
      pageVa.toNat < segment.vmaddr.toNat + segment.vmsize.toNat ∧
      page.Linked file (segment.fileoff + (pageVa - segment.vmaddr))

structure ChainedSegment.Encodes (chains : ChainedSegment) (file : FieldReader)
    (segment : MachSegment) (imageBase segInfoBase : U64) : Prop where
  pageSize : file.u16 (segInfoBase + kChainedSegPageSize) = some chains.pageSize
  pointerFormat : file.u16 (segInfoBase + kChainedSegPointerFormat) = some chains.pointerFormat
  segmentOffset : file.u64 (segInfoBase + kChainedSegSegmentOffset) = some chains.segmentOffset
  pageCount : file.u16 (segInfoBase + kChainedSegPageCount) = some chains.pages.length
  decoded : chains.pointerFormat = kChainedPtr64 ∨ chains.pointerFormat = kChainedPtr64Offset
  bound : segment.vmaddr.toNat + segment.vmsize.toNat < 2 ^ 64
  pages : ∀ page < chains.pages.length, (chains.pages.getD page []).Encodes file segment
    (segInfoBase + kChainedSegPageStart + BitVec.ofNat 64 (page * 2))
    (chains.pageVa imageBase page)

structure ChainedImage.Encodes (image : ChainedImage) (file : FieldReader)
    (segments : List MachSegment) : Prop where
  fits : image.command.off + image.command.size ≤ file.data.length
  header : kChainedFixupsHeaderSize ≤ image.command.size
  startsOffset : file.u32 (image.header + kChainedFixupsStartsOffset) = some image.startsOffset
  importsOffset : file.u32 (image.header + kChainedFixupsImportsOffset) = some image.importsOffset
  symbolsOffset : file.u32 (image.header + kChainedFixupsSymbolsOffset) = some image.symbolsOffset
  importsCount : file.u32 (image.header + kChainedFixupsImportsCount) = some image.imports.length
  importsFormat : file.u32 (image.header + kChainedFixupsImportsFormat) = some image.importsFormat
  imports : ∀ ordinal < image.imports.length,
    image.importTable.Holds file ordinal (image.imports.getD ordinal ⟨[], 0#64⟩)
  segCount : file.u32 (image.startsBase + kChainedStartsSegCount) = some image.segments.length
  chains : ∀ index < image.segments.length, ∃ infoOffset,
    file.u32 (image.startsBase + kChainedStartsSegInfoOffset + BitVec.ofNat 64 (index * 4)) =
        some infoOffset ∧
      match image.segments.getD index none with
      | none => infoOffset = 0
      | some chains => infoOffset ≠ 0 ∧
          ∃ segment, segments[index]? = some segment ∧
            chains.Encodes file segment (imageBase segments)
              (image.startsBase + BitVec.ofNat 64 infoOffset)
  ordinals : ∀ located ∈ image.slots (imageBase segments), ∀ ordinal addend reserved,
    located.slot = .bind ordinal addend reserved → ordinal.toNat < image.imports.length

/-! ## Names -/

theorem toNat_packedName {n w : Nat} (nameOffset : BitVec n) (flags : BitVec w)
  (hword : n + w ≤ 64) :
  (BitVec.ofNat 64 (nameOffset ++ flags).toNat >>> w) &&& lowMask n =
    nameOffset.setWidth 64 := by
  have hlt := (nameOffset ++ flags).isLt
  have hpow : 2 ^ (n + w) ≤ 2 ^ 64 := Nat.pow_le_pow_right (by decide) hword
  have hflags := flags.isLt
  have hname : nameOffset.toNat < 2 ^ 64 :=
    Nat.lt_of_lt_of_le nameOffset.isLt (Nat.pow_le_pow_right (by decide) (by omega))
  refine BitVec.eq_of_toNat_eq ?_
  rw [toNat_field _ _ rfl, BitVec.toNat_ofNat,
    Nat.mod_eq_of_lt (Nat.lt_of_lt_of_le hlt hpow), toNat_append_eq,
    BitVec.toNat_setWidth, Nat.mod_eq_of_lt hname, Nat.add_comm, Nat.add_mul_div_right _ _
      (Nat.two_pow_pos w), Nat.div_eq_of_lt hflags, Nat.zero_add, Nat.mod_eq_of_lt nameOffset.isLt]

/-- The name of an import in any of the formats. -/
theorem resolve_holds {file : FieldReader} {table : ImportTable} {ordinal : Nat}
  {entry : ChainImport} (hordinal : ordinal < table.count)
  (h : table.Holds file ordinal entry) :
  file.resolveChainedImportName table ordinal = entry.name := by
  have hin : ¬ table.count ≤ ordinal := Nat.not_le.mpr hordinal
  have hmask : kChainedImportNameOffsetMask = lowMask 23 := by decide
  have hnarrow := @toNat_packedName 23 9
  cases h with
  | normal nameOffset flags hformat hword hname =>
    simp only [FieldReader.resolveChainedImportName, if_neg hin, hformat, hword, if_pos,
      Option.map_some, hmask]
    rw [show kChainedImportNameOffsetShift = 9 from rfl, hnarrow _ _ (by decide), hname]
    rfl
  | addend nameOffset flags hformat hword hname =>
    simp only [FieldReader.resolveChainedImportName, if_neg hin, hformat, hword, Option.map_some,
      hmask]
    rw [if_neg (by decide), if_pos trivial, show kChainedImportNameOffsetShift = 9 from rfl,
      hnarrow _ _ (by decide)]
    dsimp only
    rw [hname]
    rfl
  | addend64 nameOffset flags hformat hword hname =>
    have hshift : (nameOffset ++ flags : U64) >>> 32 = nameOffset.setWidth 64 := by
      have hflags := flags.isLt
      have hname := nameOffset.isLt
      refine BitVec.eq_of_toNat_eq ?_
      rw [BitVec.toNat_ushiftRight, Nat.shiftRight_eq_div_pow, toNat_append_eq,
        BitVec.toNat_setWidth]
      omega
    simp only [FieldReader.resolveChainedImportName, if_neg hin, hformat, hword, Option.map_some]
    rw [if_neg (by decide), if_neg (by decide), if_pos trivial,
      show kChainedImport64NameOffsetShift = 32 from rfl, hshift]
    dsimp only
    rw [hname]
    rfl

/-! ## What the loader collects -/

namespace MachLoader

/-- A relocation that does what dyld does to a slot. -/
def Shows (loader : MachLoader) (relocation : Relocation) : Fixup → Prop
  | .rebase va value =>
    relocation = { Relocation.unresolved with
      va := va, kind := .relative, width := kPointerSize, value := value, hasValue := true }
  | .bind va name addend =>
    ∃ index, loader.symbols[index]? = some name ∧
      relocation = { Relocation.unresolved with
        va := va, kind := .gotSlot, width := kPointerSize, addend := addend,
        symbolIndex := index }

/-- Every import that was entered is under its index. -/
def Consistent (loader : MachLoader) : Prop :=
  ∀ name index, loader.importIndex.lookup name = some index → loader.symbols[index]? = some name

/-- What the loader collects while it emits some fixups. -/
structure Emits (loader loader' : MachLoader) (fixups : List Fixup) : Prop where
  relocations : ∃ added, loader'.relocations = loader.relocations ++ added ∧
    List.Forall₂ loader'.Shows added fixups
  consistent : loader'.Consistent
  symbols : loader.symbols <+: loader'.symbols
  count : loader'.symbols.length ≤ loader.symbols.length + fixups.length

variable {loader loader' loader'' : MachLoader}

theorem Shows.functional {r : Relocation} {f g : Fixup} (hf : loader.Shows r f)
  (hg : loader.Shows r g) : f = g := by
  cases f <;> cases g
  case rebase.rebase =>
    rw [Shows] at hf hg
    rw [hf] at hg
    injection hg with hva _ _ hvalue
    rw [hva, hvalue]
  case rebase.bind =>
    obtain ⟨_, -, hg⟩ := hg
    rw [Shows] at hf
    rw [hf] at hg
    injection hg with _ _ hkind
    cases hkind
  case bind.rebase =>
    obtain ⟨_, -, hf⟩ := hf
    rw [Shows] at hg
    rw [hf] at hg
    injection hg with _ _ hkind
    cases hkind
  case bind.bind =>
    obtain ⟨index, hname, hf⟩ := hf
    obtain ⟨index', hname', hg⟩ := hg
    rw [hf] at hg
    injection hg with hva _ _ _ _ haddend hindex
    rw [hindex, hname'] at hname
    rw [hva, haddend, Option.some.inj hname]

theorem Shows.mono {r : Relocation} {f : Fixup} (h : loader.Shows r f)
  (hsymbols : loader.symbols <+: loader'.symbols) : loader'.Shows r f := by
  cases f with
  | rebase => exact h
  | bind =>
    obtain ⟨index, hname, hr⟩ := h
    obtain ⟨more, hmore⟩ := hsymbols
    refine ⟨index, ?_, hr⟩
    rw [← hmore, List.getElem?_append_left (List.getElem?_eq_some_iff.mp hname).1, hname]

theorem Emits.refl (h : loader.Consistent) : loader.Emits loader [] :=
  ⟨⟨[], (List.append_nil _).symm, .nil⟩, h, List.prefix_rfl, Nat.le_refl _⟩

theorem Emits.trans {xs ys : List Fixup} (h : loader.Emits loader' xs)
  (h' : loader'.Emits loader'' ys) : loader.Emits loader'' (xs ++ ys) := by
  obtain ⟨added, hadded, hshows⟩ := h.relocations
  obtain ⟨added', hadded', hshows'⟩ := h'.relocations
  refine ⟨⟨added ++ added', by rw [hadded', hadded, List.append_assoc], ?_⟩, h'.consistent,
    h.symbols.trans h'.symbols, ?_⟩
  · exact List.rel_append (hshows.imp fun _ _ hr => hr.mono h'.symbols) hshows'
  · have hcount := h.count
    have hcount' := h'.count
    rw [List.length_append]
    omega

theorem Emits.rebase (h : loader.Consistent) {va value : U64} :
  loader.Emits (loader.push { Relocation.unresolved with
    va := va, kind := .relative, width := kPointerSize, value := value, hasValue := true })
    [.rebase va value] :=
  ⟨⟨_, rfl, .cons rfl .nil⟩, h, List.prefix_rfl, Nat.le_succ _⟩

theorem importSymbolIndex_spec (h : loader.Consistent) (hroom : loader.symbols.length < 2 ^ 32)
  (name : SymbolName) :
  (loader.importSymbolIndex name).2.symbols[(loader.importSymbolIndex name).1]? = some name ∧
    (loader.importSymbolIndex name).2.relocations = loader.relocations ∧
    (loader.importSymbolIndex name).2.Consistent ∧
    loader.symbols <+: (loader.importSymbolIndex name).2.symbols ∧
    (loader.importSymbolIndex name).2.symbols.length ≤ loader.symbols.length + 1 := by
  unfold importSymbolIndex
  cases hlookup : loader.importIndex.lookup name with
  | some index => exact ⟨h name index hlookup, rfl, h, List.prefix_rfl, Nat.le_succ _⟩
  | none =>
    have hindex : loader.symbols.length % 2 ^ 32 = loader.symbols.length :=
      Nat.mod_eq_of_lt hroom
    have hnew : (loader.symbols ++ [name])[loader.symbols.length]? = some name := by simp
    dsimp only
    rw [hindex]
    refine ⟨hnew, rfl, fun other index hother => ?_, List.prefix_append _ _, by simp⟩
    change List.lookup other ((name, loader.symbols.length) :: loader.importIndex) =
      some index at hother
    rw [List.lookup_cons] at hother
    by_cases hsame : (other == name) = true
    · rw [hsame] at hother
      obtain rfl := Option.some.inj hother
      rw [eq_of_beq hsame]
      exact hnew
    · rw [Bool.not_eq_true] at hsame
      rw [hsame] at hother
      have hold := h other index hother
      change (loader.symbols ++ [name])[index]? = some other
      rw [List.getElem?_append_left (List.getElem?_eq_some_iff.mp hold).1, hold]

theorem Emits.bind (h : loader.Consistent) (hroom : loader.symbols.length < 2 ^ 32)
  {va addend : U64} {name : SymbolName} :
  loader.Emits ((loader.importSymbolIndex name).2.push { Relocation.unresolved with
    va := va, kind := .gotSlot, width := kPointerSize, addend := addend,
    symbolIndex := (loader.importSymbolIndex name).1 }) [.bind va name addend] := by
  obtain ⟨hname, hrelocations, hconsistent, hsymbols, hcount⟩ :=
    importSymbolIndex_spec h hroom name
  refine ⟨⟨_, ?_, .cons ⟨_, hname, rfl⟩ .nil⟩, hconsistent, hsymbols, hcount⟩
  rw [push, hrelocations]

end MachLoader

/-! ## Decoding -/

section Decoding

variable {file : FieldReader} {segments : List MachSegment} {image : ChainedImage}
  {loader final : MachLoader}

/-- Slots that bind name imports of the table. -/
def ChainedImage.Ranged (image : ChainedImage) (located : LocatedSlot) : Prop :=
  ∀ ordinal addend reserved, located.slot = .bind ordinal addend reserved →
    ordinal.toNat < image.imports.length

/-- What one word of a chain does to the loader. -/
def emitWord (file : FieldReader) (imports : ImportTable) (va word : U64) (pointerFormat : Nat)
    (imageBase : U64) (loader : MachLoader) : MachLoader :=
  if word &&& (1#64 <<< 63) ≠ 0#64 then loader.emitChainedBind file imports va word
  else loader.emitChainedRebase va word pointerFormat imageBase

theorem emitWord_emits
  (himports : ∀ ordinal < image.imports.length,
    image.importTable.Holds file ordinal (image.imports.getD ordinal ⟨[], 0#64⟩))
  (located : LocatedSlot) (hranged : image.Ranged located) (next : BitVec 12) (imageBase : U64)
  (hloader : loader.Consistent)
  (hroom : loader.symbols.length + (image.emitted imageBase located).length ≤ 2 ^ 32) :
  loader.Emits (emitWord file image.importTable located.va (located.slot.word next)
    located.pointerFormat imageBase loader) (image.emitted imageBase located) := by
  obtain ⟨va, pointerFormat, slot⟩ := located
  cases slot with
  | rebase target high8 reserved =>
    dsimp only [emitWord]
    rw [if_neg (not_not_intro (ChainSlot.topBit_rebase next target high8 reserved)),
      MachLoader.emitChainedRebase, ChainSlot.target_word, ChainSlot.high8_word]
    exact MachLoader.Emits.rebase hloader
  | bind ordinal addend reserved =>
    have hordinal := hranged ordinal addend reserved rfl
    have hresolve : file.resolveChainedImportName image.importTable ordinal.toNat =
        (image.importOf ordinal).name :=
      resolve_holds hordinal (himports _ hordinal)
    dsimp only [emitWord]
    rw [if_pos (ChainSlot.topBit_bind next ordinal addend reserved),
      MachLoader.emitChainedBind, ChainSlot.ordinal_word, ChainSlot.addend_word, hresolve]
    dsimp only [ChainedImage.emitted] at hroom ⊢
    by_cases hname : (image.importOf ordinal).name = []
    · rw [if_pos hname, if_pos hname]
      exact MachLoader.Emits.refl hloader
    · rw [if_neg hname] at hroom ⊢
      rw [if_neg hname]
      exact MachLoader.Emits.bind hloader (Nat.lt_of_succ_le hroom)

theorem le_of_u64 {offset word : U64} (h : file.u64 offset = some word) :
  offset.toNat + 8 ≤ file.data.length := by
  unfold FieldReader.u64 FieldReader.read at h
  split at h
  · cases h
  · omega

theorem walkChain_succ (imports : ImportTable) (segment : MachSegment) (pageBase : U64)
  (pointerFormat : Nat) (imageBase : U64) (fuel : Nat) (offsetInPage : U64)
  (loader : MachLoader) :
  walkChain file imports segment pageBase pointerFormat imageBase (fuel + 1) offsetInPage
      loader =
    let fileOffset := segment.fileoff + pageBase + offsetInPage
    if file.data.length < (fileOffset + 8#64).toNat then some loader
    else
      match file.u64 fileOffset with
      | none => some loader
      | some word =>
        let loader := emitWord file imports (segment.vmaddr + pageBase + offsetInPage) word
          pointerFormat imageBase loader
        if (word >>> 51) &&& 0xfff#64 = 0#64 then some loader
        else
          walkChain file imports segment pageBase pointerFormat imageBase fuel
            (offsetInPage + ((word >>> 51) &&& 0xfff#64) * 4#64) loader := rfl

variable {fuel : Nat} {segment : MachSegment}

/-- Every turn moves the cursor towards the end of the file. -/
theorem walkChain_isSome (hfile : file.data.length < 2 ^ 63) (imports : ImportTable)
  (segment : MachSegment) (pageBase : U64) (pointerFormat : Nat) (imageBase : U64)
  {offsetInPage : U64}
  (hfuel : file.data.length < (segment.fileoff + pageBase + offsetInPage).toNat + fuel)
  (hpos : 0 < fuel) (loader : MachLoader) :
  (walkChain file imports segment pageBase pointerFormat imageBase fuel offsetInPage
    loader).isSome = true := by
  induction fuel generalizing offsetInPage loader with
  | zero => exact absurd hpos (Nat.lt_irrefl 0)
  | succ fuel ih =>
    rw [walkChain_succ]
    dsimp only
    split
    · rfl
    · cases hword : file.u64 (segment.fileoff + pageBase + offsetInPage) with
      | none => rfl
      | some word =>
        dsimp only
        split
        · rfl
        · rename_i hnext
          have hin := le_of_u64 hword
          have hstep : ((word >>> 51) &&& 0xfff#64).toNat < 2 ^ 12 := by
            rw [toNat_field (n := 12) _ _ (by decide)]
            exact Nat.mod_lt _ (Nat.two_pow_pos 12)
          have hmoved : ((word >>> 51) &&& 0xfff#64).toNat ≠ 0 := fun hzero =>
            hnext (BitVec.eq_of_toNat_eq hzero)
          have hcursor : (segment.fileoff + pageBase + (offsetInPage +
              ((word >>> 51) &&& 0xfff#64) * 4#64)).toNat =
              (segment.fileoff + pageBase + offsetInPage).toNat +
                ((word >>> 51) &&& 0xfff#64).toNat * 4 := by
            rw [← BitVec.add_assoc, BitVec.toNat_add, BitVec.toNat_mul]
            change (_ + _ * 4 % 2 ^ 64) % 2 ^ 64 = _
            omega
          exact ih (by rw [hcursor]; omega) (by omega) _

theorem walkChain_slot (hfile : file.data.length < 2 ^ 63) (imports : ImportTable) {pageBase : U64} (pointerFormat : Nat) (imageBase : U64) (fuel : Nat)
  {offset : Nat} {slot : ChainSlot} {next : BitVec 12}
  (hread : file.u64 (segment.fileoff + pageBase + BitVec.ofNat 64 offset) =
    some (slot.word next)) (loader : MachLoader) :
  walkChain file imports segment pageBase pointerFormat imageBase (fuel + 1)
      (BitVec.ofNat 64 offset) loader =
    let loader := emitWord file imports (segment.vmaddr + pageBase + BitVec.ofNat 64 offset)
      (slot.word next) pointerFormat imageBase loader
    if next = 0#12 then some loader
    else
      walkChain file imports segment pageBase pointerFormat imageBase fuel
        (BitVec.ofNat 64 (offset + next.toNat * 4)) loader := by
  have hin := le_of_u64 hread
  have hbelow : ¬ file.data.length <
      (segment.fileoff + pageBase + BitVec.ofNat 64 offset + 8#64).toNat := by
    rw [BitVec.toNat_add]
    change ¬ _ < (_ + 8) % 2 ^ 64
    omega
  have hzero : next.setWidth 64 = 0#64 ↔ next = 0#12 := by
    have hlt := next.isLt
    rw [BitVec.toNat_eq, BitVec.toNat_eq, BitVec.toNat_setWidth]
    change next.toNat % 2 ^ 64 = 0 ↔ next.toNat = 0
    omega
  have hcursor : BitVec.ofNat 64 offset + next.setWidth 64 * 4#64 =
      BitVec.ofNat 64 (offset + next.toNat * 4) := by
    have hlt := next.isLt
    refine BitVec.eq_of_toNat_eq ?_
    simp only [BitVec.toNat_add, BitVec.toNat_mul, BitVec.toNat_setWidth, BitVec.toNat_ofNat]
    omega
  rw [walkChain_succ]
  dsimp only
  rw [if_neg hbelow, hread]
  dsimp only
  rw [ChainSlot.next_word, hcursor]
  simp only [hzero]

theorem located_cons (offset : Nat) (slot : ChainSlot) (page : ChainedPage) (pageVa : U64)
  (pointerFormat : Nat) :
  ChainedPage.located ((offset, slot) :: page) pageVa pointerFormat =
    ⟨pageVa + BitVec.ofNat 64 offset, pointerFormat, slot⟩ ::
      ChainedPage.located page pageVa pointerFormat := rfl

theorem walkChain_emits (hfile : file.data.length < 2 ^ 63)
  (himports : ∀ ordinal < image.imports.length,
    image.importTable.Holds file ordinal (image.imports.getD ordinal ⟨[], 0#64⟩)) {pageBase imageBase : U64} {pointerFormat : Nat} {page : ChainedPage}
  {offset : Nat} {slot : ChainSlot}
  (hlinked : ChainedPage.Linked file (segment.fileoff + pageBase) ((offset, slot) :: page))
  (hranged : ∀ located ∈ ChainedPage.located ((offset, slot) :: page)
    (segment.vmaddr + pageBase) pointerFormat, image.Ranged located)
  (hloader : loader.Consistent)
  (hroom : loader.symbols.length + ((ChainedPage.located ((offset, slot) :: page)
    (segment.vmaddr + pageBase) pointerFormat).flatMap (image.emitted imageBase)).length ≤
      2 ^ 32)
  (hwalk : walkChain file image.importTable segment pageBase pointerFormat imageBase fuel
    (BitVec.ofNat 64 offset) loader = some final) :
  loader.Emits final ((ChainedPage.located ((offset, slot) :: page)
    (segment.vmaddr + pageBase) pointerFormat).flatMap (image.emitted imageBase)) := by
  induction page generalizing offset slot fuel loader with
  | nil =>
    cases fuel with
    | zero => cases hwalk
    | succ fuel =>
      obtain ⟨⟨next, hread, hlast⟩, -⟩ := hlinked
      rw [walkChain_slot hfile _ _ _ _ hread] at hwalk
      obtain rfl := Option.some.inj ((if_pos hlast).symm.trans hwalk)
      rw [located_cons, ChainedPage.located, List.map_nil, List.flatMap_singleton] at hroom ⊢
      exact emitWord_emits himports _ (hranged _ List.mem_cons_self) next imageBase hloader
        hroom
  | cons follower page ih =>
    cases fuel with
    | zero => cases hwalk
    | succ fuel =>
      obtain ⟨offset', slot'⟩ := follower
      obtain ⟨⟨next, hread, hmore, hoffset⟩, hrest⟩ := hlinked
      rw [walkChain_slot hfile _ _ _ _ hread] at hwalk
      have hwalk' := (if_neg hmore).symm.trans hwalk
      rw [← hoffset] at hwalk'
      rw [located_cons] at hranged
      rw [located_cons, List.flatMap_cons] at hroom ⊢
      rw [List.length_append] at hroom
      have hword := emitWord_emits himports _ (hranged _ List.mem_cons_self) next imageBase
        hloader (by omega)
      have hcount := hword.count
      exact hword.trans (ih hrest (fun located hlocated =>
        hranged located (List.mem_cons_of_mem _ hlocated)) hword.consistent (by omega) hwalk')

theorem walkPages_isSome (hfile : file.data.length < 2 ^ 63) (imports : ImportTable)
  (segment : MachSegment) (segInfoBase : U64) (hfuel : file.data.length < fuel)
  (pageSize pointerFormat : Nat) (segmentOffset imageBase : U64) (pages : List Nat)
  (loader : MachLoader) :
  (walkPages file imports segment segInfoBase fuel pageSize pointerFormat segmentOffset imageBase
    pages loader).isSome = true := by
  induction pages generalizing loader with
  | nil => rfl
  | cons page pages ih =>
    rw [walkPages]
    cases file.u16 (segInfoBase + kChainedSegPageStart + BitVec.ofNat 64 (page * 2)) with
    | none => rfl
    | some pageStart =>
      dsimp only
      split
      · exact ih loader
      · have hends : (walkChain file imports segment
            (imageBase + segmentOffset + BitVec.ofNat 64 (page * pageSize) - segment.vmaddr)
            pointerFormat imageBase fuel (BitVec.ofNat 64 pageStart) loader).isSome = true :=
          walkChain_isSome hfile imports segment _ pointerFormat imageBase (by omega)
            (by omega) loader
        obtain ⟨after, hafter⟩ := Option.isSome_iff_exists.mp hends
        rw [hafter]
        exact ih after

theorem walkPages_emits (hfile : file.data.length < 2 ^ 63)
  (himports : ∀ ordinal < image.imports.length,
    image.importTable.Holds file ordinal (image.imports.getD ordinal ⟨[], 0#64⟩)) {segInfoBase imageBase : U64} {chains : ChainedSegment}
  (hchains : chains.Encodes file segment imageBase segInfoBase) {pages : List Nat}
  (hpages : ∀ page ∈ pages, page < chains.pages.length)
  (hranged : ∀ located ∈ pages.flatMap (chains.pageSlots imageBase), image.Ranged located)
  (hloader : loader.Consistent)
  (hroom : loader.symbols.length +
    ((pages.flatMap (chains.pageSlots imageBase)).flatMap (image.emitted imageBase)).length ≤
      2 ^ 32)
  (hwalk : walkPages file image.importTable segment segInfoBase fuel chains.pageSize
    chains.pointerFormat chains.segmentOffset imageBase pages loader = some final) :
  loader.Emits final
    ((pages.flatMap (chains.pageSlots imageBase)).flatMap (image.emitted imageBase)) := by
  induction pages generalizing loader with
  | nil =>
    obtain rfl := Option.some.inj hwalk
    exact MachLoader.Emits.refl hloader
  | cons page pages ih =>
    have hpage := hchains.pages page (hpages page List.mem_cons_self)
    have hpages' : ∀ other ∈ pages, other < chains.pages.length := fun other hother =>
      hpages other (List.mem_cons_of_mem page hother)
    rw [List.flatMap_cons] at hranged
    rw [List.flatMap_cons, List.flatMap_append] at hroom ⊢
    rw [List.length_append] at hroom
    have hranged' : ∀ located ∈ pages.flatMap (chains.pageSlots imageBase),
        image.Ranged located := fun located hlocated =>
      hranged located (List.mem_append_right _ hlocated)
    rw [walkPages] at hwalk
    rcases hslots : chains.pages.getD page [] with _ | ⟨⟨offset, slot⟩, rest⟩
    · -- A page without slots.
      rw [hslots] at hpage
      have hempty : chains.pageSlots imageBase page = [] := by
        rw [ChainedSegment.pageSlots, hslots]
        rfl
      rw [hpage] at hwalk
      dsimp only at hwalk
      rw [if_pos (.inl rfl)] at hwalk
      rw [hempty] at hroom ⊢
      exact ih hpages' hranged' hloader (by simpa using hroom) hwalk
    · rw [hslots] at hpage
      obtain ⟨hstart, hsingle, hlow, hhigh, hlinked⟩ := hpage
      have hva : segment.vmaddr + (chains.pageVa imageBase page - segment.vmaddr) =
          chains.pageVa imageBase page := by
        rw [BitVec.add_comm, BitVec.sub_add_cancel]
      have hlocated : chains.pageSlots imageBase page = ChainedPage.located
          ((offset, slot) :: rest)
          (segment.vmaddr + (chains.pageVa imageBase page - segment.vmaddr))
          chains.pointerFormat := by
        rw [ChainedSegment.pageSlots, hslots, hva]
      have hinside : ¬ (offset = kChainedPtrStartNone ∨ offset &&& kChainedPtrStartMulti ≠ 0 ∨
          chains.pageVa imageBase page < segment.vmaddr ∨
          segment.vmaddr + segment.vmsize ≤ chains.pageVa imageBase page) := by
        have hbound := hchains.bound
        rw [BitVec.lt_def, BitVec.le_def, BitVec.toNat_add, Nat.mod_eq_of_lt hbound]
        rintro (hnone | hmulti | hbelow | habove)
        · rw [hnone] at hsingle
          exact absurd hsingle (by decide)
        · exact hmulti hsingle
        · omega
        · omega
      rw [hstart] at hwalk
      dsimp only at hwalk
      have hwalk' := (if_neg hinside).symm.trans hwalk
      split at hwalk'
      · cases hwalk'
      · rename_i after hafter
        rw [hlocated] at hroom hranged ⊢
        have hpageEmits := walkChain_emits hfile himports hlinked (fun located hmem =>
          hranged located (List.mem_append_left _ hmem)) hloader (by omega) hafter
        have hcount := hpageEmits.count
        exact hpageEmits.trans (ih hpages' hranged' hpageEmits.consistent (by omega) hwalk')

theorem walkSegments_isSome (hfile : file.data.length < 2 ^ 63) (imports : ImportTable)
  (segments : List MachSegment) (hfuel : file.data.length < fuel)
  (startsBase : U64) (indices : List Nat) (loader : MachLoader) :
  (walkSegments file imports segments fuel startsBase indices loader).isSome = true := by
  induction indices generalizing loader with
  | nil => rfl
  | cons index indices ih =>
    rw [walkSegments]
    split
    · rfl
    · split
      · exact ih loader
      · rename_i segInfoOffset _ _ segment _
        have hends : (walkSegmentChains file imports segments fuel segment
            (startsBase + BitVec.ofNat 64 segInfoOffset) loader).isSome = true := by
          unfold walkSegmentChains
          split
          · rfl
          · split
            · rfl
            · exact walkPages_isSome hfile imports segment _ hfuel _ _ _ _ _ loader
        obtain ⟨after, hafter⟩ := Option.isSome_iff_exists.mp hends
        rw [hafter]
        exact ih after

/-- Of any file the walk ends. -/
theorem applyChainedFixups_isSome (hfile : file.data.length < 2 ^ 63)
  (segments : List MachSegment) {fuel : Nat} (hfuel : file.data.length < fuel)
  (command : Option ChainedFixupsData) (loader : MachLoader) :
  (applyChainedFixups file segments fuel command loader).isSome = true := by
  unfold applyChainedFixups
  split
  · rfl
  · split
    · rfl
    · dsimp only
      split
      · rfl
      · split
        · rfl
        · exact walkSegments_isSome hfile _ segments hfuel _ _ loader

theorem walkSegmentChains_emits (hfile : file.data.length < 2 ^ 63)
  (himports : ∀ ordinal < image.imports.length,
    image.importTable.Holds file ordinal (image.imports.getD ordinal ⟨[], 0#64⟩)) {segInfoBase : U64} {chains : ChainedSegment}
  (hchains : chains.Encodes file segment (imageBase segments) segInfoBase)
  (hranged : ∀ located ∈ chains.slots (imageBase segments), image.Ranged located)
  (hloader : loader.Consistent)
  (hroom : loader.symbols.length + ((chains.slots (imageBase segments)).flatMap
    (image.emitted (imageBase segments))).length ≤ 2 ^ 32)
  (hwalk : walkSegmentChains file image.importTable segments fuel segment segInfoBase loader =
    some final) :
  loader.Emits final
    ((chains.slots (imageBase segments)).flatMap (image.emitted (imageBase segments))) := by
  have hdecoded : ¬ (chains.pointerFormat ≠ kChainedPtr64 ∧
      chains.pointerFormat ≠ kChainedPtr64Offset) := by
    have h := hchains.decoded
    tauto
  unfold walkSegmentChains at hwalk
  rw [hchains.pageSize, hchains.pointerFormat, hchains.segmentOffset, hchains.pageCount] at hwalk
  have hwalk' := (if_neg hdecoded).symm.trans hwalk
  exact walkPages_emits hfile himports hchains (fun page hpage => List.mem_range.mp hpage) hranged
    hloader hroom hwalk'

theorem walkSegments_emits (hfile : file.data.length < 2 ^ 63)
  (himage : image.Encodes file segments) {indices : List Nat}
  (hindices : ∀ index ∈ indices, index < image.segments.length)
  (hloader : loader.Consistent)
  (hroom : loader.symbols.length +
    ((indices.flatMap (image.segmentSlots (imageBase segments))).flatMap
      (image.emitted (imageBase segments))).length ≤ 2 ^ 32)
  (hwalk : walkSegments file image.importTable segments fuel image.startsBase indices loader =
    some final) :
  loader.Emits final ((indices.flatMap (image.segmentSlots (imageBase segments))).flatMap
    (image.emitted (imageBase segments))) := by
  induction indices generalizing loader with
  | nil =>
    obtain rfl := Option.some.inj hwalk
    exact MachLoader.Emits.refl hloader
  | cons index indices ih =>
    have hindices' : ∀ other ∈ indices, other < image.segments.length := fun other hother =>
      hindices other (List.mem_cons_of_mem index hother)
    have hindex := hindices index List.mem_cons_self
    obtain ⟨infoOffset, hread, hchains⟩ := himage.chains index hindex
    rw [List.flatMap_cons, List.flatMap_append] at hroom ⊢
    rw [List.length_append] at hroom
    rw [walkSegments, hread] at hwalk
    dsimp only at hwalk
    rcases hsegment : image.segments.getD index none with _ | chains
    · rw [hsegment] at hchains
      have hempty : image.segmentSlots (imageBase segments) index = [] := by
        rw [ChainedImage.segmentSlots, hsegment]
      rw [if_pos hchains] at hwalk
      rw [hempty] at hroom ⊢
      exact ih hindices' hloader (by simpa using hroom) hwalk
    · rw [hsegment] at hchains
      obtain ⟨hnonzero, segment, hat, hencodes⟩ := hchains
      have hslots : image.segmentSlots (imageBase segments) index =
          chains.slots (imageBase segments) := by
        rw [ChainedImage.segmentSlots, hsegment]
      rw [if_neg hnonzero, hat] at hwalk
      dsimp only at hwalk
      split at hwalk
      · cases hwalk
      · rename_i after hafter
        have hranged : ∀ located ∈ chains.slots (imageBase segments), image.Ranged located := by
          intro located hmem
          refine himage.ordinals located (List.mem_flatMap.mpr
            ⟨index, List.mem_range.mpr hindex, ?_⟩)
          rwa [hslots]
        rw [hslots] at hroom ⊢
        have hsegmentEmits := walkSegmentChains_emits hfile himage.imports hencodes hranged
          hloader (by omega) hafter
        have hcount := hsegmentEmits.count
        exact hsegmentEmits.trans
          (ih hindices' hsegmentEmits.consistent (by omega) hwalk)

theorem applyChainedFixups_emits (hfile : file.data.length < 2 ^ 63)
  (himage : image.Encodes file segments) (hloader : loader.Consistent)
  (hroom : loader.symbols.length + ((image.slots (imageBase segments)).flatMap
    (image.emitted (imageBase segments))).length ≤ 2 ^ 32)
  (hwalk : applyChainedFixups file segments fuel (some image.command) loader = some final) :
  loader.Emits final
    ((image.slots (imageBase segments)).flatMap (image.emitted (imageBase segments))) := by
  have hfits : ¬ (file.data.length < image.command.off + image.command.size ∨
      image.command.size < kChainedFixupsHeaderSize) := by
    have hsize := himage.fits
    have hheader := himage.header
    omega
  unfold applyChainedFixups at hwalk
  have hwalk' := (if_neg hfits).symm.trans hwalk
  rw [← ChainedImage.header] at hwalk'
  dsimp only at hwalk'
  rw [himage.startsOffset, himage.importsOffset, himage.symbolsOffset, himage.importsCount,
    himage.importsFormat] at hwalk'
  change (match file.u32 (image.startsBase + kChainedStartsSegCount) with
    | none => some loader
    | some segCount => walkSegments file image.importTable segments fuel image.startsBase
        (List.range segCount) loader) = some final at hwalk'
  rw [himage.segCount] at hwalk'
  exact walkSegments_emits hfile himage (fun index hindex => List.mem_range.mp hindex) hloader
    hroom hwalk'

end Decoding

/-! ## What is kept -/

/-- Joining bits adds them where none falls on another. -/
theorem or_eq_add_iff (x y : U64) : x ||| y = x + y ↔ x &&& y = 0#64 := by
  constructor
  · intro h
    have hsum := NatBits.or_add_and x.toNat y.toNat
    have hor : (x ||| y).toNat = x.toNat ||| y.toNat := BitVec.toNat_or ..
    have hadd : (x + y).toNat = (x.toNat + y.toNat) % 2 ^ 64 := BitVec.toNat_add ..
    have hle : x.toNat &&& y.toNat ≤ x.toNat := Nat.and_le_left
    have hlt := (x ||| y).isLt
    have hx := x.isLt
    have hy := y.isLt
    have heq := congrArg BitVec.toNat h
    have hleft : x.toNat ≤ x.toNat ||| y.toNat := Nat.left_le_or
    have hright : y.toNat ≤ x.toNat ||| y.toNat := Nat.right_le_or
    refine BitVec.eq_of_toNat_eq ?_
    rw [BitVec.toNat_and, BitVec.toNat_zero]
    omega
  · exact fun h => (BitVec.add_eq_or_of_and_eq_zero x y h).symm

namespace ChainedImage

variable {image : ChainedImage} {imageBase : U64}

theorem emitted_eq_iff (located : LocatedSlot) :
  image.emitted imageBase located = [image.fixup imageBase located] ↔
    image.Kept imageBase located := by
  obtain ⟨va, pointerFormat, slot⟩ := located
  cases slot with
  | rebase target high8 reserved =>
    simp only [emitted, fixup, Kept, List.cons.injEq, Fixup.rebase.injEq, and_true, true_and]
    exact or_eq_add_iff _ _
  | bind ordinal addend reserved =>
    simp only [emitted, fixup, Kept]
    by_cases hname : (image.importOf ordinal).name = []
    · rw [if_pos hname]
      exact iff_of_false (by simp) fun h => h.1 hname
    · rw [if_neg hname]
      simp only [List.cons.injEq, Fixup.bind.injEq, and_true, true_and]
      constructor
      · intro h
        exact ⟨hname, by simpa using h⟩
      · rintro ⟨-, h⟩
        rw [h, BitVec.add_zero]

theorem length_emitted (located : LocatedSlot) :
  (image.emitted imageBase located).length ≤ 1 := by
  unfold emitted
  split
  · exact Nat.le_refl 1
  · split <;> simp

theorem length_flatMap_emitted (slots : List LocatedSlot) :
  (slots.flatMap (image.emitted imageBase)).length ≤ slots.length := by
  induction slots with
  | nil => exact Nat.le_refl 0
  | cons located slots ih =>
    have hone := @length_emitted image imageBase located
    rw [List.flatMap_cons, List.length_append, List.length_cons]
    omega

/-- One fixup for each slot, and the right one, exactly where every slot is kept. -/
theorem flatMap_emitted_eq_iff (slots : List LocatedSlot) :
  slots.flatMap (image.emitted imageBase) = slots.map (image.fixup imageBase) ↔
    ∀ located ∈ slots, image.Kept imageBase located := by
  induction slots with
  | nil => simp
  | cons located slots ih =>
    rw [List.flatMap_cons, List.map_cons, List.forall_mem_cons, ← emitted_eq_iff, ← ih]
    constructor
    · intro h
      have hlength := congrArg List.length h
      have hrest := @length_flatMap_emitted image imageBase slots
      rw [List.length_append, List.length_cons, List.length_map] at hlength
      rcases hemitted : image.emitted imageBase located with _ | ⟨first, more⟩
      · rw [hemitted, List.length_nil] at hlength
        omega
      · have hone := @length_emitted image imageBase located
        rw [hemitted] at h hone
        obtain rfl : more = [] := List.eq_nil_of_length_eq_zero (by simpa using hone)
        rw [List.singleton_append, List.cons.injEq] at h
        exact ⟨by rw [h.1], h.2⟩
    · rintro ⟨hfirst, hrest⟩
      rw [hfirst, hrest]
      rfl

end ChainedImage

theorem forall₂_shows_eq {loader : MachLoader} {added : List Relocation} {xs ys : List Fixup}
  (hxs : List.Forall₂ loader.Shows added xs) (hys : List.Forall₂ loader.Shows added ys) :
  xs = ys := by
  induction hxs generalizing ys with
  | nil => exact (List.forall₂_nil_left_iff.mp hys).symm
  | cons hx _ ih =>
    obtain ⟨y, ys', hy, hrest, rfl⟩ := List.forall₂_cons_left_iff.mp hys
    rw [hx.functional hy, ih hrest]

/-- **Chained fixups.**  Of any file the walk ends.  Of an image with one chain a page the
loader emits for every slot one relocation, the one that dyld applies, exactly where no
high byte falls on a bit of its address and every bound import has a name and no addend of
its own. -/
theorem applyChainedFixups_exact (file : FieldReader) (hfile : file.data.length < 2 ^ 63)
    (segments : List MachSegment) {fuel : Nat} (hfuel : file.data.length < fuel) :
    (∀ command loader, (applyChainedFixups file segments fuel command loader).isSome = true) ∧
    ∀ (image : ChainedImage) (loader : MachLoader), image.Encodes file segments →
      loader.Consistent →
      loader.symbols.length + (image.slots (imageBase segments)).length ≤ 2 ^ 32 →
      ∃ final added,
        applyChainedFixups file segments fuel (some image.command) loader = some final ∧
        final.relocations = loader.relocations ++ added ∧
        (List.Forall₂ final.Shows added
            ((image.slots (imageBase segments)).map (image.fixup (imageBase segments))) ↔
          ∀ located ∈ image.slots (imageBase segments),
            image.Kept (imageBase segments) located) := by
  have hends := @applyChainedFixups_isSome file hfile segments fuel hfuel
  refine ⟨hends, fun image loader himage hloader hroom => ?_⟩
  obtain ⟨final, hfinal⟩ := Option.isSome_iff_exists.mp (hends (some image.command) loader)
  have hcount := @ChainedImage.length_flatMap_emitted image (imageBase segments)
    (image.slots (imageBase segments))
  have hemits := applyChainedFixups_emits hfile himage hloader (by omega) hfinal
  obtain ⟨added, hadded, hshows⟩ := hemits.relocations
  refine ⟨final, added, hfinal, hadded, ?_⟩
  rw [← ChainedImage.flatMap_emitted_eq_iff]
  constructor
  · exact fun h => forall₂_shows_eq hshows h
  · intro h
    rwa [← h]

/-! ## A file -/

/-- A file with one slot, which binds an import of the second format: its header, the page
starts of its one segment, the import with an addend, its name, and the slot. -/
def boundFile (addend : BitVec 8) : FieldReader where
  data := [0, 0, 0, 0, 28, 0, 0, 0, 60, 0, 0, 0, 68, 0, 0, 0, 1, 0, 0, 0, 2, 0, 0, 0, 0, 0, 0, 0,
    1, 0, 0, 0, 8, 0, 0, 0,
    0, 0, 0, 0, 0, 0x10, 6, 0, 0, 0, 0, 0, 0, 0, 0, 0, 0, 0, 0, 0, 1, 0, 0, 0,
    0, 0, 0, 0, addend, 0, 0, 0,
    0x66, 0, 0, 0,
    0, 0, 0, 0, 0, 0, 0, 0x80]
  endian := .little

def boundSegments : List MachSegment := [⟨0x1000#64, 8#64, 72#64, 8#64⟩]

def boundImage (addend : U64) : ChainedImage where
  command := ⟨0, 80⟩
  startsOffset := 28
  importsOffset := 60
  symbolsOffset := 68
  importsFormat := 2
  imports := [⟨[0x66#8], addend⟩]
  segments := [some ⟨0x1000, 6, 0#64, [[(0, .bind 0#24 0#8 0#19)]]⟩]

def emptyLoader : MachLoader := ⟨[], [], []⟩

theorem emptyLoader_consistent : emptyLoader.Consistent := fun _ _ h => nomatch h

theorem boundImage_encodes {byte : BitVec 8} {addend : U64}
  (h : byte = 0#8 ∧ addend = 0#64 ∨ byte = 16#8 ∧ addend = 16#64) :
  (boundImage addend).Encodes (boundFile byte) boundSegments := by
  rcases h with ⟨rfl, rfl⟩ | ⟨rfl, rfl⟩
  all_goals
    refine ⟨by decide, by decide, by decide, by decide, by decide, by decide, by decide, ?_,
      by decide, ?_, ?_⟩
    · intro ordinal hordinal
      obtain rfl := Nat.lt_one_iff.mp hordinal
      exact .addend 0#23 0#9 rfl (by decide) (by decide) (by decide)
    · intro index hindex
      obtain rfl := Nat.lt_one_iff.mp hindex
      refine ⟨8, by decide, by decide, _, rfl, by decide, by decide, by decide, by decide,
        .inr rfl, by decide, fun page hpage => ?_⟩
      obtain rfl := Nat.lt_one_iff.mp hpage
      exact ⟨by decide, by decide, by decide, by decide, ⟨0#12, by decide, rfl⟩, trivial⟩
    · intro located hlocated ordinal _ _ hslot
      obtain rfl := List.mem_singleton.mp hlocated
      injection hslot with hordinal
      rw [← hordinal]
      decide

/-- The import's addend of 16 is not added. -/
theorem import_addend_dropped :
    (boundImage 16#64).Encodes (boundFile 16#8) boundSegments ∧
      ∃ final, applyChainedFixups (boundFile 16#8) boundSegments 81
          (some (boundImage 16#64).command) emptyLoader = some final ∧
        ¬ List.Forall₂ final.Shows final.relocations
          (((boundImage 16#64).slots (imageBase boundSegments)).map
            ((boundImage 16#64).fixup (imageBase boundSegments))) := by
  refine ⟨boundImage_encodes (.inr ⟨rfl, rfl⟩), ⟨[{ Relocation.unresolved with
    va := 0x1000#64, kind := .gotSlot, symbolIndex := 0 }], [[0x66#8]], [([0x66#8], 0)]⟩,
    by decide, fun hshows => ?_⟩
  obtain ⟨⟨index, -, hrelocation⟩, -⟩ := List.forall₂_cons.mp hshows
  injection hrelocation with _ _ _ _ _ haddend
  exact absurd haddend (by decide)

/-- Without an addend the slot is bound. -/
theorem applyChainedFixups_exact_bound :
    ∃ final added, applyChainedFixups (boundFile 0#8) boundSegments 81
        (some (boundImage 0#64).command) emptyLoader = some final ∧
      final.relocations = emptyLoader.relocations ++ added ∧
      List.Forall₂ final.Shows added (((boundImage 0#64).slots (imageBase boundSegments)).map
        ((boundImage 0#64).fixup (imageBase boundSegments))) := by
  obtain ⟨final, added, hfinal, hadded, hiff⟩ :=
    (@applyChainedFixups_exact (boundFile 0#8) (by decide) boundSegments 81 (by decide)).2
      (boundImage 0#64) emptyLoader (boundImage_encodes (.inl ⟨rfl, rfl⟩)) emptyLoader_consistent
      (by decide)
  refine ⟨final, added, hfinal, hadded, hiff.mpr fun located hlocated => ?_⟩
  obtain rfl := List.mem_singleton.mp hlocated
  exact ⟨by decide, by decide⟩

end Xdec

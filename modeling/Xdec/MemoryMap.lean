import Xdec.ByteImage
import Xdec.SpecProgram

/-!
# Fields of a file and the memory it maps

Headers are read as fields of a byte buffer in the byte order of the file.  A
group of reads is followed by one check, which `Option` stands for.

A memory map is the list of regions that loading has sorted and checked: none
reaches the end of the address space and no two overlap.
-/

namespace Xdec

/-- The bytes of a number in the given order. -/
def Endian.number (endian : Endian) (bytes : List (BitVec 8)) : U64 :=
  match endian with
  | .little => littleEndian bytes
  | .big => littleEndian bytes.reverse

structure FieldReader where
  data : List (BitVec 8)
  endian : Endian
deriving DecidableEq

namespace FieldReader

variable (reader : FieldReader)

/-- `none` where the source answers zero and remembers the failure. -/
def read (offset : U64) (bytes : Nat) : Option U64 :=
  if bytes = 0 ∨ 8 < bytes ∨ reader.data.length < offset.toNat ∨
      reader.data.length - offset.toNat < bytes then none
  else some (reader.endian.number ((reader.data.drop offset.toNat).take bytes))

def u8 (offset : U64) : Option Nat := (reader.read offset 1).map BitVec.toNat

def u16 (offset : U64) : Option Nat := (reader.read offset 2).map BitVec.toNat

def u32 (offset : U64) : Option Nat := (reader.read offset 4).map BitVec.toNat

def signedRead (offset : U64) (bytes : Nat) : Option U64 :=
  (reader.read offset bytes).map fun value => signExtend value (bytes * 8)

end FieldReader

structure MemoryRegion where
  va : U64
  size : U64
  fileOffset : U64
  fileSize : U64
deriving DecidableEq

namespace MemoryRegion

def endVa (region : MemoryRegion) : U64 := region.va + region.size

def contains (region : MemoryRegion) (address : U64) : Bool :=
  decide (region.va ≤ address) && decide (address < region.va + region.size)

/-- The checks of `finalize` on one region. -/
def fits (region : MemoryRegion) (backingSize : Nat) : Bool :=
  !decide (BitVec.allOnes 64 - region.size < region.va) &&
    !decide (region.size < region.fileSize) &&
    (region.fileSize == 0#64 ||
      decide (region.fileOffset.toNat + region.fileSize.toNat ≤ backingSize))

end MemoryRegion

structure MemoryMap where
  backing : List (BitVec 8)
  regions : List MemoryRegion
  fits : ∀ region ∈ regions, region.fits backing.length = true
  apart : regions.IsChain fun previous current => previous.endVa ≤ current.va

namespace MemoryMap

/-- Sorts and validates. -/
def finalize (backing : List (BitVec 8)) (regions : List MemoryRegion) : Option MemoryMap :=
  let sorted := (regions.filter fun region => region.size != 0#64).insertionSort
    fun a b => a.va ≤ b.va
  if h : (∀ region ∈ sorted, region.fits backing.length = true) ∧
      sorted.IsChain fun previous current => previous.endVa ≤ current.va then
    some ⟨backing, sorted, h.1, h.2⟩
  else none

variable (memory : MemoryMap)

/-- The last region that starts at or below the address, if it reaches it. -/
def regionAt (va : U64) : Option MemoryRegion :=
  ((memory.regions.takeWhile fun region => decide (region.va ≤ va)).getLast?).filter
    fun region => region.contains va

/-- A byte of the file, or zero past what the file has of the region. -/
def byteAt (va : U64) : Option (BitVec 8) :=
  (memory.regionAt va).map fun region =>
    let offset := va - region.va
    if offset < region.fileSize then
      memory.backing.getD (region.fileOffset + offset).toNat 0#8
    else 0#8

/-- A cursor runs over the range, region after region in the source and byte
after byte here. -/
def read (cursor : U64) : Nat → Option (List (BitVec 8))
  | 0 => some []
  | size + 1 => do
    let byte ← memory.byteAt cursor
    let rest ← read (cursor + 1#64) size
    return byte :: rest

variable {memory}

variable {va : U64} {size : Nat} {bytes : List (BitVec 8)}

theorem mem_of_regionAt {region : MemoryRegion}
  (h : memory.regionAt va = some region) : region ∈ memory.regions ∧ region.contains va = true := by
  obtain ⟨hlast, hcontains⟩ := Option.filter_eq_some_iff.mp h
  exact ⟨(List.takeWhile_prefix _).subset (List.mem_of_getLast? hlast), hcontains⟩

/-- No region reaches the end of the address space. -/
theorem lt_of_byteAt {b : BitVec 8} (h : memory.byteAt va = some b) :
  va.toNat + 1 < 2 ^ 64 := by
  obtain ⟨region, hregion, -⟩ := Option.map_eq_some_iff.mp h
  obtain ⟨hmem, hcontains⟩ := mem_of_regionAt hregion
  have hfits := memory.fits region hmem
  simp only [MemoryRegion.fits, MemoryRegion.contains, Bool.and_eq_true, decide_eq_true_eq,
    Bool.not_eq_true', decide_eq_false_iff_not] at hfits hcontains
  have hend := hfits.1.1
  have hlt := hcontains.2
  rw [BitVec.lt_def, BitVec.toNat_add] at hlt
  rw [BitVec.lt_def, BitVec.toNat_sub, BitVec.toNat_allOnes] at hend
  have := region.size.isLt
  have := region.va.isLt
  omega

theorem read_succ
  (h : memory.read va (size + 1) = some bytes) :
  ∃ byte rest, memory.byteAt va = some byte ∧ memory.read (va + 1#64) size = some rest ∧
    bytes = byte :: rest := by
  obtain ⟨byte, hbyte, h⟩ := Option.bind_eq_some_iff.mp h
  obtain ⟨rest, hrest, h⟩ := Option.bind_eq_some_iff.mp h
  exact ⟨byte, rest, hbyte, hrest, (Option.some.inj h).symm⟩

theorem length_read
  (h : memory.read va size = some bytes) : bytes.length = size := by
  induction size generalizing va bytes with
  | zero =>
    obtain rfl := Option.some.inj h
    rfl
  | succ size ih =>
    obtain ⟨byte, rest, -, hrest, rfl⟩ := read_succ h
    rw [List.length_cons, ih hrest]

/-- The bytes of a range are the bytes at its addresses. -/
theorem getElem_read {k : Nat}
  (h : memory.read va size = some bytes) (hk : k < size) :
  bytes[k]? = memory.byteAt (va + BitVec.ofNat 64 k) := by
  induction size generalizing va bytes k with
  | zero => exact absurd hk (Nat.not_lt_zero k)
  | succ size ih =>
    obtain ⟨byte, rest, hbyte, hrest, rfl⟩ := read_succ h
    cases k with
    | zero =>
      rw [List.getElem?_cons_zero, BitVec.add_zero, hbyte]
    | succ k =>
      rw [List.getElem?_cons_succ, ih hrest (Nat.lt_of_succ_lt_succ hk), BitVec.add_assoc,
        Nat.add_comm k, BitVec.ofNat_add]

/-- A range that can be read does not wrap. -/
theorem bound_of_read
  (h : memory.read va size = some bytes) (hsize : 0 < size) : va.toNat + size < 2 ^ 64 := by
  induction size generalizing va bytes with
  | zero => exact absurd hsize (Nat.not_lt_zero 0)
  | succ size ih =>
    obtain ⟨byte, rest, hbyte, hrest, rfl⟩ := read_succ h
    have hva := lt_of_byteAt hbyte
    rcases Nat.eq_zero_or_pos size with rfl | hpos
    · exact hva
    · have hnext : (va + 1#64).toNat = va.toNat + 1 := by
        rw [BitVec.toNat_add]
        exact Nat.mod_eq_of_lt hva
      have hlater := ih hrest hpos
      omega

end MemoryMap

end Xdec

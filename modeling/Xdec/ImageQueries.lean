import Xdec.BinaryImage
import Xdec.MemoryScan

/-!
# Queries of an image

Relocations and symbols are kept sorted by address, and a query walks back from the
last that can matter to the first that still can.  What it finds is what a scan of all
of them finds, the last in the order first (`walkBack_eq_find?`).

The ends of ranges and relocations are computed modulo 2^64, and an end that wraps lies
before everything: a relocation that reaches the end of the address space is never
found or read, and nothing is found in a range that does (`relocation_at_end_missed`).
Elsewhere the queries are the scans (`queries_exact`).
-/

namespace Xdec

/-- The loop of the queries: back through an index until `stop`. -/
def walkBack {α : Type} (stop test : α → Bool) : List α → Option α
  | [] => none
  | a :: rest => if stop a then none else if test a then some a else walkBack stop test rest

theorem walkBack_eq_find? {α : Type} {stop test : α → Bool} {l : List α}
  (hstop : l.Pairwise fun a b => stop a = true → stop b = true)
  (htest : ∀ a ∈ l, stop a = true → test a = false) : walkBack stop test l = l.find? test := by
  induction l with
  | nil => rfl
  | cons a l ih =>
    obtain ⟨hfirst, hrest⟩ := List.pairwise_cons.mp hstop
    rw [walkBack, List.find?_cons]
    by_cases ha : stop a = true
    · rw [if_pos ha, htest a (List.mem_cons_self ..) ha]
      refine (List.find?_eq_none.mpr fun b hb => ?_).symm
      rw [htest b (List.mem_cons_of_mem _ hb) (hfirst b hb ha)]
      decide
    · rw [if_neg ha, ih hrest fun b hb => htest b (List.mem_cons_of_mem _ hb)]
      cases test a <;> rfl

/-- A search among all from the end does not need what lies behind or before. -/
theorem find?_reverse_takeWhile {α : Type} {p test : α → Bool} {l : List α}
  (h : ∀ a ∈ l.dropWhile p, test a = false) :
  (l.takeWhile p).reverse.find? test = l.reverse.find? test := by
  have hsplit := List.takeWhile_append_dropWhile (p := p) (l := l)
  have hnone : (l.dropWhile p).reverse.find? test = none := by
    refine List.find?_eq_none.mpr fun a ha => ?_
    rw [h a (List.mem_reverse.mp ha)]
    decide
  conv_rhs => rw [← hsplit, List.reverse_append, List.find?_append, hnone, Option.none_or]

theorem find?_reverse_dropWhile {α : Type} {p test : α → Bool} {l : List α}
  (h : ∀ a ∈ l.takeWhile p, test a = false) :
  (l.dropWhile p).reverse.find? test = l.reverse.find? test := by
  have hsplit := List.takeWhile_append_dropWhile (p := p) (l := l)
  have hnone : (l.takeWhile p).reverse.find? test = none := by
    refine List.find?_eq_none.mpr fun a ha => ?_
    rw [h a (List.mem_reverse.mp ha)]
    decide
  conv_rhs => rw [← hsplit, List.reverse_append, List.find?_append, hnone, Option.or_none]

/-- Behind the first that fails the test of a sorted list all fail. -/
theorem not_of_mem_dropWhile {α : Type} {p : α → Bool} {l : List α}
  (hl : l.Pairwise fun a b => p b = true → p a = true) {a : α} (ha : a ∈ l.dropWhile p) :
  p a = false := by
  induction l with
  | nil => cases ha
  | cons first l ih =>
    obtain ⟨hfirst, hrest⟩ := List.pairwise_cons.mp hl
    rw [List.dropWhile_cons] at ha
    split at ha
    · exact ih hrest ha
    · rename_i hnot
      rcases List.mem_cons.mp ha with rfl | ha
      · exact Bool.eq_false_iff.mpr hnot
      · exact Bool.eq_false_iff.mpr fun hp => hnot (hfirst a ha hp)

/-! ## Relocations in a range -/

namespace Relocation

variable (r : Relocation)

/-- The relocation has a byte of the range. -/
def Overlaps (va size : U64) : Prop :=
  0 < size.toNat ∧ r.va.toNat < va.toNat + size.toNat ∧ va.toNat < r.va.toNat + r.width

/-- The same as the source computes it. -/
def reaches (va size : U64) : Bool := decide (va < r.endVa) && decide (r.va < va + size)

end Relocation

namespace BinaryImage

variable (image : BinaryImage)

def lowestPossibleStart (va : U64) : U64 :=
  if BitVec.ofNat 64 image.maxRelocationWidth ≤ va then
    va - BitVec.ofNat 64 image.maxRelocationWidth
  else 0#64

def relocationOverlapping (va size : U64) : Option Relocation :=
  if size = 0#64 ∨ image.relocationsByAddress = [] then none
  else if image.highestRelocationEndVa ≤ va ∨ va + size ≤ image.lowestRelocationVa then none
  else
    walkBack (fun r => decide (r.va < image.lowestPossibleStart va)) (fun r => r.reaches va size)
      (image.relocationsByAddress.takeWhile fun r => decide (r.va ≤ va + size - 1#64)).reverse

variable {image} {va size : U64} {r : Relocation}

theorem reaches_iff :
  r.reaches va size = true ↔ va < r.endVa ∧ r.va < va + size := by
  rw [Relocation.reaches, Bool.and_eq_true, decide_eq_true_eq, decide_eq_true_eq]

theorem overlaps_of_reaches (hsize : size ≠ 0#64) (h : r.reaches va size = true) :
  r.Overlaps va size := by
  obtain ⟨hend, hstart⟩ := reaches_iff.mp h
  have hle := toNat_endVa_le (r := r)
  rw [BitVec.lt_def] at hend hstart
  rw [BitVec.toNat_add] at hstart
  have hpos : size.toNat ≠ 0 := fun hzero => hsize (BitVec.eq_of_toNat_eq hzero)
  refine ⟨by omega, ?_, by omega⟩
  have := Nat.mod_le (va.toNat + size.toNat) (2 ^ 64)
  omega

/-- A relocation before the lowest possible start ends before the address. -/
theorem endVa_le_of_lt_lowest (hwidth : image.maxRelocationWidth < 2 ^ 64)
  (hr : r ∈ image.relocationsByAddress) (h : r.va < image.lowestPossibleStart va) :
  r.va.toNat + r.width ≤ va.toNat := by
  have hmax := width_le_max hr
  unfold lowestPossibleStart at h
  split at h
  · rename_i hle
    rw [BitVec.le_def, BitVec.toNat_ofNat, Nat.mod_eq_of_lt hwidth] at hle
    rw [BitVec.lt_def, BitVec.toNat_sub, BitVec.toNat_ofNat, Nat.mod_eq_of_lt hwidth] at h
    omega
  · exact absurd h BitVec.not_lt_zero

/-- **Overlapping relocations.**  The last in address order that the test accepts. -/
theorem relocationOverlapping_eq (hwidth : image.maxRelocationWidth < 2 ^ 64) :
  image.relocationOverlapping va size =
    if size = 0#64 then none
    else image.relocationsByAddress.reverse.find? fun r => r.reaches va size := by
  unfold relocationOverlapping
  by_cases hsize : size = 0#64
  · rw [if_pos (.inl hsize), if_pos hsize]
  · rw [if_neg hsize]
    by_cases hempty : image.relocationsByAddress = []
    · rw [if_pos (.inr hempty), hempty]
      rfl
    · rw [if_neg (not_or.mpr ⟨hsize, hempty⟩)]
      split
      · -- The early rejections refuse only what no relocation reaches.
        rename_i hreject
        refine (List.find?_eq_none.mpr fun r hr hreaches => ?_).symm
        obtain ⟨hend, hstart⟩ := reaches_iff.mp hreaches
        have hr := List.mem_reverse.mp hr
        have hhigh := endVa_le_highest hr
        have hlow := lowest_le hr
        rw [BitVec.lt_def] at hend hstart
        rw [BitVec.le_def] at hhigh hlow
        rcases hreject with hreject | hreject <;> rw [BitVec.le_def] at hreject <;> omega
      · have hsorted := image.sorted
        rw [walkBack_eq_find?, find?_reverse_takeWhile]
        · intro r hr
          have hnot := not_of_mem_dropWhile (hsorted.imp fun {a b} hle hb => ?_) hr
          · rw [decide_eq_false_iff_not] at hnot
            rw [Bool.eq_false_iff]
            intro hreaches
            obtain ⟨-, hstart⟩ := reaches_iff.mp hreaches
            rw [BitVec.lt_def] at hstart
            rw [BitVec.le_def, BitVec.toNat_sub] at hnot
            rw [BitVec.toNat_ofNat] at hnot
            omega
          · rw [decide_eq_true_eq] at hb ⊢
            exact BitVec.le_trans hle hb
        · rw [List.pairwise_reverse]
          refine (hsorted.sublist (List.takeWhile_sublist _)).imp fun {a b} hle hb => ?_
          rw [decide_eq_true_eq, BitVec.lt_def] at hb ⊢
          rw [BitVec.le_def] at hle
          omega
        · intro r hr hstop
          rw [decide_eq_true_eq] at hstop
          have hmem := (List.takeWhile_sublist _).subset (List.mem_reverse.mp hr)
          have hbefore := endVa_le_of_lt_lowest hwidth hmem hstop
          rw [Bool.eq_false_iff]
          intro hreaches
          obtain ⟨hend, -⟩ := reaches_iff.mp hreaches
          have hle := toNat_endVa_le (r := r)
          rw [BitVec.lt_def] at hend
          omega

theorem relocationOverlapping_isSome_iff (hwidth : image.maxRelocationWidth < 2 ^ 64) :
  (image.relocationOverlapping va size).isSome = true ↔
    size ≠ 0#64 ∧ ∃ r ∈ image.relocationsByAddress, r.reaches va size = true := by
  rw [relocationOverlapping_eq hwidth]
  by_cases hsize : size = 0#64
  · simp [hsize]
  · rw [if_neg hsize, List.find?_isSome]
    simp [hsize]

/-! ## Relocated bytes -/

/-- The byte at an address where a relocation fills it, and the mapped byte without one. -/
def byteUnder (image : BinaryImage) (relocation : Option Relocation) (a : U64) :
    Option (BitVec 8) :=
  (image.memory.byteAt a).map fun byte =>
    match relocation with
    | some r => r.encoded image.endian (a - r.va).toNat
    | none => byte

/-- The last relocation with a value for the byte. -/
def lastCover (image : BinaryImage) (a : U64) : Option Relocation :=
  image.relocationsByAddress.reverse.find? fun r => decide (r.Covers a)

/-- The last of those that end in the address space. -/
def lastKept (image : BinaryImage) (a : U64) : Option Relocation :=
  image.relocationsByAddress.reverse.find? fun r =>
    decide (r.Covers a) && decide (r.va.toNat + r.width < 2 ^ 64)

/-- The byte by a scan of all regions and relocations. -/
def scanByte (image : BinaryImage) (a : U64) : Option (BitVec 8) :=
  image.byteUnder (image.lastCover a) a

def keptByte (image : BinaryImage) (a : U64) : Option (BitVec 8) :=
  image.byteUnder (image.lastKept a) a

variable {size : Nat} {k : Nat} {out : List (BitVec 8)} {rs : List Relocation}

theorem length_splice (va : U64) (size : Nat) (r : Relocation) (out : List (BitVec 8)) :
  (image.splice va size r out).length = out.length := List.length_mapIdx

theorem length_overlay (va : U64) (size : Nat) (rs : List Relocation) (out : List (BitVec 8)) :
  (image.overlay va size rs out).length = out.length := by
  induction rs generalizing out with
  | nil => rfl
  | cons r rs ih =>
    rw [overlay]
    split
    · rfl
    · split
      · exact ih out
      · rw [ih, length_splice]

theorem getElem_splice_of_wraps (hbound : va.toNat + size < 2 ^ 64) (hwidth : r.width < 2 ^ 32)
  (hwraps : 2 ^ 64 ≤ r.va.toNat + r.width) (hk : k < size) :
  (image.splice va size r out)[k]? = out[k]? := by
  have haddress := toNat_address hbound (Nat.le_of_lt hk)
  have hend : r.endVa.toNat = r.va.toNat + r.width - 2 ^ 64 := by
    rw [Relocation.endVa, BitVec.toNat_add, BitVec.toNat_ofNat]
    have := r.va.isLt
    omega
  have hnot : ¬ ((if va < r.va then r.va else va) ≤ va + BitVec.ofNat 64 k ∧
      va + BitVec.ofNat 64 k <
        if r.endVa < va + BitVec.ofNat 64 size then r.endVa else va + BitVec.ofNat 64 size) := by
    have hstop := toNat_address hbound (Nat.le_refl size)
    have := r.va.isLt
    rintro ⟨hstart, hstop'⟩
    split at hstart <;> split at hstop' <;> simp only [BitVec.le_def, BitVec.lt_def] at * <;>
      omega
  unfold splice
  rw [List.getElem?_mapIdx]
  simp only [if_neg hnot]
  exact Option.map_id'

/-- **Overlays.**  The last relocation that covers a byte gives it. -/
theorem getElem_overlay_last (hbound : va.toNat + size < 2 ^ 64) (hk : k < size)
  (hsorted : rs.Pairwise fun a b => a.va ≤ b.va) (hwidth : ∀ r ∈ rs, r.width < 2 ^ 32)
  {byte : BitVec 8} (hbyte : out[k]? = some byte) :
  (image.overlay va size rs out)[k]? = some
    (match rs.reverse.find? fun r => decide (r.Covers (va + BitVec.ofNat 64 k)) &&
        decide (r.va.toNat + r.width < 2 ^ 64) with
    | some r => r.encoded image.endian ((va + BitVec.ofNat 64 k) - r.va).toNat
    | none => byte) := by
  have haddress := toNat_address hbound (Nat.le_of_lt hk)
  have hend := toNat_address hbound (Nat.le_refl size)
  induction rs generalizing out byte with
  | nil => exact hbyte
  | cons first rs ih =>
    obtain ⟨hfirst, hsorted⟩ := List.pairwise_cons.mp hsorted
    have hwidths := fun r hr => hwidth r (List.mem_cons_of_mem _ hr)
    have hwide := hwidth first (List.mem_cons_self ..)
    rw [overlay]
    split
    · -- The relocations from here on lie behind the range.
      rename_i hbehind
      rw [BitVec.le_def, hend] at hbehind
      have hnone : (first :: rs).reverse.find? (fun r =>
          decide (r.Covers (va + BitVec.ofNat 64 k)) &&
            decide (r.va.toNat + r.width < 2 ^ 64)) = none := by
        refine List.find?_eq_none.mpr fun r hr hcovers => ?_
        rw [Bool.and_eq_true, decide_eq_true_eq] at hcovers
        have hlow := hcovers.1.2.1
        rcases List.mem_cons.mp (List.mem_reverse.mp hr) with rfl | hr
        · omega
        · have hle := hfirst r hr
          rw [BitVec.le_def] at hle
          omega
      rw [hnone, hbyte]
    · rw [List.reverse_cons, List.find?_append]
      split
      · rename_i hskip
        have hnot : (decide (first.Covers (va + BitVec.ofNat 64 k)) &&
            decide (first.va.toNat + first.width < 2 ^ 64)) = false := by
          rw [Bool.eq_false_iff]
          intro hcovers
          rw [Bool.and_eq_true, decide_eq_true_eq, decide_eq_true_eq] at hcovers
          obtain ⟨⟨hvalue, hlow, hhigh⟩, hfits⟩ := hcovers
          have hexact := toNat_endVa hfits
          rcases hskip with hno | hzero | hbefore
          · rw [hvalue] at hno
            cases hno
          · omega
          · rw [BitVec.le_def] at hbefore
            omega
        rw [ih hsorted hwidths hbyte, List.find?_singleton, hnot]
        simp
      · rename_i hskip
        simp only [not_or, Bool.not_eq_false] at hskip
        by_cases hfits : first.va.toNat + first.width < 2 ^ 64
        · have hspliced := @getElem_splice image _ _ _ _ _ hbound hk hskip.1 _ hbyte
            fun _ => hfits
          rw [ih hsorted hwidths hspliced, List.find?_singleton, decide_eq_true hfits,
            Bool.and_true]
          cases hlater : rs.reverse.find? (fun r =>
              decide (r.Covers (va + BitVec.ofNat 64 k)) &&
                decide (r.va.toNat + r.width < 2 ^ 64)) with
          | some r => rfl
          | none =>
            by_cases hcovers : first.Covers (va + BitVec.ofNat 64 k)
            · simp [hcovers]
            · simp [hcovers]
        · have hsame : (image.splice va size first out)[k]? = some byte :=
            (getElem_splice_of_wraps hbound hwide (Nat.le_of_not_lt hfits) hk).trans hbyte
          rw [ih hsorted hwidths hsame, List.find?_singleton, decide_eq_false hfits,
            Bool.and_false]
          simp

/-- **Reading.**  What is read is byte after byte what a scan finds, but for relocations
that reach the end of the address space. -/
theorem read_eq_keptByte (hwidth : ∀ r ∈ image.relocationsByAddress, r.width < 2 ^ 32) (va : U64)
  (size : Nat) : image.read va size = readBytes image.keptByte va size := by
  have hmax : image.maxRelocationWidth < 2 ^ 64 :=
    Nat.lt_of_le_of_lt (maxRelocationWidth_le fun r hr => Nat.le_of_lt (hwidth r hr))
      (by decide : 2 ^ 32 < 2 ^ 64)
  cases hmapped : image.memory.read va size with
  | none =>
    rw [read, hmapped, Option.map_none]
    rw [MemoryMap.read_eq_readBytes] at hmapped
    obtain ⟨k, hk, hnone⟩ := readBytes_eq_none_iff.mp hmapped
    refine (readBytes_eq_none_iff.mpr ⟨k, hk, ?_⟩).symm
    rw [keptByte, byteUnder, hnone, Option.map_none]
  | some mapped =>
    have hlength := MemoryMap.length_read hmapped
    rw [read, hmapped, Option.map_some]
    refine (readBytes_eq_some_iff.mpr ⟨?_, fun k hk => ?_⟩).symm
    · split
      · exact hlength
      · split
        · exact hlength
        · rw [length_overlay, hlength]
    · have hbound := MemoryMap.bound_of_read hmapped (Nat.lt_of_le_of_lt (Nat.zero_le k) hk)
      have haddress := toNat_address hbound (Nat.le_of_lt hk)
      have hend := toNat_address hbound (Nat.le_refl size)
      have hbyte := MemoryMap.getElem_read hmapped hk
      have hlt : k < mapped.length := by rwa [hlength]
      have hsome := List.getElem?_eq_getElem hlt
      rw [keptByte, byteUnder, ← hbyte, hsome, Option.map_some, if_neg (Nat.ne_zero_of_lt hk)]
      by_cases houtside : image.highestRelocationEndVa ≤ va ∨
          va + BitVec.ofNat 64 size ≤ image.lowestRelocationVa
      · -- The range lies behind or before all relocations.
        have hnone : image.lastKept (va + BitVec.ofNat 64 k) = none := by
          refine List.find?_eq_none.mpr fun r hr hcovers => ?_
          have hr := List.mem_reverse.mp hr
          rw [Bool.and_eq_true, decide_eq_true_eq, decide_eq_true_eq] at hcovers
          obtain ⟨⟨-, hstart, hstop⟩, hfits⟩ := hcovers
          have hexact := toNat_endVa hfits
          have hhigh := endVa_le_highest hr
          have hlow := lowest_le hr
          simp only [BitVec.le_def] at houtside hhigh hlow
          omega
        rw [hnone, if_pos houtside, hsome]
      · rw [if_neg houtside]
        have hsub := (List.dropWhile_suffix (l := image.relocationsByAddress) fun r =>
          decide (r.va < image.lowestPossibleStart va)).sublist
        have hlast := @getElem_overlay_last image _ _ _ _ _ hbound hk
          (image.sorted.sublist hsub) (fun r hr => hwidth r (hsub.subset hr)) _ hsome
        rw [find?_reverse_dropWhile] at hlast
        · cases hkept : image.lastKept (va + BitVec.ofNat 64 k) with
          | none =>
            rw [lastKept] at hkept
            rw [hkept] at hlast
            exact hlast.symm
          | some r =>
            rw [lastKept] at hkept
            rw [hkept] at hlast
            exact hlast.symm
        · intro r hr
          have hstart := List.mem_takeWhile_imp hr
          rw [decide_eq_true_eq] at hstart
          have hbefore :=
            endVa_le_of_lt_lowest hmax ((List.takeWhile_sublist _).subset hr) hstart
          rw [Bool.eq_false_iff]
          intro hcovers
          rw [Bool.and_eq_true, decide_eq_true_eq] at hcovers
          have hhigh := hcovers.1.2.2
          omega

theorem isSome_keptByte_iff {a : U64} :
  (image.keptByte a).isSome = true ↔ (image.memory.byteAt a).isSome = true := by
  rw [keptByte, byteUnder, Option.isSome_map]

end BinaryImage

/-! ## Symbols -/

/-- What the index of symbols is sorted and searched by. -/
structure ImageSymbol where
  va : U64
  size : U64
  defined : Bool
  isFile : Bool
  exported : Bool
deriving DecidableEq

namespace ImageSymbol

/-- The order of the index: address, widest first, exported first. -/
def before (left right : ImageSymbol) : Bool :=
  if left.va ≠ right.va then decide (left.va < right.va)
  else if left.size ≠ right.size then decide (right.size < left.size)
  else left.exported && !right.exported

def indexed (s : ImageSymbol) : Bool := s.defined && !s.isFile

/-- The test of the walk. -/
def covers (s : ImageSymbol) (va : U64) : Bool :=
  s.size != 0#64 && decide (s.va ≤ va) && decide (va - s.va < s.size)

theorem covers_iff {s : ImageSymbol} {va : U64} :
  s.covers va = true ↔ s.va.toNat ≤ va.toNat ∧ va.toNat < s.va.toNat + s.size.toNat := by
  have hsub : s.va.toNat ≤ va.toNat → (va - s.va).toNat = va.toNat - s.va.toNat := by
    intro hle
    rw [BitVec.toNat_sub]
    omega
  simp only [covers, Bool.and_eq_true, bne_iff_ne, decide_eq_true_eq, BitVec.le_def,
    BitVec.lt_def]
  constructor
  · rintro ⟨⟨-, hle⟩, hlt⟩
    rw [hsub hle] at hlt
    omega
  · rintro ⟨hle, hlt⟩
    refine ⟨⟨fun hzero => ?_, hle⟩, ?_⟩
    · rw [hzero, BitVec.toNat_zero] at hlt
      omega
    · rw [hsub hle]
      omega

theorem va_le_of_not_before {a b : ImageSymbol} (h : before b a = false) : a.va ≤ b.va := by
  unfold before at h
  split at h
  · rw [decide_eq_false_iff_not, BitVec.lt_def] at h
    rw [BitVec.le_def]
    omega
  · rename_i hsame
    rw [not_not.mp hsame]
    exact BitVec.le_refl _

end ImageSymbol

/-- The symbols of an image and those with an address in order. -/
structure SymbolIndex where
  symbols : List ImageSymbol
  symbolsByAddress : List ImageSymbol
  perm : symbolsByAddress.Perm (symbols.filter ImageSymbol.indexed)
  sorted : symbolsByAddress.Pairwise fun a b => ImageSymbol.before b a = false

namespace SymbolIndex

/-- The loop of `symbolContaining`. -/
def narrowest (va lowest : U64) : List ImageSymbol → Option ImageSymbol → Option ImageSymbol
  | [], best => best
  | s :: rest, best =>
    if s.va < lowest then best
    else if s.covers va && best.all fun b => decide (s.size < b.size) then
      narrowest va lowest rest (some s)
    else narrowest va lowest rest best

variable (index : SymbolIndex)

def maxSymbolSize : U64 :=
  index.symbolsByAddress.foldl (fun high s => if high < s.size then s.size else high) 0#64

def symbolContaining (va : U64) : Option ImageSymbol :=
  narrowest va (if index.maxSymbolSize ≤ va then va - index.maxSymbolSize else 0#64)
    (index.symbolsByAddress.takeWhile fun s => decide (s.va ≤ va)).reverse none

/-- The narrowest of some symbols that cover the address, if any does. -/
def IsNarrowest (va : U64) (symbols : List ImageSymbol) : Option ImageSymbol → Prop
  | none => ∀ s ∈ symbols, s.covers va = false
  | some s => s ∈ symbols ∧ s.covers va = true ∧
      ∀ t ∈ symbols, t.covers va = true → s.size ≤ t.size

variable {va lowest : U64} {seen l : List ImageSymbol} {best : Option ImageSymbol}

/-- Symbols that do not cover the address change nothing. -/
theorem IsNarrowest.append (h : IsNarrowest va seen best) (hl : ∀ s ∈ l, s.covers va = false) :
  IsNarrowest va (seen ++ l) best := by
  cases best with
  | none =>
    intro s hs
    rcases List.mem_append.mp hs with hs | hs
    · exact h s hs
    · exact hl s hs
  | some b =>
    obtain ⟨hmem, hcovers, hleast⟩ := h
    refine ⟨List.mem_append_left _ hmem, hcovers, fun t ht htcovers => ?_⟩
    rcases List.mem_append.mp ht with ht | ht
    · exact hleast t ht htcovers
    · rw [hl t ht] at htcovers
      cases htcovers

/-- One more symbol. -/
theorem IsNarrowest.step {s : ImageSymbol} (h : IsNarrowest va seen best) :
  IsNarrowest va (seen ++ [s])
    (if s.covers va && best.all fun b => decide (s.size < b.size) then some s else best) := by
  split
  · rename_i htaken
    obtain ⟨hcovers, hless⟩ := Bool.and_eq_true_iff.mp htaken
    refine ⟨List.mem_append_right _ (List.mem_singleton_self s), hcovers, fun t ht htcovers => ?_⟩
    rcases List.mem_append.mp ht with ht | ht
    · cases best with
      | none =>
        rw [h t ht] at htcovers
        cases htcovers
      | some b =>
        have hle := h.2.2 t ht htcovers
        rw [Option.all_some, decide_eq_true_eq, BitVec.lt_def] at hless
        rw [BitVec.le_def] at hle ⊢
        omega
    · rw [List.mem_singleton.mp ht]
      exact BitVec.le_refl _
  · rename_i hleft
    by_cases hcovers : s.covers va = true
    · cases best with
      | none => exact absurd (by rw [hcovers]; rfl) hleft
      | some b =>
        rw [hcovers, Bool.true_and, Option.all_some, decide_eq_true_eq, BitVec.lt_def] at hleft
        obtain ⟨hmem, hbcovers, hleast⟩ := h
        refine ⟨List.mem_append_left _ hmem, hbcovers, fun t ht htcovers => ?_⟩
        rcases List.mem_append.mp ht with ht | ht
        · exact hleast t ht htcovers
        · rw [List.mem_singleton.mp ht, BitVec.le_def]
          omega
    · refine h.append fun t ht => ?_
      rw [List.mem_singleton.mp ht]
      exact Bool.eq_false_iff.mpr hcovers

theorem narrowest_spec (hsorted : l.Pairwise fun a b => b.va ≤ a.va)
  (hstop : ∀ s ∈ l, s.va < lowest → s.covers va = false) (h : IsNarrowest va seen best) :
  IsNarrowest va (seen ++ l) (narrowest va lowest l best) := by
  induction l generalizing seen best with
  | nil =>
    rw [List.append_nil]
    exact h
  | cons s l ih =>
    obtain ⟨hfirst, hsorted⟩ := List.pairwise_cons.mp hsorted
    have hstopRest := fun t ht => hstop t (List.mem_cons_of_mem _ ht)
    rw [narrowest]
    split
    · rename_i hlow
      refine h.append fun t ht => hstop t ht ?_
      rcases List.mem_cons.mp ht with rfl | ht
      · exact hlow
      · have hle := hfirst t ht
        rw [BitVec.le_def] at hle
        rw [BitVec.lt_def] at hlow ⊢
        omega
    · have hnext := ih hsorted hstopRest (h.step (s := s))
      rw [List.append_assoc, List.singleton_append] at hnext
      split
      · rename_i htaken
        rwa [if_pos htaken] at hnext
      · rename_i hleft
        rwa [if_neg hleft] at hnext

theorem size_le_max {s : ImageSymbol} (hs : s ∈ index.symbolsByAddress) :
  s.size ≤ index.maxSymbolSize := by
  have hfold : ∀ (l : List ImageSymbol) (high : U64),
      high ≤ l.foldl (fun high s => if high < s.size then s.size else high) high ∧
      ∀ s ∈ l, s.size ≤ l.foldl (fun high s => if high < s.size then s.size else high) high := by
    intro l
    induction l with
    | nil => exact fun high => ⟨BitVec.le_refl _, fun s hs => nomatch hs⟩
    | cons first l ih =>
      intro high
      rw [List.foldl_cons]
      obtain ⟨hstart, hrest⟩ := ih (if high < first.size then first.size else high)
      have hboth : high ≤ (if high < first.size then first.size else high) ∧
          first.size ≤ (if high < first.size then first.size else high) := by
        split <;> simp only [BitVec.le_def, BitVec.lt_def] at * <;> omega
      refine ⟨BitVec.le_trans hboth.1 hstart, fun s hs => ?_⟩
      rcases List.mem_cons.mp hs with rfl | hs
      · exact BitVec.le_trans hboth.2 hstart
      · exact hrest s hs
  exact (hfold _ _).2 s hs

/-- **Symbols.**  The narrowest of all symbols that cover the address. -/
theorem symbolContaining_isNarrowest (va : U64) :
  IsNarrowest va (index.symbols.filter ImageSymbol.indexed) (index.symbolContaining va) := by
  have hsorted : index.symbolsByAddress.Pairwise fun a b => a.va ≤ b.va :=
    index.sorted.imp ImageSymbol.va_le_of_not_before
  have hwalk : IsNarrowest va
      ([] ++ (index.symbolsByAddress.takeWhile fun s => decide (s.va ≤ va)).reverse)
      (index.symbolContaining va) := by
    refine narrowest_spec ?_ ?_ (fun s hs => nomatch hs)
    · rw [List.pairwise_reverse]
      exact hsorted.sublist (List.takeWhile_sublist _)
    · intro s hs hlow
      have hmem := (List.takeWhile_sublist _).subset (List.mem_reverse.mp hs)
      have hmax := index.size_le_max hmem
      rw [Bool.eq_false_iff]
      intro hcovers
      obtain ⟨hle, hlt⟩ := ImageSymbol.covers_iff.mp hcovers
      rw [BitVec.le_def] at hmax
      split at hlow
      · rename_i hfar
        rw [BitVec.le_def] at hfar
        rw [BitVec.lt_def, BitVec.toNat_sub] at hlow
        omega
      · exact BitVec.not_lt_zero hlow
  rw [List.nil_append] at hwalk
  -- Those behind the address do not cover it.
  have hbehind : ∀ s ∈ index.symbolsByAddress,
      s.covers va = true → s ∈ index.symbolsByAddress.takeWhile fun s => decide (s.va ≤ va) := by
    intro s hs hcovers
    have hsplit := List.takeWhile_append_dropWhile (p := fun s => decide (s.va ≤ va))
      (l := index.symbolsByAddress)
    rw [← hsplit] at hs
    rcases List.mem_append.mp hs with hs | hs
    · exact hs
    · have hnot := not_of_mem_dropWhile (hsorted.imp fun {a b} hle hb => by
        rw [decide_eq_true_eq] at hb ⊢
        exact BitVec.le_trans hle hb) hs
      rw [decide_eq_false_iff_not, BitVec.le_def] at hnot
      exact absurd (ImageSymbol.covers_iff.mp hcovers).1 hnot
  cases hfound : index.symbolContaining va with
  | none =>
    rw [hfound] at hwalk
    intro s hs
    rw [Bool.eq_false_iff]
    intro hcovers
    have hmem := hbehind s (index.perm.mem_iff.mpr hs) hcovers
    have hnot := hwalk s (List.mem_reverse.mpr hmem)
    rw [hnot] at hcovers
    cases hcovers
  | some best =>
    rw [hfound] at hwalk
    obtain ⟨hmem, hcovers, hleast⟩ := hwalk
    refine ⟨?_, hcovers, fun t ht htcovers => ?_⟩
    · exact index.perm.mem_iff.mp
        ((List.takeWhile_sublist _).subset (List.mem_reverse.mp hmem))
    · exact hleast t
        (List.mem_reverse.mpr (hbehind t (index.perm.mem_iff.mpr ht) htcovers)) htcovers

end SymbolIndex

/-! ## The queries -/

namespace BinaryImage

open SymbolIndex in
/-- **Queries and scans.**  Reading is compositional and fails where a byte is not
mapped; regions and symbols are those of a scan.  What is read is what a scan reads
where no byte is last covered by a relocation that reaches the end of the address space
and differs there, and an overlapping relocation is found where one overlaps whose end,
and the end of the range, do not wrap. -/
theorem queries_exact (image : BinaryImage) (index : SymbolIndex)
    (hfile : image.memory.backing.length < 2 ^ 64)
    (hwidth : ∀ r ∈ image.relocationsByAddress, 1 ≤ r.width ∧ r.width ≤ 8) :
    (∀ (va : U64) (n m : Nat), image.read va (n + m) = do
      let front ← image.read va n
      let back ← image.read (va + BitVec.ofNat 64 n) m
      return front ++ back) ∧
    (∀ (va : U64) (n : Nat), image.memory.readRegions va n = image.memory.read va n) ∧
    (∀ (va : U64) (n : Nat), image.read va n = none ↔
      ∃ k < n, ∀ region ∈ image.memory.regions,
        region.contains (va + BitVec.ofNat 64 k) = false) ∧
    (∀ va : U64,
      image.memory.regionAt va = image.memory.regions.find? fun region => region.contains va) ∧
    (∀ va : U64, IsNarrowest va (index.symbols.filter ImageSymbol.indexed)
      (index.symbolContaining va)) ∧
    (∀ (va : U64) (n : Nat), image.read va n = readBytes image.scanByte va n ↔
      ((∀ k < n, (image.memory.byteAt (va + BitVec.ofNat 64 k)).isSome = true) →
        ∀ k < n, image.scanByte (va + BitVec.ofNat 64 k) =
          image.keptByte (va + BitVec.ofNat 64 k))) ∧
    (∀ (va size : U64) (r : Relocation), image.relocationOverlapping va size = some r →
      r ∈ image.relocationsByAddress ∧ r.Overlaps va size) ∧
    ∀ va size : U64,
      ((image.relocationOverlapping va size).isSome = true ↔
          ∃ r ∈ image.relocationsByAddress, r.Overlaps va size) ↔
        ((∃ r ∈ image.relocationsByAddress, r.Overlaps va size) →
          ∃ r ∈ image.relocationsByAddress, r.reaches va size = true) := by
  have hwide : ∀ r ∈ image.relocationsByAddress, r.width < 2 ^ 32 := fun r hr =>
    Nat.lt_of_le_of_lt (hwidth r hr).2 (by decide)
  have hmax : image.maxRelocationWidth < 2 ^ 64 :=
    Nat.lt_of_le_of_lt (maxRelocationWidth_le fun r hr => (hwidth r hr).2) (by decide)
  have hread := fun va n => @read_eq_keptByte image hwide va n
  refine ⟨fun va n m => ?_, fun va n => MemoryMap.readRegions_eq hfile va n, fun va n => ?_,
    image.memory.regionAt_eq_scan, index.symbolContaining_isNarrowest, fun va n => ?_,
    fun va size r hfound => ?_, fun va size => ?_⟩
  · simp only [hread]
    exact readBytes_append _ va n m
  · rw [hread, readBytes_eq_none_iff]
    refine exists_congr fun k => and_congr_right fun _ => ?_
    rw [← Option.not_isSome_iff_eq_none, isSome_keptByte_iff, Option.not_isSome_iff_eq_none,
      MemoryMap.byteAt, Option.map_eq_none_iff, MemoryMap.regionAt_eq_scan, List.find?_eq_none]
    simp only [Bool.not_eq_true]
  · rw [hread]
    have hmapped : ∀ relocation a, (image.byteUnder relocation a).isSome = true ↔
        (image.memory.byteAt a).isSome = true := by
      intro relocation a
      rw [byteUnder, Option.isSome_map]
    constructor
    · intro hsame hall k hk
      cases hbytes : readBytes image.keptByte va n with
      | none =>
        obtain ⟨j, hj, hnone⟩ := readBytes_eq_none_iff.mp hbytes
        have hsome := isSome_keptByte_iff.mpr (hall j hj)
        rw [hnone] at hsome
        cases hsome
      | some bytes =>
        have hkept := (readBytes_eq_some_iff.mp hbytes).2 k hk
        rw [hbytes] at hsame
        have hscan := (readBytes_eq_some_iff.mp hsame.symm).2 k hk
        rw [hscan, hkept]
    · intro hsame
      by_cases hall : ∀ k < n, (image.memory.byteAt (va + BitVec.ofNat 64 k)).isSome = true
      · have heq := hsame hall
        cases hbytes : readBytes image.keptByte va n with
        | none =>
          obtain ⟨j, hj, hnone⟩ := readBytes_eq_none_iff.mp hbytes
          exact (readBytes_eq_none_iff.mpr ⟨j, hj, (heq j hj).trans hnone⟩).symm
        | some bytes =>
          obtain ⟨hlength, hat⟩ := readBytes_eq_some_iff.mp hbytes
          exact (readBytes_eq_some_iff.mpr
            ⟨hlength, fun k hk => (heq k hk).trans (hat k hk)⟩).symm
      · -- Where a byte is not mapped both fail.
        simp only [not_forall] at hall
        obtain ⟨k, hk, hnone⟩ := hall
        have hfails : ∀ relocation, image.byteUnder relocation (va + BitVec.ofNat 64 k) = none :=
          fun relocation => Option.not_isSome_iff_eq_none.mp
            fun hsome => hnone ((hmapped _ _).mp hsome)
        have hkept : readBytes image.keptByte va n = none :=
          readBytes_eq_none_iff.mpr ⟨k, hk, hfails _⟩
        have hscan : readBytes image.scanByte va n = none :=
          readBytes_eq_none_iff.mpr ⟨k, hk, hfails _⟩
        rw [hkept, hscan]
  · rw [relocationOverlapping_eq hmax] at hfound
    split at hfound
    · cases hfound
    · rename_i hsize
      have hreaches := List.find?_some hfound
      exact ⟨List.mem_reverse.mp (List.mem_of_find?_eq_some hfound),
        overlaps_of_reaches hsize hreaches⟩
  · rw [relocationOverlapping_isSome_iff hmax]
    constructor
    · exact fun hsame hoverlap => (hsame.mpr hoverlap).2
    · intro hreach
      constructor
      · rintro ⟨hsize, r, hr, hreaches⟩
        exact ⟨r, hr, overlaps_of_reaches hsize hreaches⟩
      · intro hoverlap
        refine ⟨fun hzero => ?_, hreach hoverlap⟩
        obtain ⟨r, -, hpos, -⟩ := hoverlap
        rw [hzero, BitVec.toNat_zero] at hpos
        exact Nat.lt_irrefl 0 hpos

/-- Fourteen zeros below the end of the address space, and a pointer over the last of
them that ends at it. -/
def endImage : BinaryImage where
  memory := ⟨[], [⟨0xfffffffffffffff0#64, 14#64, 0#64, 0#64⟩], by decide, by simp⟩
  endian := .little
  relocationsByAddress :=
    [{ Relocation.unresolved with
        va := 0xfffffffffffffff8#64
        kind := .relative
        value := 0x1122334455667788#64
        hasValue := true }]
  sorted := List.pairwise_singleton ..

/-- The pointer is not read and not found. -/
theorem relocation_at_end_missed :
    endImage.read 0xfffffffffffffff8#64 4 = some [0#8, 0#8, 0#8, 0#8] ∧
      readBytes endImage.scanByte 0xfffffffffffffff8#64 4 =
        some [0x88#8, 0x77#8, 0x66#8, 0x55#8] ∧
      endImage.relocationOverlapping 0xfffffffffffffff8#64 4#64 = none ∧
      (∃ r ∈ endImage.relocationsByAddress, r.Overlaps 0xfffffffffffffff8#64 4#64) := by
  refine ⟨by decide, by decide, by decide, _, List.mem_singleton.mpr rfl, ?_⟩
  unfold Relocation.Overlaps
  decide

def emptyIndex : SymbolIndex := ⟨[], [], .nil, .nil⟩

/-- Before the pointer the image reads as a scan does. -/
theorem queries_exact_endImage :
    endImage.read 0xfffffffffffffff0#64 4 =
      readBytes endImage.scanByte 0xfffffffffffffff0#64 4 := by
  have hwidth : ∀ r ∈ endImage.relocationsByAddress, 1 ≤ r.width ∧ r.width ≤ 8 := by decide
  obtain ⟨-, -, -, -, -, hread, -⟩ := queries_exact endImage emptyIndex (by decide) hwidth
  exact (hread 0xfffffffffffffff0#64 4).mpr fun _ => by decide

end BinaryImage

end Xdec

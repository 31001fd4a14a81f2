import Xdec.ElfRelocations

/-!
# Reading an image

`BinaryImage::read` overlays the values of relocations on the mapped bytes.  It
walks the relocations in address order, from the first that can still reach the
range to the first behind it.

Where no two relocations fill one byte the order does not matter:
`getElem_read` says which byte each address has.
-/

namespace Xdec

namespace Relocation

variable (r : Relocation)

def endVa : U64 := r.va + BitVec.ofNat 64 r.width

/-- Byte `index` of a value as it is stored. -/
def encodedByte (endian : Endian) (width : Nat) (value : U64) (index : Nat) : BitVec 8 :=
  let shift := match endian with
    | .little => index * 8
    | .big => (width - 1 - index) * 8
  (value >>> shift).setWidth 8

def encoded (endian : Endian) (index : Nat) : BitVec 8 :=
  let width := min r.width 8
  if index < width then encodedByte endian width r.value index else 0#8

/-- The relocation fills the byte at the address. -/
def Covers (address : U64) : Prop :=
  r.hasValue = true ∧ r.va.toNat ≤ address.toNat ∧ address.toNat < r.va.toNat + r.width

instance (address : U64) : Decidable (r.Covers address) :=
  inferInstanceAs (Decidable (_ ∧ _ ∧ _))

end Relocation

structure BinaryImage where
  memory : MemoryMap
  endian : Endian
  /-- Sorted, in whatever order those of one address are. -/
  relocationsByAddress : List Relocation
  sorted : relocationsByAddress.Pairwise fun a b => a.va ≤ b.va

namespace BinaryImage

variable (image : BinaryImage)

def lowestRelocationVa : U64 := (image.relocationsByAddress.head?.map Relocation.va).getD 0#64

def highestRelocationEndVa : U64 :=
  image.relocationsByAddress.foldl (fun high r => if high < r.endVa then r.endVa else high) 0#64

def maxRelocationWidth : Nat :=
  image.relocationsByAddress.foldl (fun wide r => max wide r.width) 0

/-- The part of a relocated value that falls into the range is copied over. -/
def splice (va : U64) (size : Nat) (r : Relocation) (out : List (BitVec 8)) : List (BitVec 8) :=
  let copyStart := if va < r.va then r.va else va
  let copyEnd :=
    if r.endVa < va + BitVec.ofNat 64 size then r.endVa else va + BitVec.ofNat 64 size
  out.mapIdx fun k byte =>
    let address := va + BitVec.ofNat 64 k
    if copyStart ≤ address ∧ address < copyEnd then
      r.encoded image.endian (address - r.va).toNat
    else byte

def overlay (va : U64) (size : Nat) : List Relocation → List (BitVec 8) → List (BitVec 8)
  | [], out => out
  | r :: rs, out =>
    if va + BitVec.ofNat 64 size ≤ r.va then out
    else if r.hasValue = false ∨ r.width = 0 ∨ r.endVa ≤ va then overlay va size rs out
    else overlay va size rs (image.splice va size r out)

def read (va : U64) (size : Nat) : Option (List (BitVec 8)) :=
  (image.memory.read va size).map fun out =>
    if size = 0 then out
    else if image.highestRelocationEndVa ≤ va ∨
        va + BitVec.ofNat 64 size ≤ image.lowestRelocationVa then out
    else
      let searchStart :=
        if BitVec.ofNat 64 image.maxRelocationWidth ≤ va then
          va - BitVec.ofNat 64 image.maxRelocationWidth
        else 0#64
      image.overlay va size
        (image.relocationsByAddress.dropWhile fun r => decide (r.va < searchStart)) out

end BinaryImage

/-! ## What is read -/

namespace BinaryImage

variable {image : BinaryImage} {va : U64} {size k : Nat} {out : List (BitVec 8)}
  {rs : List Relocation} {r : Relocation}

theorem toNat_address (hbound : va.toNat + size < 2 ^ 64) (hk : k ≤ size) :
  (va + BitVec.ofNat 64 k).toNat = va.toNat + k := by
  rw [BitVec.toNat_add, BitVec.toNat_ofNat]
  omega

theorem toNat_endVa (h : r.va.toNat + r.width < 2 ^ 64) : r.endVa.toNat = r.va.toNat + r.width := by
  rw [Relocation.endVa, BitVec.toNat_add, BitVec.toNat_ofNat]
  omega

theorem toNat_endVa_le : r.endVa.toNat ≤ r.va.toNat + r.width := by
  rw [Relocation.endVa, BitVec.toNat_add, BitVec.toNat_ofNat]
  omega

/-- A splice changes the bytes its relocation covers. -/
theorem getElem_splice (hbound : va.toNat + size < 2 ^ 64) (hk : k < size)
  (hvalue : r.hasValue = true) {byte : BitVec 8} (hbyte : out[k]? = some byte)
  (hfits : r.Covers (va + BitVec.ofNat 64 k) → r.va.toNat + r.width < 2 ^ 64) :
  (image.splice va size r out)[k]? = some
    (if r.Covers (va + BitVec.ofNat 64 k) then
      r.encoded image.endian ((va + BitVec.ofNat 64 k) - r.va).toNat
    else byte) := by
  have haddress := toNat_address hbound (Nat.le_of_lt hk)
  have hend := toNat_address hbound (Nat.le_refl size)
  have hiff : ((if va < r.va then r.va else va) ≤ va + BitVec.ofNat 64 k ∧
      va + BitVec.ofNat 64 k <
        if r.endVa < va + BitVec.ofNat 64 size then r.endVa else va + BitVec.ofNat 64 size) ↔
      r.Covers (va + BitVec.ofNat 64 k) := by
    unfold Relocation.Covers at hfits ⊢
    have hle := toNat_endVa_le (r := r)
    constructor
    · rintro ⟨hstart, hstop⟩
      split at hstart <;> split at hstop <;> simp only [BitVec.le_def, BitVec.lt_def] at * <;>
        refine ⟨hvalue, ?_, ?_⟩ <;> omega
    · intro hcovers
      have hexact := toNat_endVa (hfits hcovers)
      obtain ⟨-, hlow, hhigh⟩ := hcovers
      constructor <;> split <;> simp only [BitVec.le_def, BitVec.lt_def] at * <;> omega
  unfold splice
  rw [List.getElem?_mapIdx, hbyte, Option.map_some]
  simp only [hiff]

theorem mem_dropWhile_of_false {α : Type} {p : α → Bool} {l : List α} {a : α} (ha : a ∈ l)
  (hp : p a = false) : a ∈ l.dropWhile p := by
  have hsplit := List.takeWhile_append_dropWhile (p := p) (l := l)
  rw [← hsplit] at ha
  rcases List.mem_append.mp ha with htaken | hdropped
  · rw [List.mem_takeWhile_imp htaken] at hp
    cases hp
  · exact hdropped

/-- **Overlays.**  With at most one relocation for a byte, the byte is that of the
relocation, and what was there without one. -/
theorem getElem_overlay (hbound : va.toNat + size < 2 ^ 64) (hk : k < size)
  (hsorted : rs.Pairwise fun a b => a.va ≤ b.va)
  (hfits : ∀ r ∈ rs, r.Covers (va + BitVec.ofNat 64 k) → r.va.toNat + r.width < 2 ^ 64)
  (hone : ∀ r ∈ rs, ∀ r' ∈ rs, r.Covers (va + BitVec.ofNat 64 k) →
    r'.Covers (va + BitVec.ofNat 64 k) → r = r')
  {byte : BitVec 8} (hbyte : out[k]? = some byte) :
  ((∀ r ∈ rs, ¬ r.Covers (va + BitVec.ofNat 64 k)) →
    (image.overlay va size rs out)[k]? = some byte) ∧
  ∀ r ∈ rs, r.Covers (va + BitVec.ofNat 64 k) →
    (image.overlay va size rs out)[k]? =
      some (r.encoded image.endian ((va + BitVec.ofNat 64 k) - r.va).toNat) := by
  have haddress := toNat_address hbound (Nat.le_of_lt hk)
  have hend := toNat_address hbound (Nat.le_refl size)
  induction rs generalizing out byte with
  | nil => exact ⟨fun _ => hbyte, fun r hr => nomatch hr⟩
  | cons first rs ih =>
    obtain ⟨hfirst, hsorted⟩ := List.pairwise_cons.mp hsorted
    have hfitsRest := fun r hr => hfits r (List.mem_cons_of_mem _ hr)
    have honeRest := fun r hr r' hr' =>
      hone r (List.mem_cons_of_mem _ hr) r' (List.mem_cons_of_mem _ hr')
    have hmem : first ∈ first :: rs := List.mem_cons_self ..
    rw [overlay]
    split
    · -- The relocations from here on lie behind the range.
      rename_i hbehind
      have hnone : ∀ r ∈ first :: rs, ¬ r.Covers (va + BitVec.ofNat 64 k) := by
        intro r hr hcovers
        have hle : first.va ≤ r.va := by
          rcases List.mem_cons.mp hr with rfl | hr
          · exact BitVec.le_refl _
          · exact hfirst r hr
        have hlow := hcovers.2.1
        rw [BitVec.le_def] at hle hbehind
        omega
      exact ⟨fun _ => hbyte, fun r hr hcovers => absurd hcovers (hnone r hr)⟩
    · split
      · rename_i hskip
        have hnot : ¬ first.Covers (va + BitVec.ofNat 64 k) := by
          intro hcovers
          have hexact := toNat_endVa (hfits first hmem hcovers)
          obtain ⟨hvalue, hlow, hhigh⟩ := hcovers
          rcases hskip with hno | hzero | hbefore
          · rw [hvalue] at hno
            cases hno
          · omega
          · rw [BitVec.le_def] at hbefore
            omega
        obtain ⟨hkeeps, htakes⟩ := ih hsorted hfitsRest honeRest hbyte
        refine ⟨fun hnone => hkeeps fun r hr => hnone r (List.mem_cons_of_mem _ hr), ?_⟩
        intro r hr hcovers
        rcases List.mem_cons.mp hr with rfl | hr
        · exact absurd hcovers hnot
        · exact htakes r hr hcovers
      · rename_i hskip
        simp only [not_or, Bool.not_eq_false] at hskip
        have hspliced := @getElem_splice image _ _ _ _ _ hbound hk hskip.1 _ hbyte
          (hfits first hmem)
        obtain ⟨hkeeps, htakes⟩ := ih hsorted hfitsRest honeRest hspliced
        constructor
        · intro hnone
          rw [hkeeps fun r hr => hnone r (List.mem_cons_of_mem _ hr),
            if_neg (hnone first hmem)]
        · intro r hr hcovers
          by_cases hlater : ∃ r' ∈ rs, r'.Covers (va + BitVec.ofNat 64 k)
          · obtain ⟨r', hr', hcovers'⟩ := hlater
            rw [htakes r' hr' hcovers',
              hone r hr r' (List.mem_cons_of_mem _ hr') hcovers hcovers']
          · have hno : ∀ r' ∈ rs, ¬ r'.Covers (va + BitVec.ofNat 64 k) :=
              fun r' hr' hcovers' => hlater ⟨r', hr', hcovers'⟩
            rcases List.mem_cons.mp hr with rfl | hr
            · rw [hkeeps hno, if_pos hcovers]
            · exact absurd hcovers (hno r hr)

theorem endVa_le_highest (hr : r ∈ image.relocationsByAddress) :
  r.endVa ≤ image.highestRelocationEndVa := by
  have hfold : ∀ (l : List Relocation) (high : U64),
      high ≤ l.foldl (fun high r => if high < r.endVa then r.endVa else high) high ∧
      ∀ r ∈ l, r.endVa ≤ l.foldl (fun high r => if high < r.endVa then r.endVa else high) high := by
    intro l
    induction l with
    | nil => exact fun high => ⟨BitVec.le_refl _, fun r hr => nomatch hr⟩
    | cons first l ih =>
      intro high
      rw [List.foldl_cons]
      obtain ⟨hstart, hrest⟩ := ih (if high < first.endVa then first.endVa else high)
      have hboth : high ≤ (if high < first.endVa then first.endVa else high) ∧
          first.endVa ≤ (if high < first.endVa then first.endVa else high) := by
        split <;> simp only [BitVec.le_def, BitVec.lt_def] at * <;> omega
      refine ⟨BitVec.le_trans hboth.1 hstart, fun r hr => ?_⟩
      rcases List.mem_cons.mp hr with rfl | hr
      · exact BitVec.le_trans hboth.2 hstart
      · exact hrest r hr
  exact (hfold _ _).2 r hr

theorem width_le_max (hr : r ∈ image.relocationsByAddress) :
  r.width ≤ image.maxRelocationWidth := by
  have hfold : ∀ (l : List Relocation) (wide : Nat),
      wide ≤ l.foldl (fun wide r => max wide r.width) wide ∧
      ∀ r ∈ l, r.width ≤ l.foldl (fun wide r => max wide r.width) wide := by
    intro l
    induction l with
    | nil => exact fun wide => ⟨Nat.le_refl _, fun r hr => nomatch hr⟩
    | cons first l ih =>
      intro wide
      rw [List.foldl_cons]
      obtain ⟨hstart, hrest⟩ := ih (max wide first.width)
      refine ⟨Nat.le_trans (Nat.le_max_left ..) hstart, fun r hr => ?_⟩
      rcases List.mem_cons.mp hr with rfl | hr
      · exact Nat.le_trans (Nat.le_max_right ..) hstart
      · exact hrest r hr
  exact (hfold _ _).2 r hr

theorem maxRelocationWidth_le {n : Nat} (h : ∀ r ∈ image.relocationsByAddress, r.width ≤ n) :
  image.maxRelocationWidth ≤ n := by
  have hfold : ∀ (l : List Relocation) (wide : Nat), wide ≤ n → (∀ r ∈ l, r.width ≤ n) →
      l.foldl (fun wide r => max wide r.width) wide ≤ n := by
    intro l
    induction l with
    | nil => exact fun wide hwide _ => hwide
    | cons first l ih =>
      intro wide hwide hl
      rw [List.foldl_cons]
      exact ih _ (Nat.max_le.mpr ⟨hwide, hl first (List.mem_cons_self ..)⟩)
        fun r hr => hl r (List.mem_cons_of_mem _ hr)
  exact hfold _ 0 (Nat.zero_le n) h

theorem lowest_le (hr : r ∈ image.relocationsByAddress) : image.lowestRelocationVa ≤ r.va := by
  have hsorted := image.sorted
  unfold lowestRelocationVa
  cases hlist : image.relocationsByAddress with
  | nil =>
    rw [hlist] at hr
    cases hr
  | cons first rs =>
    rw [hlist] at hr hsorted
    rw [List.head?_cons, Option.map_some, Option.getD_some]
    rcases List.mem_cons.mp hr with rfl | hr
    · exact BitVec.le_refl _
    · exact (List.pairwise_cons.mp hsorted).1 r hr

/-- **Reading.**  A byte that is read is that of the relocation that covers its
address, and the mapped byte where none does. -/
theorem getElem_read (hread : image.read va size = some out) (hk : k < size)
  (hwidth : image.maxRelocationWidth < 2 ^ 64)
  (hfits : ∀ r ∈ image.relocationsByAddress, r.Covers (va + BitVec.ofNat 64 k) →
    r.va.toNat + r.width < 2 ^ 64)
  (hone : ∀ r ∈ image.relocationsByAddress, ∀ r' ∈ image.relocationsByAddress,
    r.Covers (va + BitVec.ofNat 64 k) → r'.Covers (va + BitVec.ofNat 64 k) → r = r') :
  ((∀ r ∈ image.relocationsByAddress, ¬ r.Covers (va + BitVec.ofNat 64 k)) →
    out[k]? = image.memory.byteAt (va + BitVec.ofNat 64 k)) ∧
  ∀ r ∈ image.relocationsByAddress, r.Covers (va + BitVec.ofNat 64 k) →
    out[k]? = some (r.encoded image.endian ((va + BitVec.ofNat 64 k) - r.va).toNat) := by
  obtain ⟨mapped, hmapped, hout⟩ := Option.map_eq_some_iff.mp hread
  have hbound := MemoryMap.bound_of_read hmapped (Nat.lt_of_le_of_lt (Nat.zero_le k) hk)
  have haddress := toNat_address hbound (Nat.le_of_lt hk)
  have hend := toNat_address hbound (Nat.le_refl size)
  have hbyte := MemoryMap.getElem_read hmapped hk
  have hlt : k < mapped.length := by rwa [MemoryMap.length_read hmapped]
  obtain ⟨byte, hsome⟩ : ∃ byte, mapped[k]? = some byte := ⟨_, List.getElem?_eq_getElem hlt⟩
  rw [if_neg (Nat.ne_zero_of_lt hk)] at hout
  split at hout
  · -- The range lies behind or before all relocations.
    rename_i houtside
    subst hout
    have hnone : ∀ r ∈ image.relocationsByAddress, ¬ r.Covers (va + BitVec.ofNat 64 k) := by
      intro r hr hcovers
      have hexact := toNat_endVa (hfits r hr hcovers)
      have hhigh := endVa_le_highest hr
      have hlow := lowest_le hr
      obtain ⟨-, hstart, hstop⟩ := hcovers
      simp only [BitVec.le_def] at houtside hhigh hlow
      omega
    exact ⟨fun _ => hbyte, fun r hr hcovers => absurd hcovers (hnone r hr)⟩
  · subst hout
    have hsub := (List.dropWhile_suffix (l := image.relocationsByAddress) fun r =>
      decide (r.va < if BitVec.ofNat 64 image.maxRelocationWidth ≤ va then
        va - BitVec.ofNat 64 image.maxRelocationWidth else 0#64)).sublist
    obtain ⟨hkeeps, htakes⟩ := @getElem_overlay image _ _ _ _ _ hbound hk
      (image.sorted.sublist hsub) (fun r hr => hfits r (hsub.subset hr))
      (fun r hr r' hr' => hone r (hsub.subset hr) r' (hsub.subset hr')) _ hsome
    refine ⟨fun hnone => ?_, fun r hr hcovers => ?_⟩
    · rw [hkeeps fun r hr => hnone r (hsub.subset hr), ← hsome, hbyte]
    · refine htakes r ?_ hcovers
      refine mem_dropWhile_of_false hr ?_
      have hmax := width_le_max hr
      obtain ⟨-, hstart, hstop⟩ := hcovers
      rw [decide_eq_false_iff_not]
      split
      · rename_i hle
        rw [BitVec.le_def, BitVec.toNat_ofNat] at hle
        rw [BitVec.lt_def, BitVec.toNat_sub, BitVec.toNat_ofNat]
        omega
      · exact BitVec.not_lt_zero

end BinaryImage

end Xdec

import Xdec.ElfRelocations

/-!
# The encoding of relative relocations

`relrEncode` is the encoding of the format: an address, then bitmaps for as long as
the next address lies in the window that a bitmap covers.  Decoding undoes it
(`relrSlots_encode`), and every bitmap of any table moves the cursor by its window and
names the slots of its bits (`relrSlots_bitmap`).
-/

namespace Xdec

/-! ## Encoding -/

/-- The addresses a bitmap of words of the size covers. -/
def relrWindow (size : Nat) : Nat := (size * 8 - 1) * size

def relrBitmap (bitmap : U64) : U64 := bitmap <<< 1 ||| 1#64

/-- The words for the addresses behind a base, with the bits already in the bitmap. -/
def relrEncodeFrom (size base : Nat) (bitmap : U64) : List Nat → List U64
  | [] => if bitmap = 0#64 then [] else [relrBitmap bitmap]
  | address :: rest =>
    if address - base < relrWindow size then
      relrEncodeFrom size base (bitmap ||| 1#64 <<< ((address - base) / size)) rest
    else if bitmap = 0#64 then
      BitVec.ofNat 64 address :: relrEncodeFrom size (address + size) 0#64 rest
    else
      -- The bitmap is full; the next window may cover the address.
      let next := base + relrWindow size
      relrBitmap bitmap ::
        if address - next < relrWindow size then
          relrEncodeFrom size next (1#64 <<< ((address - next) / size)) rest
        else BitVec.ofNat 64 address :: relrEncodeFrom size (address + size) 0#64 rest

def relrEncode (size : Nat) : List Nat → List U64
  | [] => []
  | address :: rest =>
    BitVec.ofNat 64 address :: relrEncodeFrom size (address + size) 0#64 rest

/-! ## Bitmaps -/

/-- Where only smaller numbers are kept, one more is kept behind them. -/
theorem filter_range_insert {p p' : Nat → Bool} {n k : Nat} (hk : k < n)
  (hp : ∀ j, p j = true → j < k) (hp' : ∀ j, j < n → p' j = (p j || j == k)) :
  (List.range n).filter p' = (List.range n).filter p ++ [k] := by
  induction n with
  | zero => exact absurd hk (Nat.not_lt_zero k)
  | succ n ih =>
    rw [List.range_succ, List.filter_append, List.filter_append]
    have hlast := hp' n (Nat.lt_succ_self n)
    rcases Nat.lt_succ_iff_lt_or_eq.mp hk with hlt | rfl
    · have hnot : p n = false := by
        rw [Bool.eq_false_iff]
        exact fun hn => absurd (hp n hn) (by omega)
      have hne : (n == k) = false := beq_false_of_ne (by omega)
      have hnot' : p' n = false := by rw [hlast, hnot, hne]; rfl
      rw [ih hlt fun j hj => hp' j (Nat.lt_succ_of_lt hj)]
      simp [hnot, hnot']
    · have hnot : p k = false := by
        rw [Bool.eq_false_iff]
        exact fun hn => absurd (hp k hn) (Nat.lt_irrefl k)
      have hfront : (List.range k).filter p' = (List.range k).filter p := by
        refine List.filter_congr fun j hj => ?_
        have hjk := List.mem_range.mp hj
        have hne : (j == k) = false := beq_false_of_ne (by omega)
        rw [hp' j (Nat.lt_succ_of_lt hjk), hne, Bool.or_false]
      have htaken : p' k = true := by rw [hlast, beq_self_eq_true, Bool.or_true]
      rw [hfront]
      simp [hnot, htaken]

theorem getLsbD_setBit (bitmap : U64) {k j : Nat} (hk : k < 64) :
  (bitmap ||| 1#64 <<< k).getLsbD j = (bitmap.getLsbD j || j == k) := by
  rw [BitVec.getLsbD_or, BitVec.getLsbD_shiftLeft, BitVec.getLsbD_one]
  by_cases hj : j = k
  · subst hj
    simp [hk]
  · have hne : (j == k) = false := beq_false_of_ne hj
    by_cases hlt : j < k
    · simp [hlt, hne]
    · have hsub : j - k ≠ 0 := by omega
      simp [hsub, hne]

theorem getLsbD_relrBitmap_zero (bitmap : U64) : (relrBitmap bitmap).getLsbD 0 = true := by
  simp [relrBitmap]

theorem relrBitmap_shift {bitmap : U64} (h : bitmap.getLsbD 63 = false) :
  relrBitmap bitmap >>> 1 = bitmap := by
  refine BitVec.eq_of_getLsbD_eq fun j hj => ?_
  rw [relrBitmap, BitVec.getLsbD_ushiftRight, BitVec.getLsbD_or, BitVec.getLsbD_shiftLeft,
    BitVec.getLsbD_one]
  by_cases hlast : j = 63
  · subst hlast
    simpa using h
  · have hlt : 1 + j < 64 := by omega
    simp [hlt]

namespace ElfFile

variable (f : ElfFile)

theorem addressSize_cases : f.header.addressSize = 8 ∨ f.header.addressSize = 4 := by
  unfold ElfHeader.addressSize
  split
  · exact .inl rfl
  · exact .inr rfl

theorem addressSize_pos : 0 < f.header.addressSize := by
  rcases f.addressSize_cases with h | h <;> omega

theorem bitmapSlots_zero (cursor : U64) : f.bitmapSlots cursor 0#64 = [] := by
  simp [bitmapSlots]

/-- One more bit above the others is one more slot behind the others. -/
theorem bitmapSlots_insert (cursor bitmap : U64) {k : Nat}
  (hk : k < f.header.addressSize * 8 - 1) (hbelow : ∀ j, bitmap.getLsbD j = true → j < k) :
  f.bitmapSlots cursor (bitmap ||| 1#64 <<< k) =
    f.bitmapSlots cursor bitmap ++ [cursor + BitVec.ofNat 64 (k * f.header.addressSize)] := by
  have hword : k < 64 := by
    rcases f.addressSize_cases with h | h <;> omega
  unfold bitmapSlots
  rw [filter_range_insert (p := fun bit => bitmap.getLsbD bit) hk hbelow
    fun j _ => getLsbD_setBit bitmap hword, List.map_append]
  rfl

theorem getLsbD_address {address : Nat} (h : f.header.addressSize ∣ address) :
  (BitVec.ofNat 64 address).getLsbD 0 = false := by
  have heven : address % 2 = 0 := by
    rcases f.addressSize_cases with hsize | hsize <;> rw [hsize] at h <;> omega
  rw [BitVec.getLsbD_ofNat, Nat.testBit_zero]
  simp [heven]

theorem relrSlots_address {address : Nat} (h : f.header.addressSize ∣ address) (cursor : U64)
  (words : List U64) :
  f.relrSlots cursor (BitVec.ofNat 64 address :: words) =
    BitVec.ofNat 64 address ::
      f.relrSlots (BitVec.ofNat 64 (address + f.header.addressSize)) words := by
  rw [relrSlots, if_pos (f.getLsbD_address h), BitVec.ofNat_add]

theorem relrSlots_relrBitmap (base : Nat) {bitmap : U64}
  (h : ∀ j, bitmap.getLsbD j = true → j < f.header.addressSize * 8 - 1) (words : List U64) :
  f.relrSlots (BitVec.ofNat 64 base) (relrBitmap bitmap :: words) =
    f.bitmapSlots (BitVec.ofNat 64 base) bitmap ++
      f.relrSlots (BitVec.ofNat 64 (base + relrWindow f.header.addressSize)) words := by
  have htop : bitmap.getLsbD 63 = false := by
    rw [Bool.eq_false_iff]
    intro hbit
    have := h 63 hbit
    rcases f.addressSize_cases with hsize | hsize <;> omega
  rw [relrSlots, if_neg (by rw [getLsbD_relrBitmap_zero]; decide), relrBitmap_shift htop,
    BitVec.ofNat_add]
  rfl

/-- The bits of a bitmap name addresses before those that are left. -/
structure Encodes (base : Nat) (bitmap : U64) (addresses : List Nat) : Prop where
  sorted : addresses.Pairwise (· < ·)
  aligned : ∀ a ∈ addresses, f.header.addressSize ∣ a
  alignedBase : f.header.addressSize ∣ base
  le : ∀ a ∈ addresses, base ≤ a
  inWindow : ∀ j, bitmap.getLsbD j = true → j < f.header.addressSize * 8 - 1
  before : ∀ j, bitmap.getLsbD j = true → ∀ a ∈ addresses,
    base + j * f.header.addressSize < a

variable {f} {base address : Nat} {bitmap : U64} {rest : List Nat}

theorem Encodes.behind (h : f.Encodes base bitmap (address :: rest)) :
  f.Encodes (address + f.header.addressSize) 0#64 rest := by
  obtain ⟨hfirst, hsorted⟩ := List.pairwise_cons.mp h.sorted
  have haddress := h.aligned address (List.mem_cons_self ..)
  refine ⟨hsorted, fun a ha => h.aligned a (List.mem_cons_of_mem _ ha),
    haddress.add (Nat.dvd_refl _), fun a ha => ?_, fun j hj => ?_, fun j hj => ?_⟩
  · -- Two multiples of the size are the size apart.
    have hlt := hfirst a ha
    obtain ⟨m, rfl⟩ := haddress
    obtain ⟨n, rfl⟩ := h.aligned a (List.mem_cons_of_mem _ ha)
    have hmn : m + 1 ≤ n := Nat.lt_of_mul_lt_mul_left hlt
    calc f.header.addressSize * m + f.header.addressSize
        = f.header.addressSize * (m + 1) := (Nat.mul_succ ..).symm
      _ ≤ f.header.addressSize * n := Nat.mul_le_mul_left _ hmn
  · simp at hj
  · simp at hj

/-- The window behind the bitmap. -/
theorem Encodes.next (h : f.Encodes base bitmap (address :: rest))
  (hbehind : ¬ address - base < relrWindow f.header.addressSize) :
  f.Encodes (base + relrWindow f.header.addressSize) 0#64 (address :: rest) := by
  refine ⟨h.sorted, h.aligned, h.alignedBase.add (Nat.dvd_mul_left _ _), fun a ha => ?_,
    fun j hj => ?_, fun j hj => ?_⟩
  · have hle : address ≤ a := by
      rcases List.mem_cons.mp ha with rfl | ha
      · exact Nat.le_refl _
      · exact Nat.le_of_lt ((List.pairwise_cons.mp h.sorted).1 a ha)
    have := h.le address (List.mem_cons_self ..)
    omega
  · simp at hj
  · simp at hj

/-- An address of the window gets its bit. -/
theorem Encodes.insert (h : f.Encodes base bitmap (address :: rest))
  (hwindow : address - base < relrWindow f.header.addressSize) :
  f.Encodes base (bitmap ||| 1#64 <<< ((address - base) / f.header.addressSize)) rest ∧
    f.bitmapSlots (BitVec.ofNat 64 base)
        (bitmap ||| 1#64 <<< ((address - base) / f.header.addressSize)) =
      f.bitmapSlots (BitVec.ofNat 64 base) bitmap ++ [BitVec.ofNat 64 address] := by
  have hpos := f.addressSize_pos
  obtain ⟨hfirst, hsorted⟩ := List.pairwise_cons.mp h.sorted
  have hle := h.le address (List.mem_cons_self ..)
  obtain ⟨k, hk⟩ := Nat.dvd_sub (h.aligned address (List.mem_cons_self ..)) h.alignedBase
  have hquotient : (address - base) / f.header.addressSize = k := by
    rw [hk, Nat.mul_div_cancel_left _ hpos]
  have haddress : address = base + k * f.header.addressSize := by
    rw [Nat.mul_comm, ← hk]
    omega
  have hkWindow : k < f.header.addressSize * 8 - 1 := by
    rw [hk, relrWindow, Nat.mul_comm] at hwindow
    exact Nat.lt_of_mul_lt_mul_right hwindow
  have hbelow : ∀ j, bitmap.getLsbD j = true → j < k := by
    intro j hj
    have hlt := h.before j hj address (List.mem_cons_self ..)
    rw [haddress] at hlt
    exact Nat.lt_of_mul_lt_mul_right (Nat.lt_of_add_lt_add_left hlt)
  have hword : k < 64 := by
    rcases f.addressSize_cases with hsize | hsize <;> omega
  rw [hquotient]
  refine ⟨⟨hsorted, fun a ha => h.aligned a (List.mem_cons_of_mem _ ha), h.alignedBase,
    fun a ha => h.le a (List.mem_cons_of_mem _ ha), fun j hj => ?_, fun j hj a ha => ?_⟩, ?_⟩
  · rw [getLsbD_setBit bitmap hword, Bool.or_eq_true, beq_iff_eq] at hj
    rcases hj with hj | rfl
    · exact h.inWindow j hj
    · exact hkWindow
  · rw [getLsbD_setBit bitmap hword, Bool.or_eq_true, beq_iff_eq] at hj
    rcases hj with hj | rfl
    · exact h.before j hj a (List.mem_cons_of_mem _ ha)
    · rw [← haddress]
      exact hfirst a ha
  · rw [f.bitmapSlots_insert _ _ hkWindow hbelow, haddress, BitVec.ofNat_add]

/-- **Behind a base.**  The addresses of the bitmap and those that are left. -/
theorem relrSlots_encodeFrom {addresses : List Nat} (h : f.Encodes base bitmap addresses) :
  f.relrSlots (BitVec.ofNat 64 base)
      (relrEncodeFrom f.header.addressSize base bitmap addresses) =
    f.bitmapSlots (BitVec.ofNat 64 base) bitmap ++ addresses.map (BitVec.ofNat 64) := by
  induction addresses generalizing base bitmap with
  | nil =>
    rw [relrEncodeFrom]
    split
    · rename_i hzero
      rw [hzero, f.bitmapSlots_zero]
      rfl
    · rw [f.relrSlots_relrBitmap base h.inWindow, relrSlots]
      rfl
  | cons address rest ih =>
    have haligned := h.aligned address (List.mem_cons_self ..)
    have hspelled := ih h.behind
    rw [f.bitmapSlots_zero, List.nil_append] at hspelled
    rw [relrEncodeFrom]
    split
    · rename_i hwindow
      obtain ⟨hencodes, hslots⟩ := h.insert hwindow
      rw [ih hencodes, hslots, List.append_assoc]
      rfl
    · rename_i hbehind
      split
      · rename_i hzero
        rw [f.relrSlots_address haligned, hspelled, hzero, f.bitmapSlots_zero]
        rfl
      · have hnext := h.next hbehind
        rw [f.relrSlots_relrBitmap base h.inWindow]
        congr 1
        split
        · rename_i hwindow
          obtain ⟨hencodes, hslots⟩ := hnext.insert hwindow
          rw [BitVec.zero_or] at hencodes hslots
          rw [ih hencodes, hslots, f.bitmapSlots_zero]
          rfl
        · rw [f.relrSlots_address haligned, hspelled]
          rfl

/-- **Decoding undoes encoding.** -/
theorem relrSlots_encode {addresses : List Nat} (hsorted : addresses.Pairwise (· < ·))
  (haligned : ∀ a ∈ addresses, f.header.addressSize ∣ a) (cursor : U64) :
  f.relrSlots cursor (relrEncode f.header.addressSize addresses) =
    addresses.map (BitVec.ofNat 64) := by
  cases addresses with
  | nil => rfl
  | cons address rest =>
    have hfirst := haligned address (List.mem_cons_self ..)
    have hencodes : f.Encodes 0 0#64 (address :: rest) :=
      ⟨hsorted, haligned, Nat.dvd_zero _, fun a _ => Nat.zero_le a, fun j hj => by simp at hj,
        fun j hj => by simp at hj⟩
    rw [relrEncode, f.relrSlots_address hfirst, relrSlots_encodeFrom hencodes.behind,
      f.bitmapSlots_zero]
    rfl

/-! ## Any table -/

/-- The cursor behind some words. -/
def relrCursor (f : ElfFile) (cursor : U64) : List U64 → U64
  | [] => cursor
  | word :: words =>
    relrCursor f
      (if word.getLsbD 0 = false then word + BitVec.ofNat 64 f.header.addressSize
      else cursor + BitVec.ofNat 64 (relrWindow f.header.addressSize)) words

theorem relrSlots_append (cursor : U64) (front back : List U64) :
  f.relrSlots cursor (front ++ back) =
    f.relrSlots cursor front ++ f.relrSlots (f.relrCursor cursor front) back := by
  induction front generalizing cursor with
  | nil => rfl
  | cons word front ih =>
    rw [List.cons_append, relrSlots, relrSlots, relrCursor]
    split
    · rw [ih]
      rfl
    · rw [ih, List.append_assoc]
      rfl

/-- The slots of a bitmap word, one for each bit above the lowest. -/
def wordSlots (f : ElfFile) (cursor word : U64) : List U64 :=
  ((List.range (f.header.addressSize * 8 - 1)).filter fun bit => word.getLsbD (bit + 1)).map
    fun bit => cursor + BitVec.ofNat 64 (bit * f.header.addressSize)

theorem bitmapSlots_eq (cursor word : U64) :
  f.bitmapSlots cursor (word >>> 1) = f.wordSlots cursor word := by
  unfold bitmapSlots wordSlots
  simp only [BitVec.getLsbD_ushiftRight, Nat.add_comm 1]

/-- **Bitmaps.**  Wherever it stands, a bitmap moves the cursor by its window and names
the slots of its bits. -/
theorem relrSlots_bitmap {word : U64} (hword : word.getLsbD 0 = true) (cursor : U64)
  (front back : List U64) :
  f.relrSlots cursor (front ++ word :: back) =
    f.relrSlots cursor front ++ (f.wordSlots (f.relrCursor cursor front) word ++
      f.relrSlots (f.relrCursor cursor front +
        BitVec.ofNat 64 (relrWindow f.header.addressSize)) back) := by
  rw [relrSlots_append, relrSlots, if_neg (by rw [hword]; decide), bitmapSlots_eq]
  rfl

/-- **RELR tables.**  A table that encodes addresses is one relative relocation for
each of them in order; in any table a bitmap is one for each of its bits. -/
theorem relr_exact (f : ElfFile) (tables : SymbolTables) {table : RelocTable}
    (hformat : table.format = .relr) :
    (∀ addresses : List Nat, addresses.Pairwise (· < ·) →
      (∀ a ∈ addresses, f.header.addressSize ∣ a) →
      f.relrWords table = relrEncode f.header.addressSize addresses →
        f.parseTable tables table =
          addresses.map fun a => f.implicitRelocation (BitVec.ofNat 64 a)) ∧
    ∀ (front back : List U64) (word : U64), word.getLsbD 0 = true →
      f.relrWords table = front ++ word :: back →
        f.parseTable tables table =
          (f.relrSlots 0#64 front ++ (f.wordSlots (f.relrCursor 0#64 front) word ++
            f.relrSlots (f.relrCursor 0#64 front +
              BitVec.ofNat 64 (relrWindow f.header.addressSize)) back)).map
            f.implicitRelocation := by
  have hparse : f.parseTable tables table =
      (f.relrSlots 0#64 (f.relrWords table)).map f.implicitRelocation := by
    rw [parseTable, hformat]
  refine ⟨fun addresses hsorted haligned hwords => ?_, fun front back word hword hwords => ?_⟩
  · rw [hparse, hwords, relrSlots_encode hsorted haligned, List.map_map]
    rfl
  · rw [hparse, hwords, relrSlots_bitmap hword]

/-- A file of 32 bits with a table for 0x1000, 0x1004 and 0x107c. -/
def relrFile : ElfFile where
  reader := ⟨[0x00, 0x10, 0x00, 0x00, 0x03, 0x00, 0x00, 0x80], .little⟩
  header := ⟨false, .little, .loadable, .arm32, 0, 0, 0, 0, 0, 0⟩
  programHeaders := []
  sectionHeaders := []
  memory := ⟨[], [], by simp, by simp⟩

def relrTable : RelocTable := ⟨.relr, 0#64, 8#64, none⟩

theorem relr_exact_relrFile :
    relrFile.parseTable ⟨[], [], none⟩ relrTable =
      [0x1000, 0x1004, 0x107c].map fun a => relrFile.implicitRelocation (BitVec.ofNat 64 a) :=
  (relr_exact relrFile ⟨[], [], none⟩ rfl).1 _ (by decide) (by decide) (by decide)

end ElfFile

end Xdec

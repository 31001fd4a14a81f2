import Xdec.MemoryMap

/-!
# Regions found and read

`MemoryMap::regionAt` searches for the last region that starts at or below an address.
As regions are sorted and apart it is the one region that contains the address, which
a scan of all of them finds (`regionAt_eq_scan`).

`MemoryMap::read` takes what each region has of the range, file bytes first and zeros
behind them; that is the range byte after byte (`readRegions_eq`).
-/

namespace Xdec

namespace MemoryRegion

variable {region : MemoryRegion} {va : U64}

theorem contains_iff :
  region.contains va = true ↔ region.va ≤ va ∧ va < region.va + region.size := by
  rw [contains, Bool.and_eq_true, decide_eq_true_eq, decide_eq_true_eq]

theorem bound_of_fits {n : Nat} (h : region.fits n = true) :
  region.va.toNat + region.size.toNat < 2 ^ 64 ∧
    region.fileSize.toNat ≤ region.size.toNat := by
  simp only [fits, Bool.and_eq_true, Bool.not_eq_true', decide_eq_false_iff_not] at h
  obtain ⟨⟨hend, hfile⟩, -⟩ := h
  rw [BitVec.lt_def, BitVec.toNat_sub, BitVec.toNat_allOnes] at hend
  rw [BitVec.lt_def] at hfile
  have := region.size.isLt
  have := region.va.isLt
  omega

/-- An address of a region, as numbers. -/
theorem contains_iff_toNat {n : Nat} (h : region.fits n = true) :
  region.contains va = true ↔
    region.va.toNat ≤ va.toNat ∧ va.toNat < region.va.toNat + region.size.toNat := by
  have hbound := (bound_of_fits h).1
  rw [contains_iff, BitVec.le_def, BitVec.lt_def, BitVec.toNat_add, Nat.mod_eq_of_lt hbound]

end MemoryRegion

namespace MemoryMap

variable {memory : MemoryMap} {va : U64} {region : MemoryRegion}

theorem pairwise_apart (memory : MemoryMap) :
  memory.regions.Pairwise fun a b => a.va.toNat + a.size.toNat ≤ b.va.toNat := by
  have hchain : ∀ l : List MemoryRegion, (∀ r ∈ l, r.fits memory.backing.length = true) →
      l.IsChain (fun previous current => previous.endVa ≤ current.va) →
      l.Pairwise fun a b => a.va.toNat + a.size.toNat ≤ b.va.toNat := by
    intro l
    induction l with
    | nil => exact fun _ _ => .nil
    | cons first l ih =>
      intro hfits hl
      have hrest := ih (fun r hr => hfits r (List.mem_cons_of_mem _ hr)) hl.tail
      refine List.pairwise_cons.mpr ⟨fun b hb => ?_, hrest⟩
      have hfirst := (MemoryRegion.bound_of_fits (hfits first (List.mem_cons_self ..))).1
      have hend : first.endVa.toNat = first.va.toNat + first.size.toNat := by
        rw [MemoryRegion.endVa, BitVec.toNat_add, Nat.mod_eq_of_lt hfirst]
      cases l with
      | nil => cases hb
      | cons second l =>
        have hstep : first.endVa ≤ second.va := (List.isChain_cons_cons.mp hl).1
        rw [BitVec.le_def, hend] at hstep
        rcases List.mem_cons.mp hb with rfl | hb
        · exact hstep
        · have := (List.pairwise_cons.mp hrest).1 b hb
          omega
  exact hchain memory.regions memory.fits memory.apart

/-- **The region of an address.** -/
theorem regionAt_eq_some_iff :
  memory.regionAt va = some region ↔ region ∈ memory.regions ∧ region.contains va = true := by
  refine ⟨mem_of_regionAt, fun ⟨hmem, hcontains⟩ => ?_⟩
  obtain ⟨front, back, hsplit⟩ := List.append_of_mem hmem
  have hapart := memory.pairwise_apart
  rw [hsplit, List.pairwise_append] at hapart
  obtain ⟨-, hback, hfront⟩ := hapart
  obtain ⟨hlow, hhigh⟩ :=
    (MemoryRegion.contains_iff_toNat (memory.fits region hmem)).mp hcontains
  have hbelow : ∀ r ∈ front ++ [region], decide (r.va ≤ va) = true := by
    intro r hr
    rw [decide_eq_true_eq, BitVec.le_def]
    rcases List.mem_append.mp hr with hr | hr
    · have := hfront r hr region (List.mem_cons_self ..)
      omega
    · rw [List.mem_singleton.mp hr]
      exact hlow
  have habove : back.takeWhile (fun r => decide (r.va ≤ va)) = [] := by
    cases back with
    | nil => rfl
    | cons next back =>
      have := (List.pairwise_cons.mp hback).1 next (List.mem_cons_self ..)
      have hnot : ¬ next.va ≤ va := by
        rw [BitVec.le_def]
        omega
      rw [List.takeWhile_cons, if_neg (by simpa using hnot)]
  have htaken : memory.regions.takeWhile (fun r => decide (r.va ≤ va)) = front ++ [region] := by
    rw [hsplit, List.append_cons, List.takeWhile_append_of_pos hbelow, habove, List.append_nil]
  rw [regionAt, htaken, List.getLast?_concat]
  exact Option.filter_eq_some_iff.mpr ⟨rfl, hcontains⟩

/-- **Searching and scanning.** -/
theorem regionAt_eq_scan (memory : MemoryMap) (va : U64) :
  memory.regionAt va = memory.regions.find? fun region => region.contains va := by
  cases hscan : memory.regions.find? fun region => region.contains va with
  | some region =>
    have hcontains := List.find?_some hscan
    exact regionAt_eq_some_iff.mpr ⟨List.mem_of_find?_eq_some hscan, hcontains⟩
  | none =>
    cases hregion : memory.regionAt va with
    | none => rfl
    | some region =>
      obtain ⟨hmem, hcontains⟩ := regionAt_eq_some_iff.mp hregion
      exact absurd hcontains (List.find?_eq_none.mp hscan region hmem)

/-! ## Reading region after region -/

/-- What is taken of one region: `wanted` bytes from an offset on. -/
def takeRegion (memory : MemoryMap) (region : MemoryRegion) (offset : U64) (wanted : Nat) :
    List (BitVec 8) :=
  let fileAvailable := if offset < region.fileSize then region.fileSize - offset else 0#64
  let fromFile := min fileAvailable.toNat wanted
  (memory.backing.drop (region.fileOffset + offset).toNat).take fromFile ++
    List.replicate (wanted - fromFile) 0#8

/-- The loop of `MemoryMap::read`, with the turns it may take. -/
def readLoop (memory : MemoryMap) : Nat → U64 → Nat → Option (List (BitVec 8))
  | _, _, 0 => some []
  | 0, _, _ + 1 => none
  | fuel + 1, cursor, size + 1 => do
    let region ← memory.regionAt cursor
    let offset := cursor - region.va
    let wanted := min (region.size - offset).toNat (size + 1)
    let rest ← readLoop memory fuel (cursor + BitVec.ofNat 64 wanted) (size + 1 - wanted)
    return memory.takeRegion region offset wanted ++ rest

def readRegions (memory : MemoryMap) (va : U64) (size : Nat) : Option (List (BitVec 8)) :=
  memory.readLoop size va size

end MemoryMap

/-! ## Bytes one after the other -/

/-- A range, byte after byte. -/
def readBytes (byteAt : U64 → Option (BitVec 8)) (cursor : U64) :
    Nat → Option (List (BitVec 8))
  | 0 => some []
  | size + 1 => do
    let byte ← byteAt cursor
    let rest ← readBytes byteAt (cursor + 1#64) size
    return byte :: rest

section ReadBytes

variable {byteAt : U64 → Option (BitVec 8)}

theorem readBytes_append (byteAt : U64 → Option (BitVec 8)) (va : U64) (n m : Nat) :
  readBytes byteAt va (n + m) = do
    let front ← readBytes byteAt va n
    let back ← readBytes byteAt (va + BitVec.ofNat 64 n) m
    return front ++ back := by
  induction n generalizing va with
  | zero =>
    rw [Nat.zero_add, readBytes, BitVec.add_zero]
    cases readBytes byteAt va m with
    | none => rfl
    | some bytes => rfl
  | succ n ih =>
    rw [Nat.add_right_comm, readBytes, readBytes]
    cases byteAt va with
    | none => rfl
    | some byte =>
      simp only [Option.bind_eq_bind, Option.bind_some, ih, Option.pure_def]
      rw [BitVec.add_assoc, ← BitVec.ofNat_add, Nat.add_comm 1 n]
      cases readBytes byteAt (va + 1#64) n with
      | none => rfl
      | some front =>
        simp only [Option.bind_some]
        cases readBytes byteAt (va + BitVec.ofNat 64 (n + 1)) m with
        | none => rfl
        | some back => rfl

theorem address_succ (va : U64) (k : Nat) :
  va + BitVec.ofNat 64 (k + 1) = va + 1#64 + BitVec.ofNat 64 k := by
  rw [Nat.add_comm k, BitVec.ofNat_add, ← BitVec.add_assoc]

theorem readBytes_eq_some_iff {va : U64} {n : Nat} {bytes : List (BitVec 8)} :
  readBytes byteAt va n = some bytes ↔
    bytes.length = n ∧ ∀ k < n, byteAt (va + BitVec.ofNat 64 k) = bytes[k]? := by
  induction n generalizing va bytes with
  | zero =>
    rw [readBytes, Option.some.injEq, List.length_eq_zero_iff]
    exact ⟨fun h => ⟨h.symm, fun k hk => absurd hk (Nat.not_lt_zero k)⟩, fun h => h.1.symm⟩
  | succ n ih =>
    constructor
    · intro h
      obtain ⟨byte, hbyte, h⟩ := Option.bind_eq_some_iff.mp h
      obtain ⟨rest, hrest, h⟩ := Option.bind_eq_some_iff.mp h
      obtain rfl := Option.some.inj h
      obtain ⟨hlength, hat⟩ := ih.mp hrest
      refine ⟨congrArg (· + 1) hlength, fun k hk => ?_⟩
      cases k with
      | zero => rw [BitVec.add_zero, List.getElem?_cons_zero, hbyte]
      | succ k =>
        rw [List.getElem?_cons_succ, address_succ]
        exact hat k (Nat.lt_of_succ_lt_succ hk)
    · rintro ⟨hlength, hat⟩
      obtain ⟨byte, bytes, rfl⟩ := List.exists_cons_of_length_eq_add_one hlength
      have hfirst := hat 0 (Nat.succ_pos n)
      rw [BitVec.add_zero, List.getElem?_cons_zero] at hfirst
      have hrest : readBytes byteAt (va + 1#64) n = some bytes := by
        refine ih.mpr ⟨Nat.succ.inj hlength, fun k hk => ?_⟩
        have hnext := hat (k + 1) (Nat.succ_lt_succ hk)
        rwa [List.getElem?_cons_succ, address_succ] at hnext
      rw [readBytes, hfirst, hrest]
      rfl

/-- Reading fails where a byte is missing. -/
theorem readBytes_eq_none_iff {va : U64} {n : Nat} :
  readBytes byteAt va n = none ↔ ∃ k < n, byteAt (va + BitVec.ofNat 64 k) = none := by
  induction n generalizing va with
  | zero => simp [readBytes]
  | succ n ih =>
    rw [readBytes]
    cases hbyte : byteAt va with
    | none =>
      refine ⟨fun _ => ⟨0, Nat.succ_pos n, ?_⟩, fun _ => rfl⟩
      rw [BitVec.add_zero, hbyte]
    | some byte =>
      have hrest : (do
          let byte ← some byte
          let rest ← readBytes byteAt (va + 1#64) n
          return byte :: rest) = none ↔ readBytes byteAt (va + 1#64) n = none := by
        cases readBytes byteAt (va + 1#64) n <;> simp
      rw [hrest, ih]
      constructor
      · rintro ⟨k, hk, hnone⟩
        exact ⟨k + 1, Nat.succ_lt_succ hk, by rwa [address_succ]⟩
      · rintro ⟨k, hk, hnone⟩
        cases k with
        | zero =>
          rw [BitVec.add_zero, hbyte] at hnone
          cases hnone
        | succ k => exact ⟨k, Nat.lt_of_succ_lt_succ hk, by rwa [address_succ] at hnone⟩

end ReadBytes

namespace MemoryMap

variable {memory : MemoryMap} {va : U64} {region : MemoryRegion}

theorem read_eq_readBytes (memory : MemoryMap) (va : U64) (n : Nat) :
  memory.read va n = readBytes memory.byteAt va n := by
  induction n generalizing va with
  | zero => rfl
  | succ n ih =>
    rw [read, readBytes]
    cases memory.byteAt va with
    | none => rfl
    | some byte => simp only [Option.bind_eq_bind, Option.bind_some, ih]

/-- What is taken of a region is the bytes at its addresses. -/
theorem read_eq_takeRegion (hfile : memory.backing.length < 2 ^ 64)
  (hregion : memory.regionAt va = some region) {wanted : Nat}
  (hwanted : wanted ≤ (region.size - (va - region.va)).toNat) :
  memory.read va wanted = some (memory.takeRegion region (va - region.va) wanted) := by
  obtain ⟨hmem, hcontains⟩ := regionAt_eq_some_iff.mp hregion
  have hfits := memory.fits region hmem
  obtain ⟨hlow, hhigh⟩ := (MemoryRegion.contains_iff_toNat hfits).mp hcontains
  obtain ⟨hbound, hsize⟩ := MemoryRegion.bound_of_fits hfits
  have hoffset : (va - region.va).toNat = va.toNat - region.va.toNat := by
    rw [BitVec.toNat_sub]
    omega
  have hremaining : (region.size - (va - region.va)).toNat =
      region.size.toNat - (va.toNat - region.va.toNat) := by
    rw [BitVec.toNat_sub, hoffset]
    omega
  rw [hremaining] at hwanted
  clear hremaining
  -- From here on the offset into the region is a word with a known number.
  have hshift : ∀ address : U64, address.toNat < region.va.toNat + region.size.toNat →
      va.toNat ≤ address.toNat → (address - region.va).toNat = address.toNat - region.va.toNat := by
    intro address _ _
    rw [BitVec.toNat_sub]
    omega
  generalize va - region.va = part at hoffset ⊢
  generalize hdef : (if part < region.fileSize then region.fileSize - part else 0#64).toNat =
    fileAvailable
  have havailable : fileAvailable = region.fileSize.toNat - part.toNat := by
    rw [← hdef]
    split
    · rename_i hlt
      rw [BitVec.lt_def] at hlt
      rw [BitVec.toNat_sub]
      omega
    · rename_i hlt
      rw [BitVec.lt_def] at hlt
      rw [BitVec.toNat_zero]
      omega
  have htake : memory.takeRegion region part wanted =
      (memory.backing.drop (region.fileOffset + part).toNat).take (min fileAvailable wanted) ++
          List.replicate (wanted - min fileAvailable wanted) 0#8 := by
    rw [takeRegion, hdef]
  -- Where the file has some of the region the part lies inside the file.
  have hinside : 0 < fileAvailable →
      region.fileOffset.toNat + region.fileSize.toNat ≤ memory.backing.length := by
    intro hpos
    have hnonzero : region.fileSize ≠ 0#64 := by
      intro hzero
      rw [havailable, hzero] at hpos
      simp at hpos
    simp only [MemoryRegion.fits, Bool.and_eq_true, Bool.or_eq_true, beq_iff_eq,
      decide_eq_true_eq] at hfits
    exact hfits.2.resolve_left hnonzero
  have hstart : ∀ inner : U64, part.toNat ≤ inner.toNat → inner.toNat < region.fileSize.toNat →
      (region.fileOffset + inner).toNat = region.fileOffset.toNat + inner.toNat := by
    intro inner hle hlt
    have := hinside (by omega)
    rw [BitVec.toNat_add]
    omega
  have hfront : ((memory.backing.drop (region.fileOffset + part).toNat).take
      (min fileAvailable wanted)).length = min fileAvailable wanted := by
    rcases Nat.eq_zero_or_pos fileAvailable with hzero | hpos
    · simp [hzero]
    · have := hinside hpos
      have := hstart part le_rfl (by omega)
      rw [List.length_take, List.length_drop]
      omega
  rw [read_eq_readBytes]
  refine readBytes_eq_some_iff.mpr ⟨?_, fun k hk => ?_⟩
  · rw [htake, List.length_append, hfront, List.length_replicate]
    omega
  · have haddress : (va + BitVec.ofNat 64 k).toNat = va.toNat + k := by
      rw [BitVec.toNat_add, BitVec.toNat_ofNat]
      omega
    generalize va + BitVec.ofNat 64 k = address at haddress ⊢
    have hat : memory.regionAt address = some region := by
      refine regionAt_eq_some_iff.mpr ⟨hmem, ?_⟩
      rw [MemoryRegion.contains_iff_toNat (memory.fits region hmem), haddress]
      omega
    have hinner := hshift address (by omega) (by omega)
    rw [byteAt, hat, Option.map_some, htake]
    simp only [BitVec.lt_def]
    generalize address - region.va = inner at hinner ⊢
    have hindex : inner.toNat = part.toNat + k := by omega
    clear hshift hinner haddress
    by_cases hcovered : k < min fileAvailable wanted
    · have hk : k < fileAvailable := hcovered.trans_le (Nat.min_le_left _ _)
      have hfile := hinside (by omega)
      have hfirst := hstart part le_rfl (by omega)
      have hlast := hstart inner (by omega) (by omega)
      have hlt : (region.fileOffset + part).toNat + k < memory.backing.length := by omega
      have hsame : (region.fileOffset + inner).toNat = (region.fileOffset + part).toNat + k := by
        omega
      rw [if_pos (by omega), List.getElem?_append_left (by rw [hfront]; exact hcovered),
        List.getElem?_take, if_pos hcovered, List.getElem?_drop, hsame, List.getD_eq_getElem?_getD,
        List.getElem?_eq_getElem hlt, Option.getD_some]
    · have hk : fileAvailable ≤ k := by omega
      rw [if_neg (by omega), List.getElem?_append_right (by rw [hfront]; omega), hfront,
        List.getElem?_replicate, if_pos (by omega)]

/-- **Reading.**  Region after region is byte after byte. -/
theorem readLoop_eq (hfile : memory.backing.length < 2 ^ 64) {fuel size : Nat}
  (h : size ≤ fuel) : memory.readLoop fuel va size = memory.read va size := by
  induction fuel generalizing va size with
  | zero =>
    obtain rfl := Nat.le_zero.mp h
    rw [readLoop, read]
  | succ fuel ih =>
    cases size with
    | zero => rw [readLoop, read]
    | succ size =>
      rw [readLoop]
      cases hregion : memory.regionAt va with
      | none =>
        rw [read, byteAt, hregion]
        rfl
      | some region =>
        obtain ⟨hmem, hcontains⟩ := regionAt_eq_some_iff.mp hregion
        have hfits := memory.fits region hmem
        obtain ⟨hlow, hhigh⟩ := (MemoryRegion.contains_iff_toNat hfits).mp hcontains
        obtain ⟨hbound, -⟩ := MemoryRegion.bound_of_fits hfits
        have hremaining : 0 < (region.size - (va - region.va)).toNat := by
          rw [BitVec.toNat_sub, BitVec.toNat_sub]
          omega
        generalize hwanted : min (region.size - (va - region.va)).toNat (size + 1) = wanted
        have hsplit : size + 1 = wanted + (size + 1 - wanted) := by omega
        have hfront := read_eq_takeRegion hfile hregion (by omega : wanted ≤ _)
        simp only [Option.bind_eq_bind, Option.bind_some, hwanted]
        conv_rhs =>
          rw [hsplit, read_eq_readBytes, readBytes_append, ← read_eq_readBytes, hfront,
            ← read_eq_readBytes]
        rw [ih (by omega)]
        rfl

theorem readRegions_eq (hfile : memory.backing.length < 2 ^ 64) (va : U64) (size : Nat) :
  memory.readRegions va size = memory.read va size := readLoop_eq hfile (Nat.le_refl size)

end MemoryMap

end Xdec

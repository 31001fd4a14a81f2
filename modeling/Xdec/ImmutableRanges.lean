import Xdec.ImageQueries

/-!
# Ranges that do not change

`BinaryImage::isImmutable` answers whether loads from a range may be folded.  Every
byte has to lie in a region without write permission, and a relocation in the range has
to be a rebase whose value is known and that lies inside.

Of the relocations only the last in address order is looked at.  Where it passes and
another that overlaps does not, the answer is wrong (`hidden_binding_accepted`); else it
is right (`isImmutable_iff`).
-/

namespace Xdec

/-- An image with the permissions of its regions, which differ in address. -/
structure ProtectedImage extends BinaryImage where
  writable : MemoryRegion → Bool

namespace ProtectedImage

variable (image : ProtectedImage)

/-- The walk over the regions of a range, with the turns it may take. -/
def walkRegions : Nat → U64 → U64 → Bool
  | 0, at_, stop => !decide (at_ < stop)
  | fuel + 1, at_, stop =>
    if stop ≤ at_ then true
    else
      match image.memory.regionAt at_ with
      | none => false
      | some region =>
        if image.writable region then false else walkRegions fuel region.endVa stop

end ProtectedImage

/-- The test of the one relocation that is looked at. -/
def Relocation.passes (r : Relocation) (va size : U64) : Bool :=
  decide (r.kind = .relative) && r.hasValue && decide (va ≤ r.va) &&
    decide (r.endVa ≤ va + size)

/-- A rebase with a known value, inside the range. -/
structure Relocation.Settled (r : Relocation) (va size : U64) : Prop where
  kind : r.kind = .relative
  hasValue : r.hasValue = true
  start : va.toNat ≤ r.va.toNat
  stop : r.va.toNat + r.width ≤ va.toNat + size.toNat

namespace ProtectedImage

variable (image : ProtectedImage)

def isImmutable (va size : U64) : Bool :=
  if size = 0#64 ∨ va + size < va then false
  else if image.walkRegions size.toNat va (va + size) = false then false
  else
    match image.relocationOverlapping va size with
    | none => true
    | some r => r.passes va size

/-- A byte that nothing may write. -/
def ReadOnlyAt (a : U64) : Prop :=
  ∃ region, image.memory.regionAt a = some region ∧ image.writable region = false

/-- A range with bytes, all of them read-only. -/
def ReadOnly (va size : U64) : Prop :=
  0 < size.toNat ∧ ∀ k < size.toNat, image.ReadOnlyAt (va + BitVec.ofNat 64 k)

/-- What the answer promises. -/
structure Immutable (va size : U64) : Prop where
  readOnly : image.ReadOnly va size
  settled : ∀ r ∈ image.relocationsByAddress, r.Overlaps va size → r.Settled va size

variable {image} {va size at_ stop : U64}

/-- The walk accepts a range whose bytes are read-only. -/
theorem walkRegions_iff {fuel : Nat} (hfuel : stop.toNat ≤ at_.toNat + fuel) :
  image.walkRegions fuel at_ stop = true ↔
    ∀ a : U64, at_.toNat ≤ a.toNat → a.toNat < stop.toNat → image.ReadOnlyAt a := by
  induction fuel generalizing at_ with
  | zero =>
    rw [walkRegions, Bool.not_eq_true', decide_eq_false_iff_not, BitVec.lt_def]
    refine ⟨fun _ a hlow hhigh => ?_, fun _ => ?_⟩ <;> omega
  | succ fuel ih =>
    rw [walkRegions]
    split
    · rename_i hdone
      rw [BitVec.le_def] at hdone
      refine ⟨fun _ a hlow hhigh => ?_, fun _ => rfl⟩
      omega
    · rename_i hmore
      rw [BitVec.le_def] at hmore
      cases hregion : image.memory.regionAt at_ with
      | none =>
        refine ⟨fun h => Bool.noConfusion h, fun h => ?_⟩
        obtain ⟨region, hsome, -⟩ := h at_ (Nat.le_refl _) (by omega)
        rw [hregion] at hsome
        cases hsome
      | some region =>
        obtain ⟨hmem, hcontains⟩ := MemoryMap.regionAt_eq_some_iff.mp hregion
        have hfits := image.memory.fits region hmem
        obtain ⟨hlow, hhigh⟩ := (MemoryRegion.contains_iff_toNat hfits).mp hcontains
        have hbound := (MemoryRegion.bound_of_fits hfits).1
        have hend : region.endVa.toNat = region.va.toNat + region.size.toNat := by
          rw [MemoryRegion.endVa, BitVec.toNat_add, Nat.mod_eq_of_lt hbound]
        have hsame : ∀ a : U64, at_.toNat ≤ a.toNat → a.toNat < region.endVa.toNat →
            image.memory.regionAt a = some region := by
          intro a hle hlt
          refine MemoryMap.regionAt_eq_some_iff.mpr ⟨hmem, ?_⟩
          rw [MemoryRegion.contains_iff_toNat hfits]
          omega
        dsimp only
        by_cases hwritable : image.writable region = true
        · rw [if_pos hwritable]
          refine ⟨fun h => Bool.noConfusion h, fun h => ?_⟩
          obtain ⟨found, hfound, hnot⟩ := h at_ (Nat.le_refl _) (by omega)
          obtain rfl := Option.some.inj (hregion.symm.trans hfound)
          rw [hwritable] at hnot
          cases hnot
        · rw [if_neg hwritable, ih (by omega)]
          constructor
          · intro h a hle hlt
            by_cases hinside : a.toNat < region.endVa.toNat
            · exact ⟨region, hsame a hle hinside, Bool.eq_false_iff.mpr hwritable⟩
            · exact h a (by omega) hlt
          · exact fun h a hle hlt => h a (by omega) hlt

theorem ReadOnly.bound (h : image.ReadOnly va size) : va.toNat + size.toNat < 2 ^ 64 := by
  obtain ⟨hpos, hbytes⟩ := h
  by_contra hwraps
  -- The byte before the end of the address space is in no region.
  have hlast : 2 ^ 64 - 1 - va.toNat < size.toNat := by omega
  obtain ⟨region, hregion, -⟩ := hbytes _ hlast
  obtain ⟨hmem, hcontains⟩ := MemoryMap.regionAt_eq_some_iff.mp hregion
  have hfits := image.memory.fits region hmem
  obtain ⟨-, hhigh⟩ := (MemoryRegion.contains_iff_toNat hfits).mp hcontains
  have hbound := (MemoryRegion.bound_of_fits hfits).1
  have hva := va.isLt
  rw [BitVec.toNat_add, BitVec.toNat_ofNat] at hhigh
  omega

theorem walk_range (hsize : size ≠ 0#64) (hwrap : ¬ va + size < va) :
  image.walkRegions size.toNat va (va + size) = true ↔ image.ReadOnly va size := by
  have hpos : size.toNat ≠ 0 := fun hzero => hsize (BitVec.eq_of_toNat_eq hzero)
  have hva := va.isLt
  have hsizeLt := size.isLt
  have hbound : va.toNat + size.toNat < 2 ^ 64 := by
    rw [BitVec.lt_def, BitVec.toNat_add] at hwrap
    omega
  have hend : (va + size).toNat = va.toNat + size.toNat := by
    rw [BitVec.toNat_add, Nat.mod_eq_of_lt hbound]
  rw [walkRegions_iff (by omega), hend]
  constructor
  · intro h
    refine ⟨by omega, fun k hk => ?_⟩
    have haddress : (va + BitVec.ofNat 64 k).toNat = va.toNat + k := by
      rw [BitVec.toNat_add, BitVec.toNat_ofNat]
      omega
    exact h _ (by omega) (by omega)
  · rintro ⟨-, h⟩ a hlow hhigh
    have ha : va + BitVec.ofNat 64 (a.toNat - va.toNat) = a := by
      refine BitVec.eq_of_toNat_eq ?_
      rw [BitVec.toNat_add, BitVec.toNat_ofNat]
      omega
    have hbyte := h (a.toNat - va.toNat) (by omega)
    rwa [ha] at hbyte

/-- The relocation that is looked at. -/
def lastReaching (image : ProtectedImage) (va size : U64) : Option Relocation :=
  image.relocationsByAddress.reverse.find? fun r => r.reaches va size

theorem isImmutable_eq_true_iff (hwidth : image.maxRelocationWidth < 2 ^ 64) :
  image.isImmutable va size = true ↔
    image.ReadOnly va size ∧ ∀ r, image.lastReaching va size = some r →
      r.passes va size = true := by
  unfold isImmutable
  by_cases hrefused : size = 0#64 ∨ va + size < va
  · rw [if_pos hrefused]
    refine ⟨fun h => Bool.noConfusion h, fun ⟨hreadOnly, _⟩ => ?_⟩
    have hbound := hreadOnly.bound
    rcases hrefused with hzero | hwraps
    · have hpos := hreadOnly.1
      rw [hzero, BitVec.toNat_zero] at hpos
      exact absurd hpos (Nat.lt_irrefl 0)
    · rw [BitVec.lt_def, BitVec.toNat_add, Nat.mod_eq_of_lt hbound] at hwraps
      omega
  · obtain ⟨hsize, hwrap⟩ := not_or.mp hrefused
    have hwalk : image.walkRegions size.toNat va (va + size) = true ↔ image.ReadOnly va size :=
      walk_range hsize hwrap
    have hfound : image.relocationOverlapping va size = image.lastReaching va size := by
      rw [BinaryImage.relocationOverlapping_eq hwidth, if_neg hsize, lastReaching]
    rw [if_neg hrefused]
    by_cases hreadOnly : image.ReadOnly va size
    · rw [if_neg (by rw [hwalk.mpr hreadOnly]; decide), hfound]
      cases image.lastReaching va size with
      | none => exact ⟨fun _ => ⟨hreadOnly, fun r hr => by cases hr⟩, fun _ => rfl⟩
      | some r =>
        refine ⟨fun h => ⟨hreadOnly, fun r' hr' => ?_⟩, fun h => h.2 r rfl⟩
        obtain rfl := Option.some.inj hr'
        exact h
    · have hnot : image.walkRegions size.toNat va (va + size) = false :=
        Bool.eq_false_iff.mpr fun h => hreadOnly (hwalk.mp h)
      rw [if_pos hnot]
      exact ⟨fun h => Bool.noConfusion h, fun h => absurd h.1 hreadOnly⟩

/-- **Immutable ranges.**  The answer is right where some byte may be written, where the
last relocation that reaches the range does not pass, and where every relocation that
overlaps it is settled. -/
theorem isImmutable_iff (image : ProtectedImage)
    (hwidth : ∀ r ∈ image.relocationsByAddress, r.width < 2 ^ 32) (va size : U64) :
    (image.isImmutable va size = true → image.Immutable va size) ↔
      (¬ image.ReadOnly va size ∨
        (∃ r, image.lastReaching va size = some r ∧ r.passes va size = false) ∨
        ∀ r ∈ image.relocationsByAddress, r.Overlaps va size → r.Settled va size) := by
  have hmax : image.maxRelocationWidth < 2 ^ 64 :=
    Nat.lt_of_le_of_lt
      (BinaryImage.maxRelocationWidth_le fun r hr => Nat.le_of_lt (hwidth r hr))
      (by decide : 2 ^ 32 < 2 ^ 64)
  rw [isImmutable_eq_true_iff hmax]
  constructor
  · intro h
    by_cases hreadOnly : image.ReadOnly va size
    · by_cases hpasses : ∀ r, image.lastReaching va size = some r → r.passes va size = true
      · exact .inr (.inr (h ⟨hreadOnly, hpasses⟩).settled)
      · simp only [not_forall] at hpasses
        obtain ⟨r, hr, hfails⟩ := hpasses
        exact .inr (.inl ⟨r, hr, Bool.eq_false_iff.mpr hfails⟩)
    · exact .inl hreadOnly
  · rintro (hwritten | ⟨r, hr, hfails⟩ | hsettled) ⟨hreadOnly, hpasses⟩
    · exact absurd hreadOnly hwritten
    · rw [hpasses r hr] at hfails
      cases hfails
    · exact ⟨hreadOnly, hsettled⟩

/-- A read-only table of two pointers: a binding and a rebase behind it. -/
def bindingImage : ProtectedImage where
  memory := ⟨[], [⟨0x1000#64, 16#64, 0#64, 0#64⟩], by decide, by simp⟩
  endian := .little
  relocationsByAddress :=
    [{ Relocation.unresolved with va := 0x1000#64, kind := .gotSlot },
      { Relocation.unresolved with
          va := 0x1008#64, kind := .relative, value := 0x2000#64, hasValue := true }]
  sorted := by decide
  writable := fun _ => false

/-- The rebase hides the binding. -/
theorem hidden_binding_accepted :
    bindingImage.isImmutable 0x1000#64 16#64 = true ∧
      ¬ bindingImage.Immutable 0x1000#64 16#64 := by
  refine ⟨by decide, fun h => ?_⟩
  have hoverlaps : ({ Relocation.unresolved with
      va := 0x1000#64, kind := .gotSlot } : Relocation).Overlaps 0x1000#64 16#64 := by
    unfold Relocation.Overlaps
    decide
  have hsettled := h.settled _ (List.mem_cons_self ..) hoverlaps
  exact absurd hsettled.kind (by decide)

/-- The rebase alone is right. -/
theorem isImmutable_iff_rebase : bindingImage.Immutable 0x1008#64 8#64 := by
  refine (isImmutable_iff bindingImage (by decide) 0x1008#64 8#64).mpr (.inr (.inr ?_)) (by decide)
  intro r hr hoverlaps
  rcases List.mem_cons.mp hr with rfl | hr
  · exact absurd hoverlaps.2.2 (by decide)
  · obtain rfl := List.mem_singleton.mp hr
    exact ⟨rfl, rfl, by decide, by decide⟩

end ProtectedImage

end Xdec

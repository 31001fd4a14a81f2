import Xdec.StackAlias
import Xdec.StackMemory

/-!
# Escaped stack addresses

An address in the frame that is passed, stored, returned or merged is reported as an
escape, with the bytes behind it that stores of the function make part of the same
object: `StackEscapeMap` grows each region by the stores that touch it, until none does.

`Grown` says how far a region can grow; a region computed goes as far
(`mem_regions_of_grown`).
-/

namespace Xdec

namespace IlFunction

/-- All operations, in block order. -/
def allOps (f : IlFunction) : List Op := f.blocks.flatMap f.blockOps

end IlFunction

namespace StackEscape

/-- The displacement of an address that is a slot. -/
def slotDelta (f : IlFunction) (address : Expr) : Option Int :=
  match StackFrame.classify f address with
  | .stackSlot delta => some delta
  | _ => none

/-- The address of a load or a store does not escape by it. -/
def isOwnAddressOperand (code : OpCode) (index : Nat) : Bool :=
  (code == .load || code == .store) && index == 0

/-- Where a store writes, and how many bytes. -/
structure StoreSpan where
  delta : Int
  widthBytes : Nat
deriving DecidableEq

def widthBytes (op : Op) : Nat := max (op.type.bits / 8) 1

section Map

variable (f : IlFunction)

def storeSpans : List StoreSpan :=
  f.allOps.filterMap fun op =>
    if op.code = .store then (op.operands[0]?.bind (slotDelta f)).map (⟨·, widthBytes op⟩)
    else none

/-- The addresses that are operands of anything else. -/
def pointEscapes : List Int :=
  (f.allOps.flatMap fun op => op.operands.zipIdx.filterMap fun operand =>
    if isOwnAddressOperand op.code operand.2 then none else slotDelta f operand.1).eraseDups

/-- A span that touches the region extends it. -/
def growSpan (base : Int) (reached : Nat) (span : StoreSpan) : Nat :=
  if span.delta < base then reached
  else
    let offset := (span.delta - base).toNat
    if reached < offset then reached else max reached (offset + span.widthBytes)

def growPass (base : Int) (spans : List StoreSpan) (reached : Nat) : Nat :=
  spans.foldl (growSpan base) reached

/-- The passes until one changes nothing. -/
def growRegion (base : Int) (spans : List StoreSpan) : Nat → Nat → Option Nat
  | 0, _ => none
  | fuel + 1, reached =>
    let grown := growPass base spans reached
    if grown = reached then some reached else growRegion base spans fuel grown

/-- An escaped address, and how many bytes from it on are reached. -/
structure StackEscapeRegion where
  baseDelta : Int
  sizeBytes : Nat
deriving DecidableEq

/-- `StackEscapeMap::compute`. -/
def compute : Option (List StackEscapeRegion) :=
  (pointEscapes f).mapM fun base =>
    (growRegion base (storeSpans f) ((storeSpans f).length + 1) 0).map fun reached =>
      ⟨base, max reached 1⟩

end Map

def isEscaped (regions : List StackEscapeRegion) (delta : Int) : Bool :=
  regions.any fun region =>
    decide (region.baseDelta ≤ delta ∧ delta < region.baseDelta + region.sizeBytes)

/-! ## How far a region grows -/

/-- The sizes a region can have: nothing, and what a store that touches it adds. -/
inductive Grown (spans : List StoreSpan) (base : Int) : Nat → Prop
  | none : Grown spans base 0
  | span {reached : Nat} {span : StoreSpan} (h : Grown spans base reached) (hspan : span ∈ spans)
      (hbase : base ≤ span.delta) (htouches : (span.delta - base).toNat ≤ reached) :
      Grown spans base (max reached ((span.delta - base).toNat + span.widthBytes))

section Growth

variable {base : Int} {spans : List StoreSpan} {reached : Nat}

theorem le_growSpan (reached : Nat) (span : StoreSpan) : reached ≤ growSpan base reached span := by
  unfold growSpan
  split
  · exact Nat.le_refl _
  · dsimp only
    split
    · exact Nat.le_refl _
    · exact Nat.le_max_left ..

theorem le_growPass (spans : List StoreSpan) (reached : Nat) :
  reached ≤ growPass base spans reached := by
  induction spans generalizing reached with
  | nil => exact Nat.le_refl _
  | cons span spans ih => exact Nat.le_trans (le_growSpan reached span) (ih _)

theorem growSpan_of_growPass (h : growPass base spans reached = reached) :
  ∀ span ∈ spans, growSpan base reached span = reached := by
  induction spans with
  | nil => exact fun _ hspan => nomatch hspan
  | cons span spans ih =>
    have hfirst : growSpan base reached span = reached := by
      refine Nat.le_antisymm ?_ (le_growSpan reached span)
      exact Nat.le_trans (le_growPass spans _) (Nat.le_of_eq h)
    have hrest : growPass base spans reached = reached := by
      rw [growPass, List.foldl_cons, hfirst] at h
      exact h
    intro other hother
    rcases List.mem_cons.mp hother with rfl | hother
    · exact hfirst
    · exact ih hrest other hother

/-- So nothing the region can grow to goes further. -/
theorem Grown.le (h : growPass base spans reached = reached) {size : Nat}
  (hgrown : Grown spans base size) : size ≤ reached := by
  induction hgrown with
  | none => exact Nat.zero_le _
  | @span size span _ hspan hbase htouches ih =>
    have hsame := growSpan_of_growPass h span hspan
    rw [growSpan, if_neg (by omega), if_neg (by omega)] at hsame
    omega

/-- Where a pass goes further, it goes to the end of a span. -/
theorem growPass_reaches (spans : List StoreSpan) (reached : Nat) :
  growPass base spans reached = reached ∨ ∃ span ∈ spans, base ≤ span.delta ∧
    growPass base spans reached = (span.delta - base).toNat + span.widthBytes := by
  induction spans generalizing reached with
  | nil => exact .inl rfl
  | cons span spans ih =>
    have hstep : growPass base (span :: spans) reached =
        growPass base spans (growSpan base reached span) := rfl
    rw [hstep]
    rcases ih (growSpan base reached span) with hsame | ⟨other, hother, hbase, hreach⟩
    · rw [hsame]
      unfold growSpan
      split
      · exact .inl rfl
      · dsimp only
        split
        · exact .inl rfl
        · rcases Nat.le_total ((span.delta - base).toNat + span.widthBytes) reached with hle | hle
          · exact .inl (Nat.max_eq_left hle)
          · exact .inr ⟨span, List.mem_cons_self, by omega, Nat.max_eq_right hle⟩
    · exact .inr ⟨other, List.mem_cons_of_mem span hother, hbase, hreach⟩

/-- The spans that end behind the region. -/
def beyond (base : Int) (spans : List StoreSpan) (reached : Nat) : List StoreSpan :=
  spans.filter fun span => reached < (span.delta - base).toNat + span.widthBytes

/-- Every pass but the last leaves one span fewer behind the region. -/
theorem growRegion_isSome {fuel : Nat} (hfuel : (beyond base spans reached).length < fuel) :
  ∃ size, growRegion base spans fuel reached = some size ∧
    growPass base spans size = size := by
  induction fuel generalizing reached with
  | zero => exact absurd hfuel (Nat.not_lt_zero _)
  | succ fuel ih =>
    rw [growRegion]
    split
    · rename_i hsame
      exact ⟨reached, rfl, hsame⟩
    · rename_i hgrew
      have hlt : reached < growPass base spans reached :=
        Nat.lt_of_le_of_ne (le_growPass spans reached) (Ne.symm hgrew)
      refine ih ?_
      obtain ⟨span, hspan, -, hreach⟩ := (growPass_reaches spans reached).resolve_left hgrew
      have hsub : (beyond base spans (growPass base spans reached)).Sublist
          (beyond base spans reached) := by
        refine List.monotone_filter_right spans fun other hother => ?_
        have := of_decide_eq_true hother
        exact decide_eq_true (by omega)
      have hin : span ∈ beyond base spans reached :=
        List.mem_filter.mpr ⟨hspan, decide_eq_true (by omega)⟩
      have hout : span ∉ beyond base spans (growPass base spans reached) := fun hmem => by
        have := of_decide_eq_true (List.mem_filter.mp hmem).2
        omega
      have hne : beyond base spans (growPass base spans reached) ≠ beyond base spans reached :=
        fun heq => hout (heq ▸ hin)
      have hshorter := Nat.lt_of_le_of_ne hsub.length_le fun heq =>
        hne (hsub.eq_of_length heq)
      omega

/-- No region ends behind its spans. -/
theorem Grown.bound {size : Nat} {limit : Int} (hgrown : Grown spans base size)
  (hbase : base ≤ limit) (hspans : ∀ span ∈ spans, span.delta + span.widthBytes ≤ limit) :
  base + size ≤ limit := by
  induction hgrown with
  | none => simpa using hbase
  | @span size span _ hspan hle _ ih =>
    have := hspans span hspan
    omega

end Growth

/-- **Regions.**  The escapes are computed, and every escaped address has a region that is
as large as it can grow. -/
theorem mem_regions_of_grown (f : IlFunction) : ∃ regions, compute f = some regions ∧
  ∀ base ∈ pointEscapes f, ∀ size, Grown (storeSpans f) base size →
    ∃ region ∈ regions, region.baseDelta = base ∧ max size 1 ≤ region.sizeBytes := by
  have hregion : ∀ base, ∃ size,
      growRegion base (storeSpans f) ((storeSpans f).length + 1) 0 = some size ∧
        growPass base (storeSpans f) size = size := fun base =>
    growRegion_isSome (Nat.lt_succ_of_le (List.length_filter_le _ _))
  have hmap : ∀ bases : List Int, ∃ regions : List StackEscapeRegion,
      (bases.mapM fun base =>
        (growRegion base (storeSpans f) ((storeSpans f).length + 1) 0).map fun reached =>
          (⟨base, max reached 1⟩ : StackEscapeRegion)) = some regions ∧
      ∀ base ∈ bases, ∀ size, Grown (storeSpans f) base size →
        ∃ region ∈ regions, region.baseDelta = base ∧ max size 1 ≤ region.sizeBytes := by
    intro bases
    induction bases with
    | nil => exact ⟨[], rfl, fun _ hbase => nomatch hbase⟩
    | cons base bases ih =>
      obtain ⟨regions, hregions, hall⟩ := ih
      obtain ⟨reached, hreached, hfixed⟩ := hregion base
      refine ⟨⟨base, max reached 1⟩ :: regions, ?_, fun other hother size hgrown => ?_⟩
      · rw [List.mapM_cons, hreached, hregions]
        rfl
      · rcases List.mem_cons.mp hother with rfl | hother
        · have hle := hgrown.le hfixed
          refine ⟨_, List.mem_cons_self, rfl, ?_⟩
          dsimp only
          omega
        · obtain ⟨region, hmem, hbase, hsize⟩ := hall other hother size hgrown
          exact ⟨region, List.mem_cons_of_mem _ hmem, hbase, hsize⟩
  exact hmap (pointEscapes f)

end StackEscape

end Xdec

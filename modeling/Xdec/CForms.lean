import Xdec.ExprPrinter

/-!
# Conversions between the types of C

What C's conversions do to the integer types a number can be printed in: a value that is
not negative survives the conversion to a common type, and the conversion to the signed
type of a width gives the signed reading.
-/

namespace Xdec

/-- Widths C has an integer type for. -/
def CWidth (w : Nat) : Prop := w = 1 ∨ w = 8 ∨ w = 16 ∨ w = 32 ∨ w = 64

section Conversions

variable {w n : Nat} {s t : CType} {v x y : Int}

theorem CWidth.pos (h : CWidth w) : 0 < w := by
  unfold CWidth at h
  omega

theorem intType_std (h : CWidth w) (b : Bool) : (intType w b).Std := by
  unfold intType CType.Std CType.bool
  unfold CWidth at h
  split
  · exact Or.inl ⟨rfl, rfl⟩
  · simp only
    omega

theorem intType_of_ne (h : w ≠ 1) (b : Bool) : intType w b = ⟨w, b⟩ := by
  unfold intType
  rw [if_neg h]

theorem convert_signed_eq (hw : CWidth w) (hne : w ≠ 1) (hn : n < 2 ^ w) (h : v ≡ n [ZMOD 2 ^ w]) :
  (intType w true).convert v = sgn w n := by
  have hstd := intType_std hw true
  have hr := CType.convert_inRange (v := v) hstd
  rw [intType_of_ne hne] at hr ⊢
  have hrange := (CType.inRange_signed rfl).mp hr
  refine eq_sgn hw.pos hrange.1 hrange.2 ?_
  have hmod : CType.convert ⟨w, true⟩ v % 2 ^ w = v % 2 ^ w := CType.convert_emod hne
  rw [hmod, h.eq, Int.emod_eq_of_lt (by omega) (by exact_mod_cast hn)]

theorem sgn_inRange (hw : CWidth w) (hne : w ≠ 1) (hn : n < 2 ^ w) :
  (intType w true).InRange (sgn w n) := by
  rw [intType_of_ne hne, CType.inRange_signed rfl]
  exact sgn_range hw.pos hn

/-! ## The common type -/

/-- A value that is not negative survives the conversion to a common type. -/
theorem convert_nonneg_left (hs : s.Std) (ht : t.Std) (hx : s.InRange x) (h0 : 0 ≤ x) :
  (CType.common s t).convert x = x := by
  have hwide := CType.wide_common hs ht
  cases hsg : (CType.common s t).signed with
  | true =>
    exact CType.convert_of_inRange hwide.std (CType.inRange_common_left hs ht hx hsg)
  | false =>
    have hne : (CType.common s t).bits ≠ 1 := by
      unfold CType.Wide at hwide
      omega
    have hle : s.bits ≤ (CType.common s t).bits := by
      have h1 := CType.bits_le_promote (t := s)
      have h2 := CType.common_bits (s := s) (t := t)
      omega
    have hlt : x < 2 ^ s.bits := by
      unfold CType.InRange at hx
      split at hx
      · have := two_pow_half_int hs.pos
        omega
      · exact hx.2
    have hpow : (2 : Int) ^ s.bits ≤ 2 ^ (CType.common s t).bits :=
      pow_le_pow_right₀ (by omega) hle
    rw [CType.convert_unsigned hsg hne, Int.emod_eq_of_lt h0 (by omega)]

theorem convert_nonneg_right (hs : s.Std) (ht : t.Std) (hy : t.InRange y) (h0 : 0 ≤ y) :
  (CType.common s t).convert y = y := by
  rw [CType.common_comm hs ht]
  exact convert_nonneg_left ht hs hy h0

theorem common_signed (hss : s.signed = true) (hts : t.signed = true) :
  (CType.common s t).signed = true := by
  unfold CType.common CType.promote CType.int
  grind

end Conversions

end Xdec

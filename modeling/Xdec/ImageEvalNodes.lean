import Xdec.Denote
import Xdec.ImageEval

/-!
# What the evaluator's arithmetic computes

The evaluator computes on 64-bit words where the interpreter computes on pairs.
At widths up to 64 the two agree operator by operator, except that the
interpreter cuts a shift amount to 32 bits and the evaluator reads the sign of a
compared operand at the width of the result.
-/

namespace Xdec

theorem maskTo_eq (width : Nat) (value : U64) : maskTo width value = zeroExtend value width := by
  unfold maskTo zeroExtend lowMask
  split
  · exact BitVec.and_allOnes.symm
  · rfl

@[simp] theorem maskTo_toNat (width : Nat) (value : U64) :
  (maskTo width value).toNat = value.toNat % 2 ^ width := by
  rw [maskTo_eq, zeroExtend_toNat]

theorem maskTo_lt (width : Nat) (value : U64) : (maskTo width value).toNat < 2 ^ width := by
  rw [maskTo_toNat]
  exact Nat.mod_lt _ (Nat.two_pow_pos width)

theorem eq_word {v : U128} {x : U64} (h : v.toNat = x.toNat) : v = word x :=
  U128.eq_of_toNat_eq (by rw [h, word_toNat])

theorem mask_word (x : U64) (width : Nat) : U128.mask (word x) width = word (maskTo width x) :=
  eq_word (by simp [word_toNat])

section Words

variable {x y : U64} {width : Nat}

theorem mod_two_pow_64 (hle : width ≤ 64) (n : Nat) : n % 2 ^ 64 % 2 ^ width = n % 2 ^ width :=
  Nat.mod_mod_of_dvd n (Nat.pow_dvd_pow 2 hle)

theorem add_word (hle : width ≤ 64) :
  (U128.add (word x) (word y) width).1 = word (maskTo width (x + y)) := by
  apply eq_word
  rw [U128.add_toNat (by omega), maskTo_toNat, BitVec.toNat_add, mod_two_pow_64 hle, word_toNat,
    word_toNat]

theorem sub_word (hle : width ≤ 64) (hy : y.toNat < 2 ^ width) :
  U128.sub (word x) (word y) width = word (maskTo width (x - y)) := by
  apply eq_word
  rw [← word_toNat y] at hy
  rw [U128.sub_toNat_of_lt (by omega) hy, maskTo_eq, zeroExtend_sub_toNat hle (word_toNat y ▸ hy),
    word_toNat, word_toNat]

theorem mul_word (hle : width ≤ 64) :
  U128.mulLow (word x) (word y) width = word (maskTo width (x * y)) := by
  apply eq_word
  rw [U128.mulLow_toNat (by omega), maskTo_toNat, BitVec.toNat_mul, mod_two_pow_64 hle, word_toNat,
    word_toNat]

theorem and_word : U128.mask (U128.and (word x) (word y)) width = word (maskTo width (x &&& y)) :=
  eq_word (by simp [word_toNat])

theorem or_word : U128.mask (U128.or (word x) (word y)) width = word (maskTo width (x ||| y)) :=
  eq_word (by simp [word_toNat])

theorem xor_word : U128.mask (U128.xor (word x) (word y)) width = word (maskTo width (x ^^^ y)) :=
  eq_word (by simp [word_toNat])

theorem not_word (hle : width ≤ 64) (hx : x.toNat < 2 ^ width) :
  U128.xor (word x) (U128.maskOf width) = word (maskTo width (~~~x)) := by
  have hself : x &&& lowMask width = x := zeroExtend_of_le hx
  have hmask : U128.maskOf width = word (lowMask width) :=
    eq_word (by
      rw [U128.maskOf_toNat, lowMask_toNat, Nat.min_eq_left hle, Nat.min_eq_left (by omega)])
  have hword : x ^^^ lowMask width = ~~~x &&& lowMask width := by
    calc x ^^^ lowMask width = (x &&& lowMask width) ^^^ lowMask width := by rw [hself]
      _ = ~~~x &&& lowMask width := by
        ext i hi
        cases hb : x[i] <;> simp [hb]
  rw [hmask, maskTo_eq, zeroExtend, ← hword]
  exact eq_word (by simp [word_toNat])

theorem neg_word (hle : width ≤ 64) (hx : x.toNat < 2 ^ width) :
  U128.sub U128.zero (word x) width = word (maskTo width (~~~x + 1#64)) := by
  have hneg : ~~~x + 1#64 = 0#64 - x := by
    rw [BitVec.zero_sub, BitVec.neg_eq_not_add]
  rw [hneg]
  exact sub_word hle hx

theorem shl_word (hle : width ≤ 64) :
  U128.shl (word x) width y.toNat =
    word (maskTo width (if y.toNat ≥ width then 0#64 else x <<< y.toNat)) := by
  apply eq_word
  rw [U128.shl_toNat (by omega), maskTo_toNat, word_toNat]
  split
  · rename_i h
    obtain ⟨k, hk⟩ := Nat.pow_dvd_pow 2 h
    rw [hk, ← Nat.mul_assoc, Nat.mul_comm x.toNat, Nat.mul_assoc, Nat.mul_mod_right]
    simp
  · rw [BitVec.toNat_shiftLeft, Nat.shiftLeft_eq, mod_two_pow_64 hle]

theorem shrU_word (hx : x.toNat < 2 ^ width) :
  U128.shrU (word x) width y.toNat =
    word (maskTo width (if y.toNat ≥ width then 0#64 else maskTo width x >>> y.toNat)) := by
  apply eq_word
  rw [U128.shrU_toNat (by rwa [word_toNat]), maskTo_toNat, word_toNat]
  split
  · rename_i h
    have hlt : x.toNat < 2 ^ y.toNat := Nat.lt_of_lt_of_le hx (Nat.pow_le_pow_right (by decide) h)
    rw [Nat.div_eq_of_lt hlt]
    simp
  · rw [BitVec.toNat_ushiftRight, Nat.shiftRight_eq_div_pow, maskTo_toNat, Nat.mod_eq_of_lt hx,
      Nat.mod_eq_of_lt (Nat.lt_of_le_of_lt (Nat.div_le_self ..) hx)]

private theorem complement_split {p q w rest : Nat} (hq : q < p) (hp : p ≤ w) (hw : w ≤ 2 ^ 64)
  (hrest : 2 ^ 64 - w = rest) : 2 ^ 64 - 1 - (p - (q + 1)) = q + (w - p) + rest := by
  omega

theorem shrS_word (hpos : 0 < width) (hle : width ≤ 64) (hx : x.toNat < 2 ^ width) :
  U128.shrS (word x) width y.toNat =
    word (maskTo width (if y.toNat ≥ width then
      (if (signExtend x width).msb then ~~~0#64 else 0#64)
      else (signExtend x width).sshiftRight y.toNat)) := by
  apply eq_word
  have hsign := signExtend_toNat hpos hle hx
  have hpow : 2 ^ width ≤ 2 ^ 64 := Nat.pow_le_pow_right (by decide) hle
  have hhalf : 2 ^ width = 2 * 2 ^ (width - 1) := by
    rw [← Nat.pow_succ', Nat.succ_eq_add_one, Nat.sub_add_cancel hpos]
  rw [U128.shrS_toNat hpos (by omega) (by rwa [word_toNat]), maskTo_toNat, word_toNat]
  by_cases hneg : x.toNat < 2 ^ (width - 1)
  · rw [if_pos hneg] at hsign
    have hself : signExtend x width = x := BitVec.eq_of_toNat_eq hsign
    have hmsb : x.msb = false := by
      rw [BitVec.msb_eq_false_iff_two_mul_lt]
      omega
    rw [if_pos hneg, hself, hmsb]
    split
    · rename_i h
      have hlt : x.toNat < 2 ^ y.toNat :=
        Nat.lt_of_lt_of_le hx (Nat.pow_le_pow_right (by decide) h)
      rw [Nat.div_eq_of_lt hlt]
      simp
    · rw [BitVec.sshiftRight_eq_of_msb_false hmsb, BitVec.toNat_ushiftRight,
        Nat.shiftRight_eq_div_pow, Nat.mod_eq_of_lt (Nat.lt_of_le_of_lt (Nat.div_le_self ..) hx)]
  · rw [if_neg hneg] at hsign
    have hmsb : (signExtend x width).msb = true := by
      rw [BitVec.msb_eq_true_iff_two_mul_ge, hsign]
      omega
    rw [if_neg hneg, hmsb]
    split
    · rename_i h
      have hlt : x.toNat < 2 ^ y.toNat :=
        Nat.lt_of_lt_of_le hx (Nat.pow_le_pow_right (by decide) h)
      have hones := zeroExtend_not_lowMask_toNat (Nat.zero_le width) hle
      rw [zeroExtend_toNat] at hones
      rw [Nat.div_eq_of_lt hlt, Nat.sub_eq_zero_of_le h, Nat.zero_add]
      exact hones.symm
    · rename_i h
      have hsplit : 2 ^ width = 2 ^ y.toNat * 2 ^ (width - y.toNat) := by
        rw [← Nat.pow_add, Nat.add_sub_cancel' (by omega)]
      have hdiv := Nat.mul_sub_div x.toNat (2 ^ y.toNat) (2 ^ (width - y.toNat)) (hsplit ▸ hx)
      rw [← hsplit] at hdiv
      have hrest : x.toNat / 2 ^ y.toNat < 2 ^ (width - y.toNat) := by
        rw [Nat.div_lt_iff_lt_mul (Nat.two_pow_pos _), Nat.mul_comm, ← hsplit]
        exact hx
      have hle' : 2 ^ (width - y.toNat) ≤ 2 ^ width :=
        Nat.pow_le_pow_right (by decide) (Nat.sub_le ..)
      have hcompl : 2 ^ 64 - 1 - (signExtend x width).toNat = 2 ^ width - (x.toNat + 1) := by
        omega
      obtain ⟨k, hk⟩ := Nat.dvd_sub (Nat.pow_dvd_pow 2 hle) (dvd_refl (2 ^ width))
      have hsum : 2 ^ 64 - 1 - (2 ^ (width - y.toNat) - (x.toNat / 2 ^ y.toNat + 1)) =
          x.toNat / 2 ^ y.toNat + (2 ^ width - 2 ^ (width - y.toNat)) + 2 ^ width * k :=
        complement_split hrest hle' hpow hk
      rw [BitVec.sshiftRight_eq_of_msb_true hmsb, BitVec.toNat_not, BitVec.toNat_ushiftRight,
        BitVec.toNat_not, Nat.shiftRight_eq_div_pow, hcompl, hdiv, hsum, Nat.add_mul_mod_self_left,
        Nat.mod_eq_of_lt (by omega)]

theorem rotR_word (hpos : 0 < width) (hle : width ≤ 64) (hx : x.toNat < 2 ^ width) (amount : Nat) :
  U128.rotR (word x) width amount = word (maskTo width (rotateRight x width amount)) := by
  have hself : zeroExtend x width = x := zeroExtend_of_le hx
  have hn : amount % width < width := Nat.mod_lt _ hpos
  unfold U128.rotR rotateRight
  simp only [if_neg (Nat.ne_of_gt hpos), hself]
  split
  · exact mask_word x width
  · rename_i h
    have hright : U128.shrU (word x) width (amount % width) = word (x >>> (amount % width)) :=
      eq_word (by
        rw [U128.shrU_toNat (by rwa [word_toNat]), word_toNat, BitVec.toNat_ushiftRight,
          Nat.shiftRight_eq_div_pow])
    have hleft : U128.shl (word x) width (width - amount % width) =
        word (maskTo width (x <<< (width - amount % width))) :=
      eq_word (by
        rw [U128.shl_toNat (by omega), word_toNat, maskTo_toNat, BitVec.toNat_shiftLeft,
          Nat.shiftLeft_eq, mod_two_pow_64 hle])
    rw [hright, hleft, or_word]
    congr 1
    simp only [maskTo_eq, zeroExtend]
    ext i hi
    simp only [BitVec.getElem_and, BitVec.getElem_or]
    cases (lowMask width)[i] <;> simp

theorem rotL_word (hpos : 0 < width) (hle : width ≤ 64) (hx : x.toNat < 2 ^ width) (amount : Nat) :
  U128.rotL (word x) width amount = word (maskTo width (rotateLeft x width amount)) := by
  unfold U128.rotL rotateLeft
  rw [if_neg (Nat.ne_of_gt hpos)]
  exact rotR_word hpos hle hx _

theorem zext_word {fromWidth : Nat} (hle : fromWidth ≤ width) (hx : x.toNat < 2 ^ fromWidth) :
  U128.zext (word x) fromWidth width = word (maskTo width x) := by
  apply eq_word
  have hlt : x.toNat < 2 ^ width := Nat.lt_of_lt_of_le hx (Nat.pow_le_pow_right (by decide) hle)
  rw [U128.zext_toNat (by rwa [word_toNat]), maskTo_toNat, word_toNat, Nat.mod_eq_of_lt hlt]

theorem sext_word {fromWidth : Nat} (hfrom : fromWidth ≤ width) (hle : width ≤ 64)
  (hx : x.toNat < 2 ^ fromWidth) :
  U128.sext (word x) fromWidth width = word (maskTo width (signExtend x fromWidth)) := by
  apply eq_word
  by_cases hzero : fromWidth = 0
  · -- Nothing but zero has no width.
    subst hzero
    obtain rfl : x = 0#64 := BitVec.eq_of_toNat_eq (by simpa using hx)
    simp [U128.sext, U128.mask, U128.signBit, word, U128.toNat, signExtend]
  · have hpos : 0 < fromWidth := Nat.pos_of_ne_zero hzero
    have hpow : 2 ^ fromWidth ≤ 2 ^ width := Nat.pow_le_pow_right (by decide) hfrom
    have hpow' : 2 ^ width ≤ 2 ^ 64 := Nat.pow_le_pow_right (by decide) hle
    rw [U128.sext_toNat hpos hfrom (by omega) (by rwa [word_toNat]), maskTo_toNat, word_toNat,
      signExtend_toNat hpos (by omega) hx]
    split
    · rw [Nat.mod_eq_of_lt (by omega)]
    · obtain ⟨k, hk⟩ := Nat.dvd_sub (Nat.pow_dvd_pow 2 hle) (dvd_refl (2 ^ width))
      have hsum : x.toNat + (2 ^ 64 - 2 ^ fromWidth) =
          x.toNat + (2 ^ width - 2 ^ fromWidth) + 2 ^ width * k := by omega
      rw [hsum, Nat.add_mul_mod_self_left, Nat.mod_eq_of_lt (by omega)]

theorem extract_word {sourceWidth : Nat} (hx : x.toNat < 2 ^ sourceWidth) (lo : Nat) :
  U128.extract (word x) sourceWidth lo width = word (maskTo width (extractBits x lo width)) := by
  apply eq_word
  rw [U128.extract_toNat (by rwa [word_toNat]), maskTo_toNat, word_toNat]
  unfold extractBits
  split
  · rename_i h
    have hlt : x.toNat < 2 ^ lo :=
      Nat.lt_of_lt_of_le x.isLt (Nat.pow_le_pow_right (by decide) h)
    rw [Nat.div_eq_of_lt hlt]
    rfl
  · rw [zeroExtend_toNat, BitVec.toNat_ushiftRight, Nat.shiftRight_eq_div_pow, Nat.mod_mod]

end Words

section Comparisons

variable {x y : U64} {width : Nat}

theorem boolValue_eq (b : Bool) : boolValue b = word (maskTo 1 (ImageEval.bit b)) := by
  cases b <;> rfl

theorem cmpLtU_word : (U128.cmpU (word x) (word y) == .lt) = x.ult y := by
  rw [U128.cmpU_eq, word_toNat, word_toNat, BitVec.ult, Bool.eq_iff_iff]
  simp [Nat.compare_eq_lt]

theorem cmpLeU_word : (U128.cmpU (word x) (word y) != .gt) = x.ule y := by
  rw [U128.cmpU_eq, word_toNat, word_toNat, BitVec.ule, Bool.eq_iff_iff]
  simp [Nat.compare_ne_gt]

/-- Operands of one bit have their sign where the result's width puts it. -/
theorem eq_zero_or_one (hx : x.toNat < 2 ^ width) (hwidth : width ≤ 1) : x = 0#64 ∨ x = 1#64 := by
  have hlt : x.toNat < 2 ^ 1 := Nat.lt_of_lt_of_le hx (Nat.pow_le_pow_right (by decide) hwidth)
  have hcases : x.toNat = 0 ∨ x.toNat = 1 := by omega
  rcases hcases with h | h
  · exact .inl (BitVec.eq_of_toNat_eq h)
  · exact .inr (BitVec.eq_of_toNat_eq h)

theorem cmpS_word (hx : x.toNat < 2 ^ width) (hy : y.toNat < 2 ^ width) (hwidth : width ≤ 1) :
  U128.cmpS (word x) (word y) width =
    if (signExtend x 1).slt (signExtend y 1) then .lt
    else if (signExtend x 1).sle (signExtend y 1) then .eq else .gt := by
  have hcases : width = 0 ∨ width = 1 := by omega
  rcases hcases with rfl | rfl
  · obtain rfl : x = 0#64 := BitVec.eq_of_toNat_eq (by simpa using hx)
    obtain rfl : y = 0#64 := BitVec.eq_of_toNat_eq (by simpa using hy)
    rfl
  · rcases eq_zero_or_one hx (Nat.le_refl 1) with rfl | rfl <;>
      rcases eq_zero_or_one hy (Nat.le_refl 1) with rfl | rfl <;> decide

end Comparisons

/-! ## Membership -/

/-- The contents are one of the values, and fit the width. -/
def ValueSet.Holds (width : Nat) (v : U128) : ValueSet → Prop
  | .top => True
  | .of values => ∃ x ∈ values, v = word x ∧ x.toNat < 2 ^ width

namespace ValueSet

variable {s s' : ValueSet} {width : Nat} {v : U128} {x : U64}

theorem insert_of (values : List U64) (y : U64) : (ValueSet.of values).insert y =
  if y ∈ values then .of values
  else if values.length ≥ kCap then .top else .of (values ++ [y]) := rfl

theorem Holds.insert (h : s.Holds width v) (y : U64) : (s.insert y).Holds width v := by
  cases s with
  | top => trivial
  | of values =>
    obtain ⟨z, hz, hv⟩ := h
    rw [insert_of]
    split
    · exact ⟨z, hz, hv⟩
    · split
      · trivial
      · exact ⟨z, List.mem_append_left _ hz, hv⟩

theorem holds_insert (hx : x.toNat < 2 ^ width) : (s.insert x).Holds width (word x) := by
  cases s with
  | top => trivial
  | of values =>
    rw [insert_of]
    split
    · rename_i hmem
      exact ⟨x, hmem, rfl, hx⟩
    · split
      · trivial
      · exact ⟨x, List.mem_append_right _ (List.mem_singleton_self x), rfl, hx⟩

/-- A loop that only inserts keeps what is there. -/
theorem Holds.foldl {α : Type} {step : ValueSet → α → ValueSet}
  (hstep : ∀ t a, t.Holds width v → (step t a).Holds width v) (as : List α)
  (h : s.Holds width v) : (as.foldl step s).Holds width v := by
  induction as generalizing s with
  | nil => exact h
  | cons a as ih => exact ih (hstep s a h)

theorem holds_foldl {α : Type} {step : ValueSet → α → ValueSet}
  (hstep : ∀ t a, t.Holds width v → (step t a).Holds width v) {as : List α} {a : α}
  (ha : a ∈ as) (hnew : ∀ t, (step t a).Holds width v) : (as.foldl step s).Holds width v := by
  induction as generalizing s with
  | nil => cases ha
  | cons a' as ih =>
    rcases List.mem_cons.mp ha with rfl | ha
    · exact Holds.foldl hstep as (hnew s)
    · exact ih ha

theorem Holds.unite_left (h : s.Holds width v) : (s.unite s').Holds width v := by
  cases s with
  | top => trivial
  | of values =>
    cases s' with
    | top => trivial
    | of others => exact Holds.foldl (fun t y ht => ht.insert y) others h

theorem Holds.unite_right (h : s'.Holds width v) : (s.unite s').Holds width v := by
  cases s with
  | top => trivial
  | of values =>
    cases s' with
    | top => trivial
    | of others =>
      obtain ⟨x, hx, rfl, hlt⟩ := h
      exact holds_foldl (fun t y ht => ht.insert y) hx fun t => holds_insert hlt

theorem Holds.map {from_ : Nat} {u : U128} {apply : U64 → U64} (h : s.Holds from_ u)
  (happly : widthOk width = true → ∀ x, u = word x → x.toNat < 2 ^ from_ →
    v = word (maskTo width (apply x))) : (s.map apply width).Holds width v := by
  cases s with
  | top => trivial
  | of xs =>
    obtain ⟨x, hx, hu, hlt⟩ := h
    unfold ValueSet.map
    simp only
    split
    · trivial
    · rename_i hwidth
      have hwidth : widthOk width = true := Bool.eq_true_of_not_eq_false hwidth
      rw [happly hwidth x hu hlt]
      exact holds_foldl (fun t y ht => ht.insert _) hx fun t => holds_insert (maskTo_lt ..)

theorem Holds.cross {left right : Nat} {u w : U128} {apply : U64 → U64 → U64}
  (hs : s.Holds left u) (hs' : s'.Holds right w)
  (happly : s.isTop = false → s'.isTop = false → widthOk width = true →
    ∀ x y, u = word x → w = word y → x.toNat < 2 ^ left → y.toNat < 2 ^ right →
      v = word (maskTo width (apply x y))) : (s.cross s' apply width).Holds width v := by
  cases s with
  | top => trivial
  | of xs =>
    cases s' with
    | top => trivial
    | of ys =>
      obtain ⟨x, hx, hu, hxlt⟩ := hs
      obtain ⟨y, hy, hw, hylt⟩ := hs'
      unfold ValueSet.cross
      simp only
      split
      · trivial
      · rename_i hcond
        have hwidth : widthOk width = true :=
          Bool.eq_true_of_not_eq_false fun h => hcond (.inl h)
        rw [happly rfl rfl hwidth x y hu hw hxlt hylt]
        have hkeep : ∀ (t : ValueSet) z, t.Holds width (word (maskTo width (apply x y))) →
            (ys.foldl (fun out y => out.insert (maskTo width (apply z y))) t).Holds width
              (word (maskTo width (apply x y))) :=
          fun t z ht => Holds.foldl (fun t y ht => ht.insert _) ys ht
        exact holds_foldl hkeep hx fun t =>
          holds_foldl (fun t y ht => ht.insert _) hy fun t => holds_insert (maskTo_lt ..)

end ValueSet

/-! ## Nodes -/

namespace ImageEval

open Expr

/-- What the binary operators need beside verified operands. -/
structure BinaryFair (e : Expr) (y : U64) : Prop where
  signed : e.op = .cmpLtS ∨ e.op = .cmpLeS → e.operandBits 0 ≤ 1
  shift : e.op = .shl ∨ e.op = .shrU ∨ e.op = .shrS → y.toNat < 2 ^ 32

theorem shiftAmount_word {y : U64} (hy : y.toNat < 2 ^ 32) : shiftAmount (word y) = y.toNat :=
  Nat.mod_eq_of_lt hy

theorem operandBits_binary {ctx : Ctx} {o : ExprOp} {t : Ty} {i : U64} {a b : Expr}
  (h : (binary o t i a b).nodeVerified ctx = true) :
  (o.info.result = .sameAsOperands → a.bits = t.bits ∧ b.bits = t.bits) ∧
    (o.info.result = .boolean → t.bits = 1 ∧ b.bits = a.bits) := by
  simp only [nodeVerified, Bool.and_eq_true] at h
  have hrule := h.1.2
  unfold resultRuleOk at hrule
  constructor
  · intro hsame
    simp only [op_binary, hsame, operands_binary, List.all_cons, List.all_nil, Bool.and_true,
      Bool.and_eq_true, beq_iff_eq, type_binary] at hrule
    exact ⟨by rw [bits, hrule.1], by rw [bits, hrule.2]⟩
  · intro hbool
    simp only [op_binary, hbool, operands_binary, type_binary, Bool.and_eq_true,
      beq_iff_eq, Ty.isBoolean] at hrule
    obtain ⟨⟨hkind, helement⟩, htypes⟩ := hrule
    have hvalid := h.1.1.2
    simp only [type_binary, Ty.valid, hkind, Bool.and_eq_true, beq_iff_eq] at hvalid
    exact ⟨by rw [Ty.bits, helement, hvalid.2], by rw [bits, bits, htypes]⟩

/-- **Binary operators.**  On words the evaluator computes what the interpreter does. -/
theorem binaryFunction_apply {env : Env} {ctx : Ctx} {e a b : Expr} {o : ExprOp} {t : Ty}
  {i x y : U64} {v : U128} {apply : U64 → U64 → U64} {width : Nat}
  (he : e = binary o t i a b) (hverified : e.nodeVerified ctx = true)
  (hfunction : binaryFunction o t.bits = some (apply, width)) (hwidth : widthOk width = true)
  (hx : x.toNat < 2 ^ a.bits) (hy : y.toNat < 2 ^ b.bits) (hfair : BinaryFair e y)
  (h : applyOp env e [word x, word y] = .ok v) : v = word (maskTo width (apply x y)) := by
  subst he
  obtain ⟨hsame, hbool⟩ := operandBits_binary hverified
  simp only [widthOk, Bool.and_eq_true, decide_eq_true_eq] at hwidth
  have hsigned : o = .cmpLtS ∨ o = .cmpLeS → a.bits ≤ 1 := hfair.signed
  have hshift : o = .shl ∨ o = .shrU ∨ o = .shrS → y.toNat < 2 ^ 32 := hfair.shift
  have hoperand : (binary o t i a b).operandBits 0 = a.bits := rfl
  simp only [applyOp, op_binary, hoperand] at h
  cases o <;>
    simp only [binaryFunction, reduceCtorEq, Option.some.injEq, Prod.mk.injEq] at hfunction
  case add =>
    obtain ⟨rfl, rfl⟩ := hfunction
    exact (Except.ok.inj h).symm.trans (add_word hwidth.2)
  case sub =>
    obtain ⟨rfl, rfl⟩ := hfunction
    rw [(hsame rfl).2] at hy
    exact (Except.ok.inj h).symm.trans (sub_word hwidth.2 hy)
  case mul =>
    obtain ⟨rfl, rfl⟩ := hfunction
    exact (Except.ok.inj h).symm.trans (mul_word hwidth.2)
  case and =>
    obtain ⟨rfl, rfl⟩ := hfunction
    exact (Except.ok.inj h).symm.trans and_word
  case or =>
    obtain ⟨rfl, rfl⟩ := hfunction
    exact (Except.ok.inj h).symm.trans or_word
  case xor =>
    obtain ⟨rfl, rfl⟩ := hfunction
    exact (Except.ok.inj h).symm.trans xor_word
  case shl =>
    obtain ⟨rfl, rfl⟩ := hfunction
    have hamount := shiftAmount_word (hshift (.inl rfl))
    exact (Except.ok.inj h).symm.trans (hamount ▸ shl_word hwidth.2)
  case shrU =>
    obtain ⟨rfl, rfl⟩ := hfunction
    rw [(hsame rfl).1] at hx
    have hamount := shiftAmount_word (hshift (.inr (.inl rfl)))
    exact (Except.ok.inj h).symm.trans (hamount ▸ shrU_word hx)
  case shrS =>
    obtain ⟨rfl, rfl⟩ := hfunction
    rw [(hsame rfl).1] at hx
    have hamount := shiftAmount_word (hshift (.inr (.inr rfl)))
    exact (Except.ok.inj h).symm.trans (hamount ▸ shrS_word hwidth.1 hwidth.2 hx)
  case rotR =>
    obtain ⟨rfl, rfl⟩ := hfunction
    rw [(hsame rfl).1] at hx
    exact (Except.ok.inj h).symm.trans (rotR_word hwidth.1 hwidth.2 hx _)
  case rotL =>
    obtain ⟨rfl, rfl⟩ := hfunction
    rw [(hsame rfl).1] at hx
    exact (Except.ok.inj h).symm.trans (rotL_word hwidth.1 hwidth.2 hx _)
  case cmpEq =>
    obtain ⟨rfl, rfl⟩ := hfunction
    have hhi : ((word x).hi == (word y).hi) = true := rfl
    exact (Except.ok.inj h).symm.trans (by
      simp only [List.getD_cons_zero, List.getD_cons_succ, hhi, Bool.and_true]
      exact boolValue_eq _)
  case cmpNe =>
    obtain ⟨rfl, rfl⟩ := hfunction
    have hhi : ((word x).hi != (word y).hi) = false := rfl
    exact (Except.ok.inj h).symm.trans (by
      simp only [List.getD_cons_zero, List.getD_cons_succ, hhi, Bool.or_false]
      exact boolValue_eq _)
  case cmpLtU =>
    obtain ⟨rfl, rfl⟩ := hfunction
    exact (Except.ok.inj h).symm.trans (cmpLtU_word (x := x) ▸ boolValue_eq _)
  case cmpLeU =>
    obtain ⟨rfl, rfl⟩ := hfunction
    exact (Except.ok.inj h).symm.trans (cmpLeU_word (x := x) ▸ boolValue_eq _)
  case cmpLtS =>
    obtain ⟨rfl, rfl⟩ := hfunction
    obtain ⟨hone, hab⟩ := hbool rfl
    have hcmp : (U128.cmpS (word x) (word y) a.bits == .lt) =
        (signExtend x t.bits).slt (signExtend y t.bits) := by
      rw [cmpS_word hx (hab ▸ hy) (hsigned (.inl rfl)), hone]
      split
      · rename_i hlt
        exact hlt.symm
      · rename_i hlt
        rw [Bool.eq_false_of_not_eq_true hlt]
        split <;> rfl
    exact (Except.ok.inj h).symm.trans (hcmp ▸ boolValue_eq _)
  case cmpLeS =>
    obtain ⟨rfl, rfl⟩ := hfunction
    obtain ⟨hone, hab⟩ := hbool rfl
    have hcmp : (U128.cmpS (word x) (word y) a.bits != .gt) =
        (signExtend x t.bits).sle (signExtend y t.bits) := by
      rw [cmpS_word hx (hab ▸ hy) (hsigned (.inr rfl)), hone]
      split
      · rename_i hlt
        have hle : (signExtend x 1).sle (signExtend y 1) = true := by
          rw [BitVec.sle_iff_toInt_le]
          exact Int.le_of_lt (BitVec.slt_iff_toInt_lt.mp hlt)
        exact hle.symm
      · split
        · rename_i hle
          exact hle.symm
        · rename_i hle
          exact (Bool.eq_false_of_not_eq_true hle).symm
    exact (Except.ok.inj h).symm.trans (hcmp ▸ boolValue_eq _)

end ImageEval

end Xdec

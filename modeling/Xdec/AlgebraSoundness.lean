import Xdec.Algebra
import Xdec.IdiomSoundness
import Xdec.Residues

/-!
# Soundness of the local rules

Constants are folded in a 64-bit host word.  At a width of at most 64 bits a
word that wraps has lost nothing; above it, the constant that a reassociation
computes has lost `excess` multiples of `2 ^ 64`.  Every other local rule is an
identity at every width.

`simplify` is then sound by induction over its run: a step of `rewriteOnce`
that loses nothing preserves the value of its node, and the memo holds nothing
but such replacements.
-/

namespace Xdec

namespace Algebra

open Idioms

variable {ctx : Ctx} {env : Env} {w : Nat} {op : ExprOp} {t : Ty} {i : U64}
  {a b e r x y p q : Expr} {g : Nat → Nat → Nat} {F : Nat → Nat → Nat → Nat}

/-! ## What a reassociation loses -/

/-- Borrow of a host-word difference. -/
def borrow (k k1 : U64) : Nat := if k.toNat < k1.toNat then 1 else 0

/-- Carry of a host-word sum. -/
def carry (k k1 : U64) : Nat := (k.toNat + k1.toNat) / 2 ^ 64

/-- Multiples of `2 ^ 64` lost by `reassociateAdd`. -/
def addExcess (x y : Expr) : Nat :=
  match y.asConstant, x with
  | some k, .binary o _ _ p q =>
    if k = 0#64 then 0
    else
      match q.asConstant, p.asConstant with
      | some k1, _ => if o = .add then carry k1 k else if o = .sub then borrow k k1 else 0
      | none, some k1 => if o = .sub then carry k1 k else 0
      | none, none => 0
  | _, _ => 0

/-- Multiples of `2 ^ 64` lost by `reassociateSub`. -/
def subExcess (x y : Expr) : Nat :=
  match y.asConstant, x with
  | some k, .binary o _ _ p q =>
    if k = 0#64 then 0
    else
      match q.asConstant, p.asConstant with
      | some k1, _ => if o = .sub then carry k1 k else if o = .add then borrow k1 k else 0
      | none, some k1 => if o = .sub then borrow k1 k else 0
      | none, none => 0
  | _, _ => 0

/-- Multiples of `2 ^ 64` lost by `reassociateSubMirror`. -/
def subMirrorExcess (x y : Expr) : Nat :=
  match x.asConstant, y with
  | some k, .binary o _ _ _ q =>
    if k = 0#64 then 0
    else
      match q.asConstant with
      | some k2 => if o = .sub then carry k k2 else if o = .add then borrow k k2 else 0
      | none => 0
  | _, _ => 0

/-- Multiples of `2 ^ 64` lost by `reassociateMul`. -/
def mulExcess (env : Env) (x y : Expr) : Nat :=
  match y.asConstant, x with
  | some k2, .binary .mul _ _ p q =>
    match q.asConstant with
    | some k1 => (nat env p).getD 0 * (k1.toNat * k2.toNat / 2 ^ 64)
    | none => 0
  | _, _ => 0

/-- Multiples of `2 ^ 64` the local rules lose at a node in normal order. -/
def excess (env : Env) (e : Expr) : Nat :=
  match e with
  | .binary .add _ _ x y => addExcess x y
  | .binary .sub _ _ x y => subExcess x y + subMirrorExcess x y
  | .binary .mul _ _ x y => mulExcess env x y
  | _ => 0

/-! ## Host words as residues -/

section Words

variable (k k1 : U64)

theorem cast_add_word : ((k + k1).toNat : ZMod (2 ^ w)) + (carry k k1 : Nat) * 2 ^ 64 =
  k.toNat + k1.toNat := by
  have h : (k + k1).toNat + carry k k1 * 2 ^ 64 = k.toNat + k1.toNat := by
    rw [carry, BitVec.toNat_add]
    omega
  exact_mod_cast congrArg (Nat.cast (R := ZMod (2 ^ w))) h

theorem cast_sub_word : ((k - k1).toNat : ZMod (2 ^ w)) + k1.toNat =
  k.toNat + (borrow k k1 : Nat) * 2 ^ 64 := by
  have h : (k - k1).toNat + k1.toNat = k.toNat + borrow k k1 * 2 ^ 64 := by
    have := k.isLt
    have := k1.isLt
    rw [borrow, BitVec.toNat_sub]
    split <;> omega
  exact_mod_cast congrArg (Nat.cast (R := ZMod (2 ^ w))) h

theorem cast_mul_word : ((k * k1).toNat : ZMod (2 ^ w)) +
  (k.toNat * k1.toNat / 2 ^ 64 : Nat) * 2 ^ 64 = k.toNat * k1.toNat := by
  have h : (k * k1).toNat + k.toNat * k1.toNat / 2 ^ 64 * 2 ^ 64 = k.toNat * k1.toNat := by
    rw [BitVec.toNat_mul]
    omega
  exact_mod_cast congrArg (Nat.cast (R := ZMod (2 ^ w))) h

end Words

theorem folded_typed (hpos : 0 < w) (hw : w ≤ 2048) (s : U64) :
  IntTyped ctx w (folded (.integer w) s) := .constant hpos hw _

theorem nat_folded (hw : w ≤ 128) (s : U64) :
  nat env (folded (.integer w) s) = some (s.toNat % 2 ^ w) := by
  rw [folded, Ty.bits_integer, nat_constant hw, zeroExtend_toNat, Nat.mod_mod]

@[simp] theorem need_folded (s : U64) : need (folded t s) false = 0 := need_leaf

/-! ## Readings with a condition -/

variable {c : Expr} {k : U64} {C : Env → Prop} {f : Nat → Nat}

theorem reads_const_left (he : IntTyped ctx w (.binary op t i c a))
  (hw : w ≤ 128) (hop : sameOp op = true) (hF : binSem op = some F)
  (hk : c.asConstant = some k) :
  Reads ctx w (.binary op t i c a) a a (fun v _ => F w k.toNat v) := by
  have hr := Reads.of_binary he hop hF
  refine ⟨hr.right, hr.right, hr.right_need, hr.right_need, ?_⟩
  intro env hfits n hn
  obtain ⟨u, v, hu, hv, -, hvlt, rfl⟩ := hr.nat_eq hfits hn
  have huk := (hr.left.asConstant hw hk).2.1 env
  obtain rfl := Option.some.inj (hu.symm.trans huk)
  exact ⟨v, v, hv, hv, hvlt, hvlt, rfl⟩

theorem reads_replacesWhen (he : IntTyped ctx w e) (h : Reads ctx w e a b g)
  (hr : IntTyped ctx w r) (hneed : need r false ≤ need e false)
  (hval : ∀ {env : Env}, env.Fits ctx → ∀ {u v}, u < 2 ^ w → v < 2 ^ w →
    nat env a = some u → nat env b = some v →
      ∃ n, nat env r = some n ∧ (n = g u v ↔ C env)) :
  ReplacesWhen ctx C e r := by
  refine ⟨hr.wellTyped, hr.type.trans he.type.symm, hneed, ?_⟩
  intro env hfits n hn
  obtain ⟨u, v, hu, hv, hult, hvlt, rfl⟩ := h.nat_eq hfits hn
  obtain ⟨m, hm, hiff⟩ := hval hfits hult hvlt hu hv
  rw [hm, Option.some_inj]
  exact hiff

/-- The reading of one operand `p`, replaced by an operator of `p` and a folded
constant on its right. -/
theorem fold_right_when (he : IntTyped ctx w e) (hw : w ≤ 128)
  (h : Reads ctx w e p p (fun v _ => f v)) (hop : sameOp op = true) (hF : binSem op = some F)
  (s : U64) (hC : ∀ {env : Env} {v : Nat}, nat env p = some v → v < 2 ^ w →
    (F w v (s.toNat % 2 ^ w) = f v ↔ C env)) :
  ReplacesWhen ctx C e (.mkBinary op p (folded (.integer w) s)) := by
  have hc : IntTyped ctx w (folded (.integer w) s) := folded_typed he.pos (by omega) s
  refine reads_replacesWhen he h (h.left.mkBinary hc hop) ?_ ?_
  · have := h.left_need
    rw [need_mkBinary hF, need_folded]
    omega
  · intro env hfits u v hu _ hnu _
    exact ⟨_, nat_mkBinary h.left hc hop hF hfits hnu (nat_folded hw s), hC hnu hu⟩

theorem fold_left_when (he : IntTyped ctx w e) (hw : w ≤ 128)
  (h : Reads ctx w e p p (fun v _ => f v)) (hop : sameOp op = true) (hF : binSem op = some F)
  (s : U64) (hC : ∀ {env : Env} {v : Nat}, nat env p = some v → v < 2 ^ w →
    (F w (s.toNat % 2 ^ w) v = f v ↔ C env)) :
  ReplacesWhen ctx C e (.mkBinary op (folded (.integer w) s) p) := by
  have hc : IntTyped ctx w (folded (.integer w) s) := folded_typed he.pos (by omega) s
  refine reads_replacesWhen he h (hc.mkBinary h.left hop) ?_ ?_
  · have := h.left_need
    rw [need_mkBinary hF, need_folded]
    omega
  · intro env hfits u v hu _ hnu _
    exact ⟨_, nat_mkBinary hc h.left hop hF hfits (nat_folded hw s) hnu, hC hnu hu⟩

/-! ## Reassociation -/

theorem ne_zero_of_isZero (hy : isZero y = false) (hk : y.asConstant = some k) :
  k ≠ 0#64 := by
  intro h0
  simp [isZero, isConst, hk, h0] at hy

theorem reassociateAdd_when (he : IntTyped ctx w (.binary .add t i x y)) (hw : w ≤ 128)
  (hy : isZero y = false) (h : reassociateAdd t x y = some r) :
  ReplacesWhen ctx (fun _ => addExcess x y % 2 ^ (w - 64) = 0) (.binary .add t i x y) r := by
  obtain rfl : t = .integer w := he.type
  obtain ⟨hx, hyt⟩ := he.operands rfl
  unfold reassociateAdd at h
  split at h
  · rename_i k o t' i' p q hk
    have hk0 := ne_zero_of_isZero hy hk
    have houter := Reads.of_const he hw rfl rfl hk
    split at h
    · rename_i k1 hq
      have hk1lt : sameOp o = true → k1.toNat < 2 ^ w :=
        fun ho => ((hx.operands ho).2.asConstant hw hq).2.2
      split at h
      · rename_i ho
        subst ho
        obtain rfl := Option.some.inj h
        have hread := houter.comp (Reads.of_const hx hw rfl rfl hq)
        refine fold_right_when he hw hread rfl rfl
          (k1 + k) fun {env v} hv hvlt => ?_
        simp only [addExcess, hk, hk0, hq, if_true, if_false]
        rw [Residues.mod_eq_iff]
        push_cast [ZMod.natCast_mod]
        exact Residues.eq_iff_of_add (by linear_combination cast_add_word (w := w) k1 k)
      · split at h
        · rename_i hne ho
          subst ho
          obtain rfl := Option.some.inj h
          have hread := houter.comp (Reads.of_const hx hw rfl rfl hq)
          refine fold_right_when he hw hread rfl rfl
            (k - k1) fun {env v} hv hvlt => ?_
          simp only [addExcess, hk, hk0, hq, hne, if_true, if_false]
          rw [Residues.mod_eq_iff, eq_comm]
          push_cast [ZMod.natCast_mod, Residues.cast_compl (hk1lt rfl).le]
          exact Residues.eq_iff_of_add (by linear_combination -cast_sub_word (w := w) k k1)
        · cases h
    · rename_i k1 hq hp
      split at h
      · rename_i ho
        subst ho
        obtain rfl := Option.some.inj h
        have hread := houter.comp (reads_const_left hx hw rfl rfl hp)
        refine fold_left_when he hw hread rfl rfl
          (k1 + k) fun {env v} hv hvlt => ?_
        simp only [addExcess, hk, hk0, hq, hp, if_true, if_false]
        rw [Residues.mod_eq_iff]
        push_cast [ZMod.natCast_mod, Residues.cast_compl hvlt.le]
        exact Residues.eq_iff_of_add (by linear_combination cast_add_word (w := w) k1 k)
      · cases h
    · cases h
  · cases h

theorem reassociateSub_when (he : IntTyped ctx w (.binary .sub t i x y)) (hw : w ≤ 128)
  (hy : isZero y = false) (h : reassociateSub t x y = some r) :
  ReplacesWhen ctx (fun _ => subExcess x y % 2 ^ (w - 64) = 0) (.binary .sub t i x y) r := by
  obtain rfl : t = .integer w := he.type
  obtain ⟨hx, hyt⟩ := he.operands rfl
  unfold reassociateSub at h
  split at h
  · rename_i k o t' i' p q hk
    have hk0 := ne_zero_of_isZero hy hk
    have hklt := (hyt.asConstant hw hk).2.2
    have houter := Reads.of_const he hw rfl rfl hk
    split at h
    · rename_i k1 hq
      have hk1lt : sameOp o = true → k1.toNat < 2 ^ w :=
        fun ho => ((hx.operands ho).2.asConstant hw hq).2.2
      split at h
      · rename_i ho
        subst ho
        obtain rfl := Option.some.inj h
        have hread := houter.comp (Reads.of_const hx hw rfl rfl hq)
        refine fold_right_when he hw hread rfl rfl (k1 + k) fun {env v} hv hvlt => ?_
        have hs : (k1 + k).toNat % 2 ^ w ≤ 2 ^ w := (Nat.mod_lt _ (Nat.two_pow_pos w)).le
        simp only [subExcess, hk, hk0, hq, if_true, if_false]
        rw [Residues.mod_eq_iff, eq_comm]
        push_cast [ZMod.natCast_mod, Residues.cast_compl (hk1lt rfl).le,
          Residues.cast_compl hklt.le, Residues.cast_compl hs]
        exact Residues.eq_iff_of_add (by linear_combination cast_add_word (w := w) k1 k)
      · split at h
        · rename_i hne ho
          subst ho
          obtain rfl := Option.some.inj h
          have hread := houter.comp (Reads.of_const hx hw rfl rfl hq)
          refine fold_right_when he hw hread rfl rfl (k1 - k) fun {env v} hv hvlt => ?_
          simp only [subExcess, hk, hk0, hq, hne, if_true, if_false]
          rw [Residues.mod_eq_iff, eq_comm]
          push_cast [ZMod.natCast_mod, Residues.cast_compl hklt.le]
          exact Residues.eq_iff_of_add (by linear_combination -cast_sub_word (w := w) k1 k)
        · cases h
    · rename_i k1 hq hp
      split at h
      · rename_i ho
        subst ho
        obtain rfl := Option.some.inj h
        have hread := houter.comp (reads_const_left hx hw rfl rfl hp)
        refine fold_left_when he hw hread rfl rfl (k1 - k) fun {env v} hv hvlt => ?_
        simp only [subExcess, hk, hk0, hq, hp, if_true, if_false]
        rw [Residues.mod_eq_iff, eq_comm]
        push_cast [ZMod.natCast_mod, Residues.cast_compl hvlt.le, Residues.cast_compl hklt.le]
        exact Residues.eq_iff_of_add (by linear_combination -cast_sub_word (w := w) k1 k)
      · cases h
    · cases h
  · cases h

theorem reassociateSubMirror_when (he : IntTyped ctx w (.binary .sub t i x y)) (hw : w ≤ 128)
  (hx0 : isZero x = false) (h : reassociateSubMirror t x y = some r) :
  ReplacesWhen ctx (fun _ => subMirrorExcess x y % 2 ^ (w - 64) = 0)
    (.binary .sub t i x y) r := by
  obtain rfl : t = .integer w := he.type
  obtain ⟨hx, hyt⟩ := he.operands rfl
  unfold reassociateSubMirror at h
  split at h
  · rename_i k o t' i' p q hk
    have hk0 := ne_zero_of_isZero hx0 hk
    have houter := reads_const_left he hw rfl rfl hk
    split at h
    · rename_i k2 hq
      have hk2lt : sameOp o = true → k2.toNat < 2 ^ w :=
        fun ho => ((hyt.operands ho).2.asConstant hw hq).2.2
      split at h
      · rename_i ho
        subst ho
        obtain rfl := Option.some.inj h
        have hread := houter.comp (Reads.of_const hyt hw rfl rfl hq)
        refine fold_left_when he hw hread rfl rfl (k + k2) fun {env v} hv hvlt => ?_
        have hs : (v + (2 ^ w - k2.toNat)) % 2 ^ w ≤ 2 ^ w :=
          (Nat.mod_lt _ (Nat.two_pow_pos w)).le
        simp only [subMirrorExcess, hk, hk0, hq, if_true, if_false]
        rw [Residues.mod_eq_iff]
        push_cast [ZMod.natCast_mod, Residues.cast_compl hs, Residues.cast_compl hvlt.le,
          Residues.cast_compl (hk2lt rfl).le]
        exact Residues.eq_iff_of_add (by linear_combination cast_add_word (w := w) k k2)
      · split at h
        · rename_i hne ho
          subst ho
          obtain rfl := Option.some.inj h
          have hread := houter.comp (Reads.of_const hyt hw rfl rfl hq)
          refine fold_left_when he hw hread rfl rfl (k - k2) fun {env v} hv hvlt => ?_
          have hs : (v + k2.toNat) % 2 ^ w ≤ 2 ^ w := (Nat.mod_lt _ (Nat.two_pow_pos w)).le
          simp only [subMirrorExcess, hk, hk0, hq, hne, if_true, if_false]
          rw [Residues.mod_eq_iff, eq_comm]
          push_cast [ZMod.natCast_mod, Residues.cast_compl hs, Residues.cast_compl hvlt.le]
          exact Residues.eq_iff_of_add (by linear_combination -cast_sub_word (w := w) k k2)
        · cases h
    · cases h
  · cases h

theorem reassociateMul_when (he : IntTyped ctx w (.binary .mul t i x y)) (hw : w ≤ 128)
  (h : reassociateMul t x y = some r) :
  ReplacesWhen ctx (fun env => mulExcess env x y % 2 ^ (w - 64) = 0)
    (.binary .mul t i x y) r := by
  obtain rfl : t = .integer w := he.type
  obtain ⟨hx, hyt⟩ := he.operands rfl
  unfold reassociateMul at h
  split at h
  · rename_i k2 o t' i' p q hk
    split at h
    · rename_i k1 hq
      split at h
      · rename_i ho
        subst ho
        obtain rfl := Option.some.inj h
        have hread := (Reads.of_const he hw rfl rfl hk).comp (Reads.of_const hx hw rfl rfl hq)
        refine fold_right_when he hw hread rfl rfl (k1 * k2) fun {env v} hv hvlt => ?_
        simp only [mulExcess, hk, hq, hv, Option.getD_some]
        rw [Residues.mod_eq_iff]
        push_cast [ZMod.natCast_mod]
        refine Residues.eq_iff_of_add (m := v * (k1.toNat * k2.toNat / 2 ^ 64)) ?_
        push_cast
        linear_combination (v : ZMod (2 ^ w)) * cast_mul_word (w := w) k1 k2
      · cases h
    · cases h
  · cases h

theorem reassociateAnd_replaces (he : IntTyped ctx w (.binary .and t i x y)) (hw : w ≤ 128)
  (h : reassociateAnd t x y = some r) : Replaces ctx (.binary .and t i x y) r := by
  obtain rfl : t = .integer w := he.type
  obtain ⟨hx, hyt⟩ := he.operands rfl
  unfold reassociateAnd at h
  split at h
  · rename_i k2 o t' i' p q hk
    split at h
    · rename_i k1 hq
      split at h
      · rename_i ho
        subst ho
        obtain rfl := Option.some.inj h
        have hk1lt := ((hx.operands rfl).2.asConstant hw hq).2.2
        have hread := (Reads.of_const he hw rfl rfl hk).comp (Reads.of_const hx hw rfl rfl hq)
        have hc : IntTyped ctx w (.constant (.integer w) (k1 &&& k2)) :=
          .constant he.pos (by omega) _
        refine hread.replaces_of he (hread.left.mkBinary hc rfl) ?_ ?_
        · have := hread.left_need
          rw [need_mkBinary rfl, need_constant]
          omega
        · intro env hfits u v hu _ hnu _
          rw [nat_mkBinary hread.left hc rfl rfl hfits hnu (nat_constant hw _), BitVec.toNat_and,
            Nat.mod_eq_of_lt (Nat.lt_of_le_of_lt Nat.and_le_left hk1lt), Nat.and_assoc]
      · cases h
    · cases h
  · cases h

/-! ## Identities -/

theorem operandOf_eq_some (h : operandOf e op = some a) : ∃ t i, e = .unary op t i a := by
  unfold operandOf at h
  split at h
  · rename_i o t i x
    split at h
    · rename_i ho
      obtain rfl := Option.some.inj h
      exact ⟨t, i, by rw [ho]⟩
    · cases h
  · cases h

theorem reads_unary {G : Nat → Nat → Nat} (he : IntTyped ctx w (.unary op t i a))
  (hr : op.readsFlags = false) (hG : unSem op = some G) :
  Reads ctx w (.unary op t i a) a a (fun v _ => G w v) := by
  have ha := he.operand (by rw [hG]; rfl)
  have hneed := need_unary (t := t) (i := i) (a := a) hr
  refine ⟨ha, ha, by omega, by omega, ?_⟩
  intro env hfits n hn
  obtain ⟨v, hv, rfl⟩ := (he.nat_unary hG hfits).mp hn
  exact ⟨v, v, hv, hv, (ha.lt hfits hv).1, (ha.lt hfits hv).1, rfl⟩

/-- A reading of a pair follows the reading of its first member. -/
theorem reads_comp_left (h : Reads ctx w e x y g)
  (hx : Reads ctx w x a a (fun v _ => f v)) :
  Reads ctx w e a y (fun u v => g (f u) v) := by
  have hl := h.left_need
  have ha := hx.left_need
  refine ⟨hx.left, h.right, by omega, h.right_need, ?_⟩
  intro env hfits n hn
  obtain ⟨u, v, hu, hv, -, hvlt, rfl⟩ := h.nat_eq hfits hn
  obtain ⟨u', -, hu', -, hult, -, rfl⟩ := hx.nat_eq hfits hu
  exact ⟨u', v, hu', hv, hult, hvlt, rfl⟩

/-- A node that has the value of an operand. -/
theorem reads_keep (he : IntTyped ctx w e) (h : Reads ctx w e a b g)
  (heq : ∀ {u v}, u < 2 ^ w → g u v = u) : Replaces ctx e a := by
  refine h.replaces_of he h.left h.left_need.le ?_
  intro env _ u v hu _ hnu _
  rw [heq hu]
  exact hnu

theorem reads_zero (he : IntTyped ctx w e) (hw : w ≤ 128) (h : Reads ctx w e a b g)
  (heq : ∀ {env : Env} {u v}, nat env a = some u → nat env b = some v → u < 2 ^ w →
    g u v = 0) :
  Replaces ctx e (.constant (.integer w) 0#64) := by
  refine h.replaces_of he (.constant he.pos (by omega) _) (by simp) ?_
  intro env _ u v hu _ hnu hnv
  rw [heq hnu hnv hu, nat_constant hw]
  exact congrArg some (Nat.zero_mod _)

theorem eq_of_isConst (h : isConst y k = true) : y.asConstant = some k := by
  simpa [isConst] using h

theorem isAllOnes_spec (hy : IntTyped ctx w y) (h : isAllOnes y = true) :
  ∃ k : U64, y.asConstant = some k ∧ k.toNat = 2 ^ w - 1 ∧ w ≤ 64 := by
  simp only [isAllOnes, Bool.and_eq_true] at h
  obtain ⟨hs, hc⟩ := h
  have hw := (scalar_type hy.wellTyped hs).2
  rw [hy.bits] at hc hw
  refine ⟨_, eq_of_isConst hc, ?_, hw⟩
  have hnot : (~~~0#64).toNat = 2 ^ 64 - 1 := rfl
  split
  · obtain rfl : w = 64 := by omega
    exact hnot
  · have := zeroExtend_not_lowMask_toNat (Nat.zero_le w) hw
    rwa [show lowMask 0 = 0#64 from rfl, Nat.pow_zero] at this

theorem isZero_false_of_none {r : Expr} (h : (if isZero y then some r else none) = none) :
  isZero y = false := by
  cases hy : isZero y with
  | false => rfl
  | true => simp [hy] at h

theorem addRules_when (he : IntTyped ctx w (.binary .add t i x y)) (hw : w ≤ 128)
  (h : addRules t x y = some r) :
  ReplacesWhen ctx (fun _ => addExcess x y % 2 ^ (w - 64) = 0) (.binary .add t i x y) r := by
  obtain ⟨hx, hy⟩ := he.operands rfl
  have hread := Reads.of_binary he rfl rfl
  -- Outside of reassociation nothing is lost.
  have hplain : addExcess x y = 0 → Replaces ctx (.binary .add t i x y) r →
      ReplacesWhen ctx (fun _ => addExcess x y % 2 ^ (w - 64) = 0) (.binary .add t i x y) r :=
    fun hzero hr => hr.replacesWhen fun _ => by rw [hzero, Nat.zero_mod]
  have hunary : ∀ {o t' i' a}, x = .unary o t' i' a → addExcess x y = 0 := by
    intro o t' i' a heq
    subst heq
    unfold addExcess
    split <;> simp_all
  unfold addRules at h
  rcases (Option.orElse_eq_some _ _ _).mp h with h | ⟨-, h⟩
  · -- ~a + 1 is -a.
    split at h
    · rename_i hone
      obtain ⟨a, ha, rfl⟩ := Option.map_eq_some_iff.mp h
      obtain ⟨t', i', rfl⟩ := operandOf_eq_some ha
      have hnot := reads_unary hx rfl rfl
      have hr := (Reads.of_const he hw rfl rfl (eq_of_isConst hone)).comp hnot
      refine hplain (hunary rfl) (hr.replaces_of he (hnot.left.mkUnary rfl) ?_ ?_)
      · have h1 : need (.mkUnary .neg a) false = need a false + 1 := need_unary rfl
        have h2 := hr.left_need
        omega
      · intro env hfits u v hu _ hnu _
        rw [nat_mkUnary hnot.left rfl hfits hnu]
        have hsum : 2 ^ w - 1 - u + (1#64).toNat = 2 ^ w - u := by
          change 2 ^ w - 1 - u + 1 = _
          omega
        rw [hsum]
    · cases h
  rcases (Option.orElse_eq_some _ _ _).mp h with h | ⟨hnone, h⟩
  · split at h
    · rename_i hzero
      obtain rfl := Option.some.inj h
      have hk := eq_of_isConst hzero
      refine hplain ?_ (reads_keep he (Reads.of_const he hw rfl rfl hk) fun hu =>
        Nat.mod_eq_of_lt hu)
      unfold addExcess
      split <;> simp_all
    · cases h
  have hy0 := isZero_false_of_none hnone
  rcases (Option.orElse_eq_some _ _ _).mp h with h | ⟨-, h⟩
  · obtain ⟨a, ha, rfl⟩ := Option.map_eq_some_iff.mp h
    obtain ⟨t', i', rfl⟩ := operandOf_eq_some ha
    have hr := (reads_comp_left hread (reads_unary hx rfl rfl)).swap
    refine hplain (hunary rfl) (hr.replaces he rfl rfl fun u v _ _ => ?_)
    rw [Nat.mod_add_mod, Nat.add_comm]
  rcases (Option.orElse_eq_some _ _ _).mp h with h | ⟨-, h⟩
  · obtain ⟨a, ha, rfl⟩ := Option.map_eq_some_iff.mp h
    obtain ⟨t', i', rfl⟩ := operandOf_eq_some ha
    have hr := (reads_comp_left hread.swap (reads_unary hy rfl rfl)).swap
    refine hplain rfl (hr.replaces he rfl rfl fun u v _ _ => ?_)
    rw [Nat.add_mod_mod]
  exact reassociateAdd_when he hw hy0 h

theorem subExcess_of_zero (h : isZero y = true) : subExcess x y = 0 := by
  have hk := eq_of_isConst h
  unfold subExcess
  split <;> simp_all

theorem subMirrorExcess_of_zero (h : isZero x = true) : subMirrorExcess x y = 0 := by
  have hk := eq_of_isConst h
  unfold subMirrorExcess
  split <;> simp_all

theorem leaf_of_asConstant (hy : IntTyped ctx w y) (h : y.asConstant = some k) :
  ∃ t, y = .leaf .const t k := by
  have hok := Expr.nodeOk_of_wellTyped hy.wellTyped
  unfold Expr.asConstant at h
  split at h
  · rename_i hop
    obtain rfl := Option.some.inj h
    cases y <;> simp_all [Expr.nodeOk, Expr.operandCount, ExprOp.info]
  · cases h

theorem subRules_when (he : IntTyped ctx w (.binary .sub t i x y)) (hw : w ≤ 128)
  (h : subRules t x y = some r) :
  ReplacesWhen ctx (fun _ => (subExcess x y + subMirrorExcess x y) % 2 ^ (w - 64) = 0)
    (.binary .sub t i x y) r := by
  obtain ⟨hx, hy⟩ := he.operands rfl
  obtain rfl : t = .integer w := he.type
  have hread := Reads.of_binary he rfl rfl
  have hplain : subExcess x y = 0 → subMirrorExcess x y = 0 →
      Replaces ctx (.binary .sub (.integer w) i x y) r →
      ReplacesWhen ctx (fun _ => (subExcess x y + subMirrorExcess x y) % 2 ^ (w - 64) = 0)
        (.binary .sub (.integer w) i x y) r :=
    fun h1 h2 hr => hr.replacesWhen fun _ => by rw [h1, h2, Nat.add_zero, Nat.zero_mod]
  -- A constant on one side leaves nothing to reassociate on the other.
  have hmirror : ∀ {k}, y.asConstant = some k → subMirrorExcess x y = 0 := by
    intro k hk
    obtain ⟨t', rfl⟩ := leaf_of_asConstant hy hk
    unfold subMirrorExcess
    split <;> simp_all
  have hdirect : ∀ {k}, x.asConstant = some k → subExcess x y = 0 := by
    intro k hk
    obtain ⟨t', rfl⟩ := leaf_of_asConstant hx hk
    unfold subExcess
    split <;> simp_all
  unfold subRules at h
  rcases (Option.orElse_eq_some _ _ _).mp h with h | ⟨hnone, h⟩
  · split at h
    · rename_i hzero
      obtain rfl := Option.some.inj h
      have hk := eq_of_isConst hzero
      refine hplain (subExcess_of_zero hzero) (hmirror hk)
        (reads_keep he (Reads.of_const he hw rfl rfl hk) fun {u v} hu => ?_)
      change (u + (2 ^ w - 0)) % 2 ^ w = u
      rw [Nat.sub_zero, Nat.add_mod_right, Nat.mod_eq_of_lt hu]
    · cases h
  have hy0 := isZero_false_of_none hnone
  rcases (Option.orElse_eq_some _ _ _).mp h with h | ⟨-, h⟩
  · split at h
    · rename_i heq
      obtain rfl := Option.some.inj h
      subst heq
      have hzero : Replaces ctx (.binary .sub (.integer w) i x x)
          (.constant (.integer w) 0#64) := by
        refine reads_zero he hw hread fun {env u v} hu hv hult => ?_
        obtain rfl := Option.some.inj (hu.symm.trans hv)
        rw [Nat.add_sub_of_le hult.le, Nat.mod_self]
      cases hk : x.asConstant with
      | some k => exact hplain (hdirect hk) (hmirror hk) hzero
      | none =>
        refine hplain ?_ ?_ hzero
        · unfold subExcess
          split <;> simp_all
        · unfold subMirrorExcess
          split <;> simp_all
    · cases h
  rcases (Option.orElse_eq_some _ _ _).mp h with h | ⟨-, h⟩
  · obtain ⟨a, ha, rfl⟩ := Option.map_eq_some_iff.mp h
    obtain ⟨t', i', rfl⟩ := operandOf_eq_some ha
    have hr := (reads_comp_left hread.swap (reads_unary hy rfl rfl)).swap
    refine hplain rfl ?_ (hr.replaces he rfl rfl fun u v _ hv => ?_)
    · unfold subMirrorExcess
      split <;> simp_all
    · have hs : (2 ^ w - v) % 2 ^ w ≤ 2 ^ w := (Nat.mod_lt _ (Nat.two_pow_pos w)).le
      rw [Residues.mod_eq_iff]
      push_cast [Residues.cast_compl hs, ZMod.natCast_mod, Residues.cast_compl hv.le]
      ring
  rcases (Option.orElse_eq_some _ _ _).mp h with h | ⟨hnone, h⟩
  · split at h
    · rename_i hzero
      obtain rfl := Option.some.inj h
      have hk := eq_of_isConst hzero
      have hr := reads_const_left he hw rfl rfl hk
      refine hplain (hdirect hk) (subMirrorExcess_of_zero hzero)
        (hr.replaces_of he (hy.mkUnary rfl) ?_ ?_)
      · have h1 : need (.mkUnary .neg y) false = need y false + 1 := need_unary rfl
        have h2 := hr.left_need
        omega
      · intro env hfits u v _ _ hnu _
        rw [nat_mkUnary hy rfl hfits hnu]
        exact congrArg some (by rw [BitVec.toNat_ofNat, Nat.zero_mod, Nat.zero_add])
    · cases h
  have hx0 := isZero_false_of_none hnone
  rcases (Option.orElse_eq_some _ _ _).mp h with h | ⟨-, h⟩
  · have hk : ∃ k, y.asConstant = some k := by
      unfold reassociateSub at h
      split at h
      · exact ⟨_, by assumption⟩
      · cases h
    obtain ⟨k, hk⟩ := hk
    rw [hmirror hk, Nat.add_zero]
    exact reassociateSub_when he hw hy0 h
  · have hk : ∃ k, x.asConstant = some k := by
      unfold reassociateSubMirror at h
      split at h
      · exact ⟨_, by assumption⟩
      · cases h
    obtain ⟨k, hk⟩ := hk
    rw [hdirect hk, Nat.zero_add]
    exact reassociateSubMirror_when he hw hx0 h

theorem mulRules_when (he : IntTyped ctx w (.binary .mul t i x y)) (hw : w ≤ 128)
  (h : mulRules t x y = some r) :
  ReplacesWhen ctx (fun env => mulExcess env x y % 2 ^ (w - 64) = 0)
    (.binary .mul t i x y) r := by
  obtain rfl : t = .integer w := he.type
  -- A factor of zero or one has no high half.
  have hplain : ∀ {k : U64}, y.asConstant = some k → k.toNat ≤ 1 →
      Replaces ctx (.binary .mul (.integer w) i x y) r →
      ReplacesWhen ctx (fun env => mulExcess env x y % 2 ^ (w - 64) = 0)
        (.binary .mul (.integer w) i x y) r := by
    intro k hk hle hr
    refine hr.replacesWhen fun env => ?_
    unfold mulExcess
    split
    · rename_i k2 t' i' p q hk2
      obtain rfl := Option.some.inj (hk.symm.trans hk2)
      split
      · rename_i k1 hk1
        have hsmall : k1.toNat * k.toNat < 2 ^ 64 := by
          have := k1.isLt
          have := Nat.mul_le_mul_left k1.toNat hle
          omega
        rw [Nat.div_eq_of_lt hsmall, Nat.mul_zero, Nat.zero_mod]
      · rw [Nat.zero_mod]
    · rw [Nat.zero_mod]
  unfold mulRules at h
  rcases (Option.orElse_eq_some _ _ _).mp h with h | ⟨-, h⟩
  · split at h
    · rename_i hzero
      obtain rfl := Option.some.inj h
      have hk := eq_of_isConst hzero
      refine hplain hk (by decide) (reads_zero he hw (Reads.of_const he hw rfl rfl hk)
        fun {env u v} _ _ _ => ?_)
      exact Nat.zero_mod _
    · cases h
  rcases (Option.orElse_eq_some _ _ _).mp h with h | ⟨-, h⟩
  · split at h
    · rename_i hone
      obtain rfl := Option.some.inj h
      have hk := eq_of_isConst hone
      refine hplain hk (by decide) (reads_keep he (Reads.of_const he hw rfl rfl hk)
        fun {u v} hu => ?_)
      change u * 1 % 2 ^ w = u
      rw [Nat.mul_one, Nat.mod_eq_of_lt hu]
    · cases h
  exact reassociateMul_when he hw h

theorem andRules_replaces (he : IntTyped ctx w (.binary .and t i x y)) (hw : w ≤ 128)
  (h : andRules t x y = some r) : Replaces ctx (.binary .and t i x y) r := by
  obtain ⟨hx, hy⟩ := he.operands rfl
  obtain rfl : t = .integer w := he.type
  unfold andRules at h
  rcases (Option.orElse_eq_some _ _ _).mp h with h | ⟨-, h⟩
  · split at h
    · rename_i hzero
      obtain rfl := Option.some.inj h
      refine reads_zero he hw (Reads.of_const he hw rfl rfl (eq_of_isConst hzero))
        fun {env u v} _ _ _ => ?_
      exact Nat.and_zero u
    · cases h
  rcases (Option.orElse_eq_some _ _ _).mp h with h | ⟨-, h⟩
  · split at h
    · rename_i hcond
      obtain rfl := Option.some.inj h
      rcases hcond with hones | heq
      · obtain ⟨k, hk, hval, -⟩ := isAllOnes_spec hy hones
        refine reads_keep he (Reads.of_const he hw rfl rfl hk) fun {u v} hu => ?_
        rw [hval, Nat.and_two_pow_sub_one_eq_mod, Nat.mod_eq_of_lt hu]
      · subst heq
        have hread := Reads.of_binary he rfl rfl
        refine hread.replaces_of he hx hread.left_need.le ?_
        intro env _ u v _ _ hu hv
        obtain rfl := Option.some.inj (hu.symm.trans hv)
        rw [Nat.and_self]
        exact hu
    · cases h
  exact reassociateAnd_replaces he hw h

theorem orRules_replaces (he : IntTyped ctx w (.binary .or t i x y)) (hw : w ≤ 128)
  (h : orRules x y = some r) : Replaces ctx (.binary .or t i x y) r := by
  obtain ⟨hx, hy⟩ := he.operands rfl
  have hread := Reads.of_binary he rfl rfl
  unfold orRules at h
  rcases (Option.orElse_eq_some _ _ _).mp h with h | ⟨-, h⟩
  · split at h
    · rename_i hcond
      obtain rfl := Option.some.inj h
      rcases hcond with hzero | heq
      · exact reads_keep he (Reads.of_const he hw rfl rfl (eq_of_isConst hzero))
          fun {u v} _ => Nat.or_zero u
      · subst heq
        refine hread.replaces_of he hx hread.left_need.le ?_
        intro env _ u v _ _ hu hv
        obtain rfl := Option.some.inj (hu.symm.trans hv)
        rw [Nat.or_self]
        exact hu
    · cases h
  · split at h
    · rename_i hones
      obtain rfl := Option.some.inj h
      obtain ⟨k, hk, hval, -⟩ := isAllOnes_spec hy hones
      refine hread.replaces_of he hy hread.right_need.le ?_
      intro env _ u v hult _ hu hv
      obtain rfl := Option.some.inj (hv.symm.trans ((hy.asConstant hw hk).2.1 env))
      have hor : u ||| (2 ^ w - 1) = 2 ^ w - 1 := by
        have h1 := NatBits.or_add_and u (2 ^ w - 1)
        rw [Nat.and_two_pow_sub_one_eq_mod, Nat.mod_eq_of_lt hult] at h1
        omega
      rw [hv, hval, hor]
    · cases h

theorem xorRules_replaces (he : IntTyped ctx w (.binary .xor t i x y)) (hw : w ≤ 128)
  (h : xorRules t x y = some r) : Replaces ctx (.binary .xor t i x y) r := by
  obtain ⟨hx, hy⟩ := he.operands rfl
  obtain rfl : t = .integer w := he.type
  have hread := Reads.of_binary he rfl rfl
  unfold xorRules at h
  rcases (Option.orElse_eq_some _ _ _).mp h with h | ⟨-, h⟩
  · split at h
    · rename_i hzero
      obtain rfl := Option.some.inj h
      exact reads_keep he (Reads.of_const he hw rfl rfl (eq_of_isConst hzero))
        fun {u v} _ => Nat.xor_zero u
    · cases h
  rcases (Option.orElse_eq_some _ _ _).mp h with h | ⟨-, h⟩
  · split at h
    · rename_i heq
      obtain rfl := Option.some.inj h
      subst heq
      refine reads_zero he hw hread fun {env u v} hu hv _ => ?_
      obtain rfl := Option.some.inj (hu.symm.trans hv)
      exact Nat.xor_self u
    · cases h
  · split at h
    · rename_i hones
      obtain rfl := Option.some.inj h
      obtain ⟨k, hk, hval, -⟩ := isAllOnes_spec hy hones
      have hr := Reads.of_const he hw rfl rfl hk
      refine hr.replaces_of he (hx.mkUnary rfl) ?_ ?_
      · have h1 : need (.mkUnary .not x) false = need x false + 1 := need_unary rfl
        have h2 := hr.left_need
        omega
      · intro env hfits u v hult _ hu _
        have hxor := NatBits.xor_add_two_mul_and u (2 ^ w - 1)
        rw [Nat.and_two_pow_sub_one_eq_mod, Nat.mod_eq_of_lt hult] at hxor
        have heq : 2 ^ w - 1 - u = u ^^^ (2 ^ w - 1) := by omega
        rw [nat_mkUnary hx rfl hfits hu, hval, heq]
    · cases h

/-- An operator of one operand and the constant one. -/
theorem replaces_with_one (he : IntTyped ctx w e) (hw : w ≤ 128)
  (h : Reads ctx w e a a (fun v _ => f v)) (hop : sameOp op = true) (hF : binSem op = some F)
  (heq : ∀ {v}, v < 2 ^ w → F w v 1 = f v) :
  Replaces ctx e (.mkBinary op a (.constant (.integer w) 1#64)) := by
  have hc : IntTyped ctx w (.constant (.integer w) 1#64) := .constant he.pos (by omega) _
  have hone : 1 % 2 ^ w = 1 := Nat.mod_eq_of_lt (Nat.one_lt_two_pow he.pos.ne')
  refine h.replaces_of he (h.left.mkBinary hc hop) ?_ ?_
  · have := h.left_need
    rw [need_mkBinary hF, need_constant]
    omega
  · intro env hfits u v hu _ hnu _
    have hcv : nat env (.constant (.integer w) 1#64) = some 1 := by
      rw [nat_constant hw]
      exact congrArg some hone
    rw [nat_mkBinary h.left hc hop hF hfits hnu hcv, heq hu]

theorem notRules_replaces (he : IntTyped ctx w (.unary .not t i x)) (hw : w ≤ 128)
  (h : notRules t x = some r) : Replaces ctx (.unary .not t i x) r := by
  obtain rfl : t = .integer w := he.type
  have hx := he.operand rfl
  have hread := reads_unary he rfl rfl
  unfold notRules at h
  rcases (Option.orElse_eq_some _ _ _).mp h with h | ⟨-, h⟩
  · obtain ⟨t', i', rfl⟩ := operandOf_eq_some h
    have hr := hread.comp (reads_unary hx rfl rfl)
    refine reads_keep he hr fun {u v} hu => ?_
    omega
  · obtain ⟨a, ha, rfl⟩ := Option.map_eq_some_iff.mp h
    obtain ⟨t', i', rfl⟩ := operandOf_eq_some ha
    have hr := hread.comp (reads_unary hx rfl rfl)
    refine replaces_with_one he hw hr rfl rfl fun {v} hv => ?_
    have hs : (2 ^ w - v) % 2 ^ w < 2 ^ w := Nat.mod_lt _ (Nat.two_pow_pos w)
    have hlt : 2 ^ w - 1 - (2 ^ w - v) % 2 ^ w < 2 ^ w := by omega
    rw [← Nat.mod_eq_of_lt hlt, Residues.mod_eq_iff]
    push_cast [Residues.cast_sub_one hs, ZMod.natCast_mod, Residues.cast_compl hv.le,
      Residues.cast_compl (Nat.one_le_two_pow (n := w))]
    ring

theorem negRules_replaces (he : IntTyped ctx w (.unary .neg t i x)) (hw : w ≤ 128)
  (h : negRules t x = some r) : Replaces ctx (.unary .neg t i x) r := by
  obtain rfl : t = .integer w := he.type
  have hx := he.operand rfl
  have hread := reads_unary he rfl rfl
  unfold negRules at h
  rcases (Option.orElse_eq_some _ _ _).mp h with h | ⟨-, h⟩
  · obtain ⟨t', i', rfl⟩ := operandOf_eq_some h
    have hr := hread.comp (reads_unary hx rfl rfl)
    refine reads_keep he hr fun {u v} hu => ?_
    have hs : (2 ^ w - u) % 2 ^ w ≤ 2 ^ w := (Nat.mod_lt _ (Nat.two_pow_pos w)).le
    conv_rhs => rw [← Nat.mod_eq_of_lt hu]
    rw [Residues.mod_eq_iff]
    push_cast [Residues.cast_compl hs, ZMod.natCast_mod, Residues.cast_compl hu.le]
    ring
  · obtain ⟨a, ha, rfl⟩ := Option.map_eq_some_iff.mp h
    obtain ⟨t', i', rfl⟩ := operandOf_eq_some ha
    have hr := hread.comp (reads_unary hx rfl rfl)
    refine replaces_with_one he hw hr rfl rfl fun {v} hv => ?_
    have hs : 2 ^ w - 1 - v ≤ 2 ^ w := by omega
    rw [Residues.mod_eq_iff]
    push_cast [Residues.cast_compl hs, Residues.cast_sub_one hv]
    ring

/-- Shifting or rotating by zero does nothing. -/
theorem shiftRules_replaces (he : IntTyped ctx w (.binary op t i x y)) (hw : w ≤ 128)
  (hop : op = .shl ∨ op = .shrU ∨ op = .shrS ∨ op = .rotR ∨ op = .rotL)
  (h : shiftRules x y = some r) : Replaces ctx (.binary op t i x y) r := by
  unfold shiftRules at h
  split at h
  · rename_i hzero
    obtain rfl := Option.some.inj h
    have hk := eq_of_isConst hzero
    have hpos := he.pos
    rcases hop with rfl | rfl | rfl | rfl | rfl
    · refine reads_keep he (Reads.of_const he hw rfl rfl hk) fun {u v} hu => ?_
      change u * 2 ^ (0 % 2 ^ 32) % 2 ^ w = u
      rw [Nat.zero_mod, Nat.pow_zero, Nat.mul_one, Nat.mod_eq_of_lt hu]
    · refine reads_keep he (Reads.of_const he hw rfl rfl hk) fun {u v} _ => ?_
      exact Nat.div_one u
    · refine reads_keep he (Reads.of_const he hw rfl rfl hk) fun {u v} _ => ?_
      change (if u < 2 ^ (w - 1) then u / 2 ^ 0 else u / 2 ^ 0 + (2 ^ w - 2 ^ (w - 0))) = u
      rw [Nat.pow_zero, Nat.div_one, Nat.sub_zero, Nat.sub_self, Nat.add_zero, ite_self]
    · refine reads_keep he (Reads.of_const he hw rfl rfl hk) fun {u v} _ => ?_
      change rotSem w u 0 = u
      rw [rotSem, Nat.zero_mod, Nat.pow_zero, Nat.div_one, Nat.mod_one, Nat.zero_mul,
        Nat.add_zero]
    · refine reads_keep he (Reads.of_const he hw rfl rfl hk) fun {u v} _ => ?_
      change rotSem w u (w - 0 % 2 ^ 32 % w) = u
      rw [Nat.zero_mod, Nat.zero_mod, Nat.sub_zero, rotSem, Nat.mod_self, Nat.pow_zero,
        Nat.div_one, Nat.mod_one, Nat.zero_mul, Nat.add_zero]
  · cases h

/-! ## Selects, flag conditions and casts -/

/-- A select on a constant condition, or between equal arms, is one of its
arms. -/
theorem selectRules_sound (hwt : (Expr.ternary .select t i c x y).wellTyped ctx = true)
  (h : selectRules c x y = some r) :
  (r = x ∨ r = y) ∧ x.type = t ∧ y.type = t ∧
    ∀ {env : Env} {v}, den env (.ternary .select t i c x y) = some v → den env r = some v := by
  have hok := Expr.nodeOk_of_wellTyped hwt
  simp only [Expr.nodeOk, Bool.and_eq_true] at hok
  have hres := hok.1.1.2
  simp only [Expr.resultRuleOk, Expr.op_ternary, ExprOp.info, Expr.operands_ternary,
    Bool.and_eq_true, beq_iff_eq, Expr.type_ternary] at hres
  obtain ⟨⟨hcb, hxy⟩, hxt⟩ := hres
  have hread : ∀ v, readArg .select v = v := fun v => rfl
  unfold selectRules at h
  split at h
  · rename_i k hk
    obtain rfl := Option.some.inj h
    have hc := IntTyped.of_isBoolean (Expr.wellTyped_operand hwt (by simp)) hcb
    obtain ⟨-, hcval, hclt⟩ := hc.asConstant (by omega) hk
    refine ⟨by split <;> simp, hxt, hxy.symm.trans hxt, ?_⟩
    intro env v hv
    obtain ⟨-, u, p, q, hu, hp, hq, happ⟩ := den_ternary_iff.mp hv
    have hku : k = 0#64 ∨ k = 1#64 := by
      rcases Nat.lt_succ_iff_lt_or_eq.mp hclt with h0 | h1
      · exact .inl (BitVec.eq_of_toNat_eq (by simpa using Nat.lt_one_iff.mp h0))
      · exact .inr (BitVec.eq_of_toNat_eq h1)
    have huk : u = word k := by
      apply U128.eq_of_toNat_eq
      rw [word_toNat]
      exact Option.some.inj ((den_eq_some_iff.mp hu).symm.trans (hcval env))
    subst huk
    simp only [applyOp, Expr.op_ternary, hread, List.getD_cons_zero, List.getD_cons_succ, word,
      Except.ok.injEq] at happ
    rw [← happ]
    rcases hku with rfl | rfl
    · simpa using hq
    · simpa using hp
  · split at h
    · rename_i heq
      obtain rfl := Option.some.inj h
      subst heq
      refine ⟨.inl rfl, hxt, hxt, ?_⟩
      intro env v hv
      obtain ⟨-, u, p, q, -, hp, hq, happ⟩ := den_ternary_iff.mp hv
      obtain rfl := Option.some.inj (hp.symm.trans hq)
      simp only [applyOp, Expr.op_ternary, hread, List.getD_cons_zero, List.getD_cons_succ,
        ite_self, Except.ok.injEq] at happ
      rw [← happ]
      exact hp
    · cases h

/-- The constants of an expression are as `Function::constant` builds them. -/
def Built (e : Expr) : Prop :=
  ∀ s, Expr.SubExpr s e → s.op = .const → s.immediate = (Expr.constant s.type s.immediate).immediate

theorem den_built {u : U128} (hb : Built c) (hk : c.asConstant = some k)
  (hu : den env c = some u) : u.lo = k := by
  unfold Expr.asConstant at hk
  split at hk
  · rename_i hop
    obtain rfl := Option.some.inj hk
    have himm := hb c (.refl c) hop
    obtain ⟨-, args, -, happ⟩ := den_some_iff.mp hu
    simp only [applyOp, hop, Except.ok.injEq] at happ
    rw [← happ]
    simp only [Expr.constant, Expr.immediate_leaf] at himm
    have hmod : (U128.mask (word c.immediate) c.bits).toNat = (word c.immediate).toNat := by
      rw [U128.mask_toNat, word_toNat]
      apply Nat.mod_eq_of_lt
      by_cases h64 : c.bits ≥ 64
      · exact Nat.lt_of_lt_of_le c.immediate.isLt (Nat.pow_le_pow_right (by decide) h64)
      · rw [if_neg h64] at himm
        rw [himm, zeroExtend_toNat]
        exact Nat.mod_lt _ (Nat.two_pow_pos _)
    rw [U128.eq_of_toNat_eq hmod]
    rfl
  · cases hk

/-- A bit of a word under a single-bit mask. -/
theorem and_two_pow_ne_zero (k m : U64) {n : Nat} (hm : m = 1#64 <<< n) (hn : n < 64) :
  decide (k &&& m ≠ 0#64) = k.getLsbD n := by
  subst hm
  cases hb : k.getLsbD n with
  | true =>
    refine decide_eq_true fun h => ?_
    have hbit := congrArg (fun v : U64 => v.getLsbD n) h
    simp only [BitVec.getLsbD_and, hb, BitVec.getLsbD_shiftLeft, Bool.true_and] at hbit
    simp [hn] at hbit
  | false =>
    refine decide_eq_false (fun h => h ?_)
    apply BitVec.eq_of_getLsbD_eq
    intro j hj
    by_cases hjn : j = n
    · subst hjn
      simp [hb]
    · by_cases hlt : j < n
      · simp [hlt]
      · have : j - n ≠ 0 := by omega
        simp [BitVec.getLsbD_shiftLeft, this]

/-- The two truth tables read the same four bits. -/
theorem conditionValue_eq (code : ConditionCode) (k : U64) :
  conditionValue code k = evalCondition code (k &&& 0xf#64) := by
  have hbit : ∀ n : Nat, n < 4 → (k &&& 0xf#64).getLsbD n = k.getLsbD n := by
    intro n hn
    have hlow : ∀ m : Fin 4, (0xf#64).getLsbD m.val = true := by decide
    rw [BitVec.getLsbD_and, hlow ⟨n, hn⟩, Bool.and_true]
  have h8 := and_two_pow_ne_zero (k &&& 0xf#64) 8#64 (n := 3) rfl (by decide)
  have h4 := and_two_pow_ne_zero (k &&& 0xf#64) 4#64 (n := 2) rfl (by decide)
  have h2 := and_two_pow_ne_zero (k &&& 0xf#64) 2#64 (n := 1) rfl (by decide)
  have h1 := and_two_pow_ne_zero (k &&& 0xf#64) 1#64 (n := 0) rfl (by decide)
  have h0 := and_two_pow_ne_zero k 1#64 (n := 0) rfl (by decide)
  rw [hbit 3 (by decide)] at h8
  rw [hbit 2 (by decide)] at h4
  rw [hbit 1 (by decide)] at h2
  rw [hbit 0 (by decide)] at h1
  cases code <;> simp only [conditionValue, evalCondition, U128.word_bit, h8, h4, h2, h1, h0]

/-- A truth constant. -/
theorem replaces_boolean {v : Bool} (he : IntTyped ctx 1 e)
  (hval : ∀ {env : Env} {u}, den env e = some u → u = boolValue v) :
  Replaces ctx e (.constant (.integer 1) (if v then 1#64 else 0#64)) := by
  have hc : IntTyped ctx 1 (.constant (.integer 1) (if v then 1#64 else 0#64)) :=
    .constant (by decide) (by decide) _
  refine ⟨hc.wellTyped, hc.type.trans he.type.symm, by simp, ?_⟩
  intro env hfits n hn
  obtain ⟨u, hu, rfl⟩ := nat_eq_some.mp hn
  rw [hval hu, nat_constant (by decide), boolValue_toNat]
  cases v <;> rfl

/-- Flag conditions over a bundle whose contents are known. -/
theorem flagCondRules_replaces (he : IntTyped ctx w (.unary .flagCond t i x))
  (hb : Built x) (h : flagCondRules t i x = some r) :
  Replaces ctx (.unary .flagCond t i x) r := by
  obtain rfl : t = .integer w := he.type
  have hok := Expr.nodeOk_of_wellTyped he.wellTyped
  obtain rfl : w = 1 := by
    simp [Expr.nodeOk, Expr.resultRuleOk, ExprOp.info, Ty.isBoolean, Ty.integer] at hok
    exact hok.1.1.2
  unfold flagCondRules at h
  split at h
  · cases h
  rename_i hdef
  simp only [ne_eq, Decidable.not_not] at hdef
  -- The condition of a definition's bundle, from the definition's operands.
  have hval : ∀ {env : Env} {u}, den env (.unary .flagCond (.integer 1) i x) = some u →
      ∃ args, List.Forall₂ (fun z v => den env z = some v) x.operands args ∧
        u = boolValue (evalCondition (conditionOf i)
          (evalFlagDef (flagDefOp x.immediate) (flagDefWidth x.immediate) args)) := by
    intro env u hu
    obtain ⟨-, f, hf, happ⟩ := den_unary_iff.mp hu
    obtain ⟨-, args, hargs, hfd⟩ := den_some_iff.mp hf
    have hid : args.map (readArg x.op) = args := by
      rw [hdef]
      exact List.map_id'' (fun _ => rfl) args
    simp only [applyOp, hdef] at hfd
    rw [hdef] at hid
    rw [hid, Except.ok.injEq] at hfd
    refine ⟨args, hargs, ?_⟩
    simp only [applyOp, Expr.op_unary, Expr.immediate_unary, Except.ok.injEq] at happ
    rw [← happ, ← hfd]
    simp only [readArg, ExprOp.readsFlags, beq_self_eq_true, Bool.true_or, if_true,
      List.getD_cons_zero, word, evalFlagDef_and]
  rcases (Option.orElse_eq_some _ _ _).mp h with h | ⟨-, h⟩
  · split at h
    · rename_i hconst
      obtain ⟨k, hk, rfl⟩ := Option.map_eq_some_iff.mp h
      obtain ⟨c, hc, hkc⟩ := Option.bind_eq_some_iff.mp hk
      refine replaces_boolean he fun {env u} hu => ?_
      obtain ⟨args, hargs, rfl⟩ := hval hu
      obtain ⟨rest, hops⟩ : ∃ rest, x.operands = c :: rest := by
        cases hl : x.operands with
        | nil => simp [hl] at hc
        | cons d rest =>
          rw [hl] at hc
          exact ⟨rest, by rw [Option.some.inj hc]⟩
      rw [hops] at hargs
      obtain ⟨v, vs, hv, -, rfl⟩ := List.forall₂_cons_left_iff.mp hargs
      have hcb : Built c := fun s hs => hb s (.step (by rw [hops]; simp) hs)
      have hlo := den_built hcb hkc hv
      rw [hconst, conditionValue_eq]
      simp only [evalFlagDef, List.getD_cons_zero, hlo]
    · cases h
  · split at h
    · rename_i hlogical
      have hclear : ∀ n z : Bool,
          evalCondition .carrySet (packNzcv n z false false) = false ∧
          evalCondition .overflow (packNzcv n z false false) = false ∧
          evalCondition .carryClear (packNzcv n z false false) = true ∧
          evalCondition .noOverflow (packNzcv n z false false) = true := by decide
      split at h
      · rename_i hcode
        obtain rfl := Option.some.inj h
        refine replaces_boolean (v := false) he fun {env u} hu => ?_
        obtain ⟨args, -, rfl⟩ := hval hu
        rw [hlogical]
        rcases hcode with hcode | hcode <;> simp only [hcode, evalFlagDef, hclear]
      · split at h
        · rename_i hcode
          obtain rfl := Option.some.inj h
          refine replaces_boolean (v := true) he fun {env u} hu => ?_
          obtain ⟨args, -, rfl⟩ := hval hu
          rw [hlogical]
          rcases hcode with hcode | hcode <;> simp only [hcode, evalFlagDef, hclear]
        · cases h
    · cases h

/-- A unary node over `x` that denotes what `a`, at or below `x`, denotes. -/
theorem replaces_below (he : IntTyped ctx w (.unary op t i x)) (hr : op.readsFlags = false)
  (ha : IntTyped ctx w a) (hneed : need a false ≤ need x false)
  (hval : ∀ {env : Env}, env.Fits ctx → ∀ {n}, nat env (.unary op t i x) = some n →
    nat env a = some n) : Replaces ctx (.unary op t i x) a := by
  refine ⟨ha.wellTyped, ha.type.trans he.type.symm, ?_, hval⟩
  rw [need_unary hr]
  omega

theorem castRules_replaces (he : IntTyped ctx w (.unary op t i x)) (hw : w ≤ 128)
  (hop : op = .zext ∨ op = .sext ∨ op = .trunc ∨ op = .extract)
  (h : castRules op t i x = some r) : Replaces ctx (.unary op t i x) r := by
  obtain rfl : t = .integer w := he.type
  have hxwt : x.wellTyped ctx = true := Expr.wellTyped_operand he.wellTyped (by simp)
  have hwb : (Ty.integer w).bits ≤ 128 := by simpa using hw
  rcases hop with rfl | rfl | rfl | rfl
  · simp only [castRules] at h
    split at h
    · rename_i hty
      obtain rfl := Option.some.inj h
      have hx : IntTyped ctx w x := ⟨hxwt, hty⟩
      refine replaces_below he rfl hx le_rfl fun {env} hfits {n} hn => ?_
      obtain ⟨v, hv, rfl⟩ := (nat_zext_iff hfits hxwt hx.isInteger hwb).mp hn
      exact hv
    · cases h
  · simp only [castRules] at h
    split at h
    · rename_i hty
      obtain rfl := Option.some.inj h
      have hx : IntTyped ctx w x := ⟨hxwt, hty⟩
      have hle : x.bits ≤ (Ty.integer w).bits := by rw [hx.bits, Ty.bits_integer]
      refine replaces_below he rfl hx le_rfl fun {env} hfits {n} hn => ?_
      obtain ⟨v, hv, rfl⟩ := (nat_sext_iff hfits hxwt hx.isInteger hle hwb).mp hn
      rw [hx.bits, Ty.bits_integer, Nat.sub_self, Nat.add_zero, ite_self]
      exact hv
    · cases h
  · simp only [castRules] at h
    rcases (Option.orElse_eq_some _ _ _).mp h with h | ⟨-, h⟩
    · split at h
      · rename_i hty
        obtain rfl := Option.some.inj h
        have hx : IntTyped ctx w x := ⟨hxwt, hty⟩
        refine replaces_below he rfl hx le_rfl fun {env} hfits {n} hn => ?_
        obtain ⟨v, hv, rfl⟩ := (nat_trunc_iff hwb).mp hn
        rw [Ty.bits_integer, Nat.mod_eq_of_lt (hx.lt hfits hv).1]
        exact hv
      · cases h
    · obtain ⟨inner, hinner, hres⟩ := Option.bind_eq_some_iff.mp h
      obtain ⟨t', i', rfl⟩ := operandOf_eq_some hinner
      split at hres
      · rename_i hty
        obtain rfl := Option.some.inj hres
        have ha : IntTyped ctx w inner := ⟨Expr.wellTyped_operand hxwt (by simp), hty⟩
        refine replaces_below he rfl ha ?_ fun {env} hfits {n} hn => ?_
        · rw [need_unary rfl]
          omega
        obtain ⟨v, hv, rfl⟩ := (nat_trunc_iff hwb).mp hn
        have ht' : t'.bits ≤ 128 := by
          obtain ⟨u, hu, -⟩ := nat_eq_some.mp hv
          obtain ⟨hwide, -⟩ := den_unary_iff.mp hu
          by_contra hgt
          refine hwide ⟨by omega, ?_⟩
          have hvalid := valid_of_wellTyped hxwt
          by_contra hfl
          simp only [Bool.not_eq_false, Ty.isFlags, beq_iff_eq] at hfl
          simp only [Ty.valid, Expr.type_unary, hfl, Bool.and_eq_true, beq_iff_eq] at hvalid
          simp [Ty.bits, hvalid.1] at hgt
        obtain ⟨v', hv', rfl⟩ := (nat_zext_iff hfits ha.wellTyped ha.isInteger ht').mp hv
        rw [Ty.bits_integer, Nat.mod_eq_of_lt (ha.lt hfits hv').1]
        exact hv'
      · cases hres
  · simp only [castRules] at h
    split at h
    · rename_i hcond
      obtain ⟨rfl, hlt⟩ := hcond
      obtain rfl := Option.some.inj h
      rw [Ty.bits_integer] at hlt
      have hv := valid_of_wellTyped he.wellTyped
      have hr : IntTyped ctx w (.cast .trunc (.integer w) x) := by
        refine ⟨?_, rfl⟩
        simp only [Expr.bits] at hlt
        simp only [Expr.type_unary] at hv
        simp [Expr.cast, Expr.wellTyped, Expr.nodeOk, Expr.operandCount, ExprOp.info,
          Expr.resultRuleOk, Expr.opRuleOk, ExprOp.yieldsFloat, Expr.bits, hv, hxwt, hlt.le]
      refine ⟨hr.wellTyped, rfl, ?_, ?_⟩
      · have h1 : need (.cast .trunc (.integer w) x) false = need x false + 1 := need_unary rfl
        rw [h1, need_unary rfl]
      · -- At offset zero the source width only cuts above the result's.
        intro env hfits n hn
        obtain ⟨u, hu, rfl⟩ := nat_eq_some.mp hn
        obtain ⟨-, v, hv, happ⟩ := den_unary_iff.mp hu
        simp only [applyOp, Expr.op_unary, Expr.immediate_unary, List.getD_cons_zero,
          Except.ok.injEq] at happ
        refine (nat_trunc_iff hwb).mpr ⟨v.toNat, nat_eq_some.mpr ⟨v, hv, rfl⟩, ?_⟩
        have hdvd : 2 ^ w ∣ 2 ^ x.bits := pow_dvd_pow 2 hlt.le
        rw [← happ]
        change (U128.extract v x.bits 0 (Ty.integer w).bits).toNat = _
        rw [U128.extract, U128.shrU, if_pos rfl, U128.mask_toNat, U128.mask_toNat,
          Ty.bits_integer, Nat.mod_mod_of_dvd _ hdvd]
    · cases h

/-! ## The local tier -/

/-- A rule that loses nothing, at a node whose excess is zero. -/
theorem replaces_exact (hzero : ∀ env, excess env e = 0) (h : Replaces ctx e r) :
  ReplacesWhen ctx (fun env => excess env e % 2 ^ (w - 64) = 0) e r :=
  h.replacesWhen fun env => by rw [hzero env, Nat.zero_mod]

/-- Every local rule at an integer node: the type is kept, and the value is kept
exactly when no multiple of the host word is lost. -/
theorem localRules_when (he : IntTyped ctx w e) (hw : w ≤ 128) (hb : Built e)
  (h : localRules e = some r) :
  ReplacesWhen ctx (fun env => excess env e % 2 ^ (w - 64) = 0) e r := by
  unfold localRules at h
  split at h
  · exact addRules_when he hw h
  · exact subRules_when he hw h
  · exact mulRules_when he hw h
  · exact replaces_exact (fun _ => rfl) (andRules_replaces he hw h)
  · exact replaces_exact (fun _ => rfl) (orRules_replaces he hw h)
  · exact replaces_exact (fun _ => rfl) (xorRules_replaces he hw h)
  · exact replaces_exact (fun _ => rfl) (notRules_replaces he hw h)
  · exact replaces_exact (fun _ => rfl) (negRules_replaces he hw h)
  · exact replaces_exact (fun _ => rfl) (shiftRules_replaces he hw (by simp) h)
  · exact replaces_exact (fun _ => rfl) (shiftRules_replaces he hw (by simp) h)
  · exact replaces_exact (fun _ => rfl) (shiftRules_replaces he hw (by simp) h)
  · exact replaces_exact (fun _ => rfl) (shiftRules_replaces he hw (by simp) h)
  · exact replaces_exact (fun _ => rfl) (shiftRules_replaces he hw (by simp) h)
  · rename_i t i c x y
    obtain ⟨hxy, hxt, hyt, hval⟩ := selectRules_sound he.wellTyped h
    have hneed := need_ternary (o := .select) (t := t) (i := i) (a := c) (b := x) (c := y) rfl
    have hxwt : x.wellTyped ctx = true := Expr.wellTyped_operand he.wellTyped (by simp)
    have hywt : y.wellTyped ctx = true := Expr.wellTyped_operand he.wellTyped (by simp)
    refine replaces_exact (fun _ => rfl) ⟨?_, ?_, ?_, ?_⟩
    · rcases hxy with rfl | rfl
      · exact hxwt
      · exact hywt
    · rcases hxy with rfl | rfl
      · exact hxt
      · exact hyt
    · rcases hxy with rfl | rfl <;> omega
    · intro env _ n hn
      obtain ⟨v, hv, rfl⟩ := nat_eq_some.mp hn
      exact nat_eq_some.mpr ⟨v, hval hv, rfl⟩
  · rename_i t i x
    have hbx : Built x := fun s hs => hb s (.step (by simp) hs)
    exact replaces_exact (fun _ => rfl) (flagCondRules_replaces he hbx h)
  · exact replaces_exact (fun _ => rfl) (castRules_replaces he hw (by simp) h)
  · exact replaces_exact (fun _ => rfl) (castRules_replaces he hw (by simp) h)
  · exact replaces_exact (fun _ => rfl) (castRules_replaces he hw (by simp) h)
  · exact replaces_exact (fun _ => rfl) (castRules_replaces he hw (by simp) h)
  · cases h

/-! ## Normal order -/

/-- Swapping the operands of a commutative node. -/
theorem swap_replaces (he : IntTyped ctx w (.binary op t i p q)) (hop : commutes op = true) :
  Replaces ctx (.binary op t i p q) (.binary op t i q p) := by
  obtain ⟨F, hsame, hF, hcomm⟩ : ∃ F, sameOp op = true ∧ binSem op = some F ∧
      ∀ x y, F w x y = F w y x := by
    cases op <;> simp only [commutes, Bool.false_eq_true] at hop
    case add => exact ⟨_, rfl, rfl, fun x y => by rw [Nat.add_comm]⟩
    case mul => exact ⟨_, rfl, rfl, fun x y => by rw [Nat.mul_comm]⟩
    case and => exact ⟨_, rfl, rfl, Nat.and_comm⟩
    case or => exact ⟨_, rfl, rfl, Nat.or_comm⟩
    case xor => exact ⟨_, rfl, rfl, Nat.xor_comm⟩
  obtain ⟨hp, hq⟩ := he.operands hsame
  have htypes : [q, p].map Expr.type = [p, q].map Expr.type := by
    simp [hp.type, hq.type]
  have hnode : (Expr.binary op t i q p).nodeOk ctx = (Expr.binary op t i p q).nodeOk ctx :=
    nodeOk_congr rfl rfl rfl htypes
  have hwt : (Expr.binary op t i q p).wellTyped ctx = true := by
    refine Expr.wellTyped_iff.mpr ⟨?_, by simp [hp.wellTyped, hq.wellTyped]⟩
    rw [hnode]
    exact Expr.nodeOk_of_wellTyped he.wellTyped
  have he' : IntTyped ctx w (.binary op t i q p) := ⟨hwt, he.type⟩
  refine ⟨hwt, rfl, ?_, ?_⟩
  · rw [need_binary (readsFlags_of_binSem hF), need_binary (readsFlags_of_binSem hF), Nat.max_comm]
  · intro env hfits n hn
    obtain ⟨u, v, hu, hv, rfl⟩ := (he.nat_iff hsame hF hfits).mp hn
    exact (he'.nat_iff hsame hF hfits).mpr ⟨v, u, hv, hu, hcomm u v⟩

theorem normalised_cases (e : Expr) :
  normalised e = e ∨ ∃ op t i p q, commutes op = true ∧ e = .binary op t i p q ∧
    normalised e = .binary op t i q p := by
  unfold normalised
  split
  · rename_i op t i p q
    by_cases hop : commutes op = true
    · unfold normaliseCommutative
      by_cases hc : p.op = .const ∧ q.op ≠ .const
      · exact .inr ⟨op, t, i, p, q, hop, rfl, by rw [if_pos hop, if_pos hc]⟩
      · exact .inl (by rw [if_pos hop, if_neg hc])
    · exact .inl (if_neg hop)
  · exact .inl rfl

theorem normalised_replaces (he : IntTyped ctx w e) : Replaces ctx e (normalised e) := by
  rcases normalised_cases e with heq | ⟨op, t, i, p, q, hop, rfl, heq⟩
  · rw [heq]
    exact .refl he.wellTyped
  · rw [heq]
    exact swap_replaces he hop

theorem normalised_op (e : Expr) : (normalised e).op = e.op := by
  rcases normalised_cases e with heq | ⟨op, t, i, p, q, -, rfl, heq⟩ <;> rw [heq]
  rfl

theorem mem_normalised {e x : Expr} : x ∈ (normalised e).operands ↔ x ∈ e.operands := by
  rcases normalised_cases e with heq | ⟨op, t, i, p, q, -, rfl, heq⟩ <;> rw [heq]
  simp [or_comm]

theorem built_normalised (hb : Built e) : Built (normalised e) := by
  intro s hs hop
  cases hs with
  | refl =>
    rcases normalised_cases e with heq | ⟨op, t, i, p, q, hcomm, rfl, heq⟩
    · rw [heq] at hop ⊢
      exact hb e (.refl e) hop
    · rw [heq] at hop
      simp only [Expr.op_binary] at hop
      subst hop
      cases hcomm
  | step hx h => exact hb s (.step (mem_normalised.mp hx) h) hop

/-! ## One step -/

/-- The operators with local rules on numbers. -/
def numberRules (op : ExprOp) : Bool :=
  match op with
  | .add | .sub | .mul | .and | .or | .xor | .not | .neg
  | .shl | .shrU | .shrS | .rotR | .rotL | .zext | .sext | .trunc | .extract => true
  | _ => false

/-- What a node handed to `rewriteOnce` has to meet for the step to keep its
value: number rules apply at integer types, constants are built ones, a fold
meets no divergent node, an idiom is over scalar integers with no swapped carry
comparison, and the local rule loses no multiple of the host word. -/
structure StepOk (env : Env) (e : Expr) : Prop where
  integer : numberRules e.op = true → e.type.isInteger = true ∧ e.bits ≤ 128
  built : Built e
  fold : foldRule e ≠ none → ∀ s, Expr.SubExpr s e → ¬ Diverges env s
  idiom : ∀ m : Idiom, m.accepts e.op = true → m.run (normalised e) ≠ none →
    (∀ x ∈ e.operands, x.type.isScalarInteger = true) ∧
      ∀ s, m.swappedSum (normalised e) = some s → nat env s = some 0
  exact : excess env (normalised e) % 2 ^ (e.bits - 64) = 0

/-- A rule that fires is a local one, the even product's or an idiom. -/
theorem rewriteNode_cases (h : rewriteNode e = some r) :
  localRules e = some r ∨ evenRule e = some r ∨
    ∃ m : Idiom, m.accepts e.op = true ∧ m.run e = some r := by
  unfold rewriteNode at h
  split at h
  case h_1 hop =>
    rcases (Option.orElse_eq_some _ _ _).mp h with h | ⟨-, h⟩
    · exact .inr (.inr ⟨.mbaAdd, by rw [hop]; rfl, h⟩)
    · exact .inl h
  case h_2 hop =>
    rcases (Option.orElse_eq_some _ _ _).mp h with h | ⟨-, h⟩
    · exact .inr (.inr ⟨.mbaSub, by rw [hop]; rfl, h⟩)
    rcases (Option.orElse_eq_some _ _ _).mp h with h | ⟨-, h⟩
    · exact .inr (.inr ⟨.obfuscatedIncrement, by rw [hop]; rfl, h⟩)
    · exact .inl h
  case h_3 hop =>
    rcases (Option.orElse_eq_some _ _ _).mp h with h | ⟨-, h⟩
    · exact .inl h
    rcases (Option.orElse_eq_some _ _ _).mp h with h | ⟨-, h⟩
    · exact .inr (.inl h)
    rcases (Option.orElse_eq_some _ _ _).mp h with h | ⟨-, h⟩
    · exact .inr (.inr ⟨.maskedRotate, by rw [hop]; rfl, h⟩)
    rcases (Option.orElse_eq_some _ _ _).mp h with h | ⟨-, h⟩
    · exact .inr (.inr ⟨.maskedShift, by rw [hop]; rfl, h⟩)
    · exact .inr (.inr ⟨.carryCompare, by rw [hop]; rfl, h⟩)
  case h_4 hop =>
    rcases (Option.orElse_eq_some _ _ _).mp h with h | ⟨-, h⟩
    · exact .inl h
    rcases (Option.orElse_eq_some _ _ _).mp h with h | ⟨-, h⟩
    · exact .inr (.inr ⟨.signExtend, by rw [hop]; rfl, h⟩)
    rcases (Option.orElse_eq_some _ _ _).mp h with h | ⟨-, h⟩
    · exact .inr (.inr ⟨.mbaOr, by rw [hop]; rfl, h⟩)
    · exact .inr (.inr ⟨.carryCompareOr, by rw [hop]; rfl, h⟩)
  case h_5 hop =>
    rcases (Option.orElse_eq_some _ _ _).mp h with h | ⟨-, h⟩
    · exact .inl h
    · exact .inr (.inr ⟨.mbaXor, by rw [hop]; rfl, h⟩)
  case h_12 => exact .inl h
  all_goals
    rename_i hop
    rcases (Option.orElse_eq_some _ _ _).mp h with h | ⟨-, h⟩
    · exact .inr (.inr ⟨.shiftedCompare, by rw [hop]; rfl, h⟩)
    · exact .inr (.inr ⟨.cancelledSubtrahend, by rw [hop]; rfl, h⟩)

theorem evenRule_replaces (he : IntTyped ctx w e) (hw : w ≤ 128) (h : evenRule e = some r) :
  Replaces ctx e r := by
  unfold evenRule at h
  split at h
  · rename_i t i x y
    obtain rfl : t = .integer w := he.type
    split at h
    · rename_i hcond
      obtain rfl := Option.some.inj h
      obtain ⟨hx, -⟩ := he.operands rfl
      have hread := Reads.of_const he hw rfl rfl (eq_of_isConst hcond.1)
      refine ⟨(IntTyped.constant he.pos (by omega) 0#64).wellTyped, rfl, by simp, ?_⟩
      intro env hfits n hn
      obtain ⟨u, -, hu, -, -, -, rfl⟩ := hread.nat_eq hfits hn
      have heven := matchEvenProduct_even hx hw hcond.2 hfits hu
      rw [nat_constant hw]
      change some (0 % 2 ^ w) = some (u &&& 1)
      rw [Nat.zero_mod, Nat.and_one_is_mod, heven]
    · cases h
  · cases h

theorem intTyped_of_isInteger (hwt : e.wellTyped ctx = true) (hint : e.type.isInteger = true) :
  IntTyped ctx e.bits e :=
  ⟨hwt, (Ty.eq_integer (valid_of_wellTyped hwt) hint).1⟩

theorem not_isFlags_of_isInteger (hint : t.isInteger = true) : t.isFlags = false := by
  simp only [Ty.isInteger, beq_iff_eq] at hint
  simp [Ty.isFlags, hint]

/-- Folding, where the folder and the interpreter agree. -/
theorem foldRule_preserves (hwt : e.wellTyped ctx = true) (h : foldRule e = some r)
  (hnd : ∀ s, Expr.SubExpr s e → ¬ Diverges env s) : Preserves ctx env e r := by
  unfold foldRule at h
  split at h
  · rename_i hcond
    obtain ⟨out, hout, rfl⟩ := Option.map_eq_some_iff.mp h
    obtain ⟨he, hw⟩ := scalar_type hwt hcond.2.2.1
    obtain ⟨hden, hlt⟩ := den_of_evalRec hwt hnd hout
    have ht := he.type
    rw [Ty.valueBits, not_isFlags_of_isInteger he.isInteger, ← Expr.bits] at hlt
    simp only [Bool.false_eq_true, if_false] at hlt
    generalize e.bits = w at he hw ht hlt
    rw [ht]
    have hc : IntTyped ctx w (.constant (.integer w) out.lo) := .constant he.pos (by omega) _
    refine ⟨hc.wellTyped, ht.symm, ?_, ?_⟩
    · intro m
      cases m with
      | false => simp
      | true =>
        have hflags : e.type.isFlags = false := not_isFlags_of_isInteger he.isInteger
        rw [need_true (op_ne_flagDef hwt hflags), need_true (by simp [Expr.constant])]
        simp
    · intro v hv
      obtain rfl := Option.some.inj (hden.symm.trans hv)
      have h64 : out.toNat < 2 ^ 64 :=
        Nat.lt_of_lt_of_le hlt (Nat.pow_le_pow_right (by decide) hw)
      have hlo : out.lo.toNat = out.toNat := by
        have := out.lo.isLt
        rw [U128.toNat] at h64 ⊢
        omega
      rw [den_eq_some_iff, nat_constant (by omega), hlo, Nat.mod_eq_of_lt hlt]
  · cases h

/-- The arms of a select, as values and as flags operands. -/
theorem select_preserves (hwt : (Expr.ternary .select t i c x y).wellTyped ctx = true)
  (h : selectRules c x y = some r) :
  Preserves ctx env (.ternary .select t i c x y) r := by
  obtain ⟨hxy, hxt, hyt, hval⟩ := selectRules_sound hwt h
  have hxwt : x.wellTyped ctx = true := Expr.wellTyped_operand hwt (by simp)
  have hywt : y.wellTyped ctx = true := Expr.wellTyped_operand hwt (by simp)
  have hneed := need_ternary (o := .select) (t := t) (i := i) (a := c) (b := x) (c := y) rfl
  have htrue := need_true (e := .ternary .select t i c x y) (by simp)
  have hx := need_true_le x
  have hy := need_true_le y
  refine ⟨?_, ?_, ?_, hval⟩
  · rcases hxy with rfl | rfl
    · exact hxwt
    · exact hywt
  · rcases hxy with rfl | rfl
    · exact hxt
    · exact hyt
  · intro m
    rcases hxy with rfl | rfl <;> cases m <;> omega

theorem numberRules_of_commutes (h : commutes op = true) : numberRules op = true := by
  cases op <;> first | rfl | cases h

theorem localRules_other (hop : numberRules e.op = false) (h : localRules e = some r) :
  (∃ t i c x y, e = .ternary .select t i c x y ∧ selectRules c x y = some r) ∨
    ∃ t i x, e = .unary .flagCond t i x := by
  unfold localRules at h
  split at h
  case h_14 => exact .inl ⟨_, _, _, _, _, rfl, h⟩
  case h_15 => exact .inr ⟨_, _, _, rfl⟩
  case h_20 => cases h
  all_goals cases hop

/-- **One step.**  A step that meets its conditions may replace its node. -/
theorem rewriteOnce_preserves (hwt : e.wellTyped ctx = true) (hfits : env.Fits ctx)
  (h : StepOk env e) : Preserves ctx env e (rewriteOnce e) := by
  unfold rewriteOnce
  split
  · rename_i c hc
    exact foldRule_preserves hwt hc (h.fold (by rw [hc]; simp))
  have hnorm : Preserves ctx env e (normalised e) := by
    rcases normalised_cases e with heq | ⟨op, t, i, p, q, hop, rfl, heq⟩
    · rw [heq]
      exact .refl hwt
    · obtain ⟨hint, -⟩ := h.integer (numberRules_of_commutes hop)
      exact (normalised_replaces (intTyped_of_isInteger hwt hint)).preserves hwt
        (not_isFlags_of_isInteger hint) hfits
  cases hr : rewriteNode (normalised e) with
  | none => exact hnorm
  | some r =>
    refine hnorm.trans ?_
    have hop := normalised_op e
    have hbits : (normalised e).bits = e.bits := by rw [Expr.bits, hnorm.type]
    have hbuilt := built_normalised h.built
    have hexact := h.exact
    have hidiom := h.idiom
    have hinteger := h.integer
    have hmem := fun x => (mem_normalised (e := e) (x := x)).mp
    have hwt' := hnorm.wellTyped
    rw [← hop] at hidiom hinteger
    rw [← hbits] at hexact hinteger
    rw [← hnorm.type] at hinteger
    generalize normalised e = e' at *
    rcases rewriteNode_cases hr with hlocal | heven | ⟨m, hm, hrun⟩
    · cases hnum : numberRules e'.op with
      | true =>
        obtain ⟨hint, hw⟩ := hinteger hnum
        exact (localRules_when (intTyped_of_isInteger hwt' hint) hw hbuilt hlocal).preserves
          hwt' (not_isFlags_of_isInteger hint) hfits hexact
      | false =>
        rcases localRules_other hnum hlocal with ⟨t, i, c, x, y, rfl, hsel⟩ | ⟨t, i, x, rfl⟩
        · exact select_preserves hwt' hsel
        · have hbool : t.isBoolean = true := by
            have hok := Expr.nodeOk_of_wellTyped hwt'
            simp only [Expr.nodeOk, Bool.and_eq_true] at hok
            have hres := hok.1.1.2
            simpa [Expr.resultRuleOk, ExprOp.info] using hres
          have he := IntTyped.of_isBoolean hwt' hbool
          exact (localRules_when he (by decide) hbuilt hlocal).preserves hwt'
            (not_isFlags_of_isInteger he.isInteger) hfits (by rw [he.bits] at hexact; exact hexact)
    · have hand : e'.op = .and := by
        unfold evenRule at heven
        split at heven
        · rfl
        · cases heven
      obtain ⟨hint, hw⟩ := hinteger (by rw [hand]; rfl)
      exact (evenRule_replaces (intTyped_of_isInteger hwt' hint) hw heven).preserves hwt'
        (not_isFlags_of_isInteger hint) hfits
    · obtain ⟨hscalar, hswap⟩ := hidiom m hm (by rw [hrun]; simp)
      obtain ⟨op, t, i, p, q, rfl⟩ := Idiom.binary_of_run hrun
      obtain ⟨hp, hw⟩ := scalar_type (nodeOk_binary hwt').1 (hscalar p (hmem p (by simp)))
      have hflags : t.isFlags = false := by
        by_cases hcmp : cmpOp op = true
        · obtain ⟨-, -, rfl⟩ := cmp_typed hwt' hcmp hp.type
          rfl
        · have hnum : numberRules op = true := by
            cases m <;> simp only [Idiom.accepts, beq_iff_eq, Expr.op_binary] at hm <;>
              first | (subst hm; rfl) | exact absurd hm hcmp
          exact not_isFlags_of_isInteger (hinteger hnum).1
      exact (m.run_replaces hwt' hp hw hm hrun).preserves hwt' hflags hfits hswap

end Algebra

end Xdec

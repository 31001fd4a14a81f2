import Xdec.Idioms

/-!
# Soundness of the idiom matchers

The mixed boolean-arithmetic shapes are functions of one pair of
subexpressions.  `Reads` records that an expression is such a function;
reading a node, a doubling or a combination of two readings gives a reading,
and a reading that agrees with one operator is replaced by that operator.

The remaining matchers look at a constant mask or shift amount.  Each has an
arithmetic fact about numbers and one lemma that carries it to the tree.
-/

namespace Xdec

namespace Idioms

variable {ctx : Ctx} {env : Env} {w : Nat} {op : ExprOp} {t : Ty} {i : U64}
  {a b e r lhs rhs : Expr}

theorem operandsOf_eq_some {p q : Expr} (h : operandsOf e op = some (p, q)) :
  ∃ t i, e = .binary op t i p q := by
  unfold operandsOf at h
  split at h
  · rename_i o t i x y
    split at h
    · rename_i ho
      simp only [Option.some.injEq, Prod.mk.injEq] at h
      obtain ⟨rfl, rfl⟩ := h
      exact ⟨t, i, by rw [ho]⟩
    · cases h
  · cases h

/-! ## Functions of a pair -/

/-- `e` is the function `g` of the numbers of `a` and `b`. -/
structure Reads (ctx : Ctx) (w : Nat) (e a b : Expr) (g : Nat → Nat → Nat) : Prop where
  left : IntTyped ctx w a
  right : IntTyped ctx w b
  left_need : need a false < need e false
  right_need : need b false < need e false
  nat_eq : ∀ {env : Env}, env.Fits ctx → ∀ {n}, nat env e = some n →
    ∃ x y, nat env a = some x ∧ nat env b = some y ∧ x < 2 ^ w ∧ y < 2 ^ w ∧ n = g x y

variable {f g k : Nat → Nat → Nat} {F : Nat → Nat → Nat → Nat}

theorem Reads.swap (h : Reads ctx w e a b g) : Reads ctx w e b a (fun x y => g y x) := by
  refine ⟨h.right, h.left, h.right_need, h.left_need, ?_⟩
  intro env hfits n hn
  obtain ⟨x, y, hx, hy, hxlt, hylt, rfl⟩ := h.nat_eq hfits hn
  exact ⟨y, x, hy, hx, hylt, hxlt, rfl⟩

theorem Reads.congr (h : Reads ctx w e a b g) (hg : ∀ x y, g x y = k x y) :
  Reads ctx w e a b k := by
  have hgk : g = k := funext fun x => funext fun y => hg x y
  exact hgk ▸ h

theorem Reads.of_binary (he : IntTyped ctx w (.binary op t i a b)) (hop : sameOp op = true)
  (hF : binSem op = some F) : Reads ctx w (.binary op t i a b) a b (F w) := by
  obtain ⟨ha, hb⟩ := he.operands hop
  have hneed := need_binary (t := t) (i := i) (a := a) (b := b) (readsFlags_of_binSem hF)
  refine ⟨ha, hb, by omega, by omega, ?_⟩
  intro env hfits n hn
  obtain ⟨x, y, hx, hy, hxy⟩ := (he.nat_iff hop hF hfits).mp hn
  exact ⟨x, y, hx, hy, (ha.lt hfits hx).1, (hb.lt hfits hy).1, hxy⟩

theorem Reads.combine (he : IntTyped ctx w (.binary op t i lhs rhs)) (hop : sameOp op = true)
  (hF : binSem op = some F) (hl : Reads ctx w lhs a b g) (hr : Reads ctx w rhs a b k) :
  Reads ctx w (.binary op t i lhs rhs) a b (fun x y => F w (g x y) (k x y)) := by
  have hneed := need_binary (t := t) (i := i) (a := lhs) (b := rhs) (readsFlags_of_binSem hF)
  have hla := hl.left_need
  have hlb := hl.right_need
  refine ⟨hl.left, hl.right, by omega, by omega, ?_⟩
  intro env hfits n hn
  obtain ⟨u, v, hu, hv, rfl⟩ := (he.nat_iff hop hF hfits).mp hn
  obtain ⟨x, y, hx, hy, hxlt, hylt, rfl⟩ := hl.nat_eq hfits hu
  obtain ⟨x', y', hx', hy', -, -, rfl⟩ := hr.nat_eq hfits hv
  obtain rfl := Option.some.inj (hx.symm.trans hx')
  obtain rfl := Option.some.inj (hy.symm.trans hy')
  exact ⟨x, y, hx, hy, hxlt, hylt, rfl⟩

theorem Reads.of_const {c : Expr} {k : U64} (he : IntTyped ctx w (.binary op t i a c))
  (hw : w ≤ 128) (hop : sameOp op = true) (hF : binSem op = some F)
  (hk : c.asConstant = some k) :
  Reads ctx w (.binary op t i a c) a a (fun x _ => F w x k.toNat) := by
  have hr := Reads.of_binary he hop hF
  refine ⟨hr.left, hr.left, hr.left_need, hr.left_need, ?_⟩
  intro env hfits n hn
  obtain ⟨x, y, hx, hy, hxlt, -, rfl⟩ := hr.nat_eq hfits hn
  have hyk := (hr.right.asConstant (by omega) hk).2.1 env
  obtain rfl := Option.some.inj (hy.symm.trans hyk)
  exact ⟨x, x, hx, hx, hxlt, hxlt, rfl⟩

/-- A reading of one expression follows that expression's own reading. -/
theorem Reads.comp {d : Expr} {f : Nat → Nat} (h : Reads ctx w e d d (fun x _ => f x))
  (hd : Reads ctx w d a b g) : Reads ctx w e a b (fun x y => f (g x y)) := by
  have hlt := h.left_need
  have hl := hd.left_need
  have hr := hd.right_need
  refine ⟨hd.left, hd.right, by omega, by omega, ?_⟩
  intro env hfits n hn
  obtain ⟨m, -, hm, -, -, -, rfl⟩ := h.nat_eq hfits hn
  obtain ⟨x, y, hx, hy, hxlt, hylt, rfl⟩ := hd.nat_eq hfits hm
  exact ⟨x, y, hx, hy, hxlt, hylt, rfl⟩

/-- An expression of the same type and depth with the same reading. -/
theorem Reads.replaces_of (he : IntTyped ctx w e) (h : Reads ctx w e a b g)
  (hr : IntTyped ctx w r) (hneed : need r false ≤ need e false)
  (hval : ∀ {env : Env}, env.Fits ctx → ∀ {x y}, x < 2 ^ w → y < 2 ^ w →
    nat env a = some x → nat env b = some y → nat env r = some (g x y)) :
  Replaces ctx e r := by
  refine ⟨hr.wellTyped, hr.type.trans he.type.symm, hneed, ?_⟩
  intro env hfits n hn
  obtain ⟨x, y, hx, hy, hxlt, hylt, rfl⟩ := h.nat_eq hfits hn
  exact hval hfits hxlt hylt hx hy

theorem need_mkBinary (hF : binSem op = some F) :
  need (.mkBinary op a b) false = max (need a false) (need b false) + 1 :=
  need_binary (readsFlags_of_binSem hF)

@[simp] theorem need_constant (k : U64) : need (.constant t k) false = 0 := need_leaf

theorem Reads.replaces (he : IntTyped ctx w e) (h : Reads ctx w e a b g)
  (hop : sameOp op = true) (hF : binSem op = some F)
  (heq : ∀ x y, x < 2 ^ w → y < 2 ^ w → g x y = F w x y) :
  Replaces ctx e (.mkBinary op a b) := by
  refine h.replaces_of he (h.left.mkBinary h.right hop) ?_ ?_
  · have hla := h.left_need
    have hlb := h.right_need
    rw [need_mkBinary hF]
    omega
  · intro env hfits x y hxlt hylt hx hy
    rw [heq x y hxlt hylt]
    exact nat_mkBinary h.left h.right hop hF hfits hx hy

/-! ## Doubling -/

theorem doubledOperand_reads (he : IntTyped ctx w e) (hw : w ≤ 128)
  (h : doubledOperand e = some a) :
  Reads ctx w e a a (fun x _ => 2 * x % 2 ^ w) := by
  obtain ⟨o, t, i, v, b, rfl⟩ : ∃ o t i v b, e = .binary o t i v b := by
    cases e <;> simp [doubledOperand] at h ⊢
  have htwice : ∀ x y : Nat, x * 2 % 2 ^ w = 2 * x % 2 ^ w := fun x _ => by rw [Nat.mul_comm]
  simp only [doubledOperand] at h
  split at h
  · rename_i ho
    subst ho
    split at h
    · rename_i hb
      obtain rfl := Option.some.inj h
      exact (Reads.of_const he (by omega) rfl rfl hb).congr htwice
    · cases h
  · split at h
    · rename_i ho
      subst ho
      split at h
      · rename_i hb
        obtain rfl := Option.some.inj h
        exact (Reads.of_const he (by omega) rfl rfl hb).congr htwice
      · cases h
    · cases h

/-! ## Mixed boolean arithmetic -/

section Pairs

variable {outer inner result : ExprOp} {F G : Nat → Nat → Nat → Nat}

theorem pairRule_reads (hl : IntTyped ctx w lhs) (hr : IntTyped ctx w rhs)
  (h : pairRule outer inner result lhs rhs = some r)
  (ho : sameOp outer = true) (hF : binSem outer = some F)
  (hi : sameOp inner = true) (hG : binSem inner = some G)
  (hcomm : ∀ x y, G w x y = G w y x) :
  ∃ a b, r = .mkBinary result a b ∧ Reads ctx w lhs a b (F w) ∧ Reads ctx w rhs a b (G w) := by
  unfold pairRule at h
  split at h
  · rename_i x y p q hx hp
    obtain ⟨t, i, rfl⟩ := operandsOf_eq_some hx
    obtain ⟨t', i', rfl⟩ := operandsOf_eq_some hp
    have hleft := Reads.of_binary hl ho hF
    have hright := Reads.of_binary hr hi hG
    split at h
    · rename_i hpair
      obtain rfl := Option.some.inj h
      refine ⟨x, y, rfl, hleft, ?_⟩
      simp only [samePair, Bool.or_eq_true, Bool.and_eq_true, beq_iff_eq] at hpair
      rcases hpair with ⟨rfl, rfl⟩ | ⟨rfl, rfl⟩
      · exact hright
      · exact hright.swap.congr fun u v => hcomm v u
    · cases h
  · cases h

end Pairs

variable {p q : Expr}

theorem mbaAddArm_reads (hl : IntTyped ctx w lhs) (hr : IntTyped ctx w rhs) (hw : w ≤ 128)
  (h : mbaAddArm lhs rhs = some r) :
  ∃ a b g k, Reads ctx w lhs a b g ∧ Reads ctx w rhs a b k ∧
    ((r = .mkBinary .add a b ∧
        ∀ x y, x < 2 ^ w → y < 2 ^ w → (g x y + k x y) % 2 ^ w = (x + y) % 2 ^ w) ∨
      (r = .mkBinary .or a b ∧
        ∀ x y, x < 2 ^ w → y < 2 ^ w → (g x y + k x y) % 2 ^ w = x ||| y)) := by
  unfold mbaAddArm at h
  rcases (Option.orElse_eq_some _ _ _).mp h with h | ⟨-, h⟩
  · obtain ⟨d, hd, hp⟩ := Option.bind_eq_some_iff.mp h
    have hread := doubledOperand_reads hr (by omega) hd
    obtain ⟨a, b, rfl, hra, hrb⟩ :=
      pairRule_reads hl hread.left hp rfl rfl rfl rfl (fun x y => Nat.and_comm x y)
    refine ⟨a, b, _, _, hra, hread.comp hrb, .inl ⟨rfl, ?_⟩⟩
    intro x y _ _
    rw [Nat.add_mod_mod, NatBits.xor_add_two_mul_and]
  · rcases (Option.orElse_eq_some _ _ _).mp h with h | ⟨-, h⟩
    · obtain ⟨a, b, rfl, hra, hrb⟩ :=
        pairRule_reads hl hr h rfl rfl rfl rfl (fun x y => Nat.and_comm x y)
      refine ⟨a, b, _, _, hra, hrb, .inl ⟨rfl, ?_⟩⟩
      intro x y _ _
      rw [NatBits.or_add_and]
    · obtain ⟨a, b, rfl, hra, hrb⟩ :=
        pairRule_reads hl hr h rfl rfl rfl rfl (fun x y => Nat.xor_comm x y)
      refine ⟨a, b, _, _, hra, hrb, .inr ⟨rfl, ?_⟩⟩
      intro x y hx hy
      rw [NatBits.and_add_xor, Nat.mod_eq_of_lt (Nat.or_lt_two_pow hx hy)]

theorem matchMbaAdd_replaces (he : IntTyped ctx w (.binary .add t i p q)) (hw : w ≤ 128)
  (h : matchMbaAdd (.binary .add t i p q) = some r) :
  Replaces ctx (.binary .add t i p q) r := by
  obtain ⟨hp, hq⟩ := he.operands rfl
  rcases (Option.orElse_eq_some _ _ _).mp h with h | ⟨-, h⟩
  · obtain ⟨a, b, g, k, hg, hk, ⟨rfl, heq⟩ | ⟨rfl, heq⟩⟩ := mbaAddArm_reads hp hq hw h
    · exact (hg.combine he rfl rfl hk).replaces he rfl rfl heq
    · exact (hg.combine he rfl rfl hk).replaces he rfl rfl heq
  · obtain ⟨a, b, g, k, hg, hk, ⟨rfl, heq⟩ | ⟨rfl, heq⟩⟩ := mbaAddArm_reads hq hp hw h
    all_goals
      refine (hk.combine he rfl rfl hg).replaces he rfl rfl fun x y hx hy => ?_
      rw [Nat.add_comm (k x y)]
      exact heq x y hx hy

theorem matchMbaOr_replaces (he : IntTyped ctx w (.binary .or t i p q))
  (h : matchMbaOr (.binary .or t i p q) = some r) :
  Replaces ctx (.binary .or t i p q) r := by
  obtain ⟨hp, hq⟩ := he.operands rfl
  rcases (Option.orElse_eq_some _ _ _).mp h with h | ⟨-, h⟩
  · obtain ⟨a, b, rfl, hra, hrb⟩ :=
      pairRule_reads hp hq h rfl rfl rfl rfl (fun x y => Nat.xor_comm x y)
    exact (hra.combine he rfl rfl hrb).replaces he rfl rfl fun x y _ _ => NatBits.and_or_xor x y
  · obtain ⟨a, b, rfl, hra, hrb⟩ :=
      pairRule_reads hq hp h rfl rfl rfl rfl (fun x y => Nat.xor_comm x y)
    refine (hrb.combine he rfl rfl hra).replaces he rfl rfl fun x y _ _ => ?_
    rw [Nat.or_comm]
    exact NatBits.and_or_xor x y

theorem matchMbaXor_replaces (he : IntTyped ctx w (.binary .xor t i p q))
  (h : matchMbaXor (.binary .xor t i p q) = some r) :
  Replaces ctx (.binary .xor t i p q) r := by
  obtain ⟨hp, hq⟩ := he.operands rfl
  rcases (Option.orElse_eq_some _ _ _).mp h with h | ⟨-, h⟩
  · obtain ⟨a, b, rfl, hra, hrb⟩ :=
      pairRule_reads hp hq h rfl rfl rfl rfl (fun x y => Nat.and_comm x y)
    exact (hra.combine he rfl rfl hrb).replaces he rfl rfl fun x y _ _ => NatBits.or_xor_and x y
  · obtain ⟨a, b, rfl, hra, hrb⟩ :=
      pairRule_reads hq hp h rfl rfl rfl rfl (fun x y => Nat.and_comm x y)
    refine (hrb.combine he rfl rfl hra).replaces he rfl rfl fun x y _ _ => ?_
    rw [Nat.xor_comm]
    exact NatBits.or_xor_and x y

theorem matchMbaSub_replaces (he : IntTyped ctx w (.binary .sub t i p q)) (hw : w ≤ 128)
  (h : matchMbaSub (.binary .sub t i p q) = some r) :
  Replaces ctx (.binary .sub t i p q) r := by
  obtain ⟨hp, hq⟩ := he.operands rfl
  rcases (Option.orElse_eq_some _ _ _).mp h with h | ⟨-, h⟩
  · obtain ⟨a, b, rfl, hra, hrb⟩ :=
      pairRule_reads hp hq h rfl rfl rfl rfl (fun x y => Nat.and_comm x y)
    refine (hra.combine he rfl rfl hrb).replaces he rfl rfl fun x y hx hy => ?_
    have hand : x &&& y < 2 ^ w := Nat.and_lt_two_pow x hy
    have hsum : x ||| y = (x ^^^ y) + (x &&& y) := by
      have := NatBits.and_add_xor x y
      omega
    rw [NatBits.add_compl_mod hand.le hsum, Nat.mod_eq_of_lt (Nat.xor_lt_two_pow hx hy)]
  · obtain ⟨d, hd, hpair⟩ := Option.bind_eq_some_iff.mp h
    have hread := doubledOperand_reads hp (by omega) hd
    obtain ⟨a, b, rfl, hra, hrb⟩ :=
      pairRule_reads hread.left hq hpair rfl rfl rfl rfl (fun x y => Nat.xor_comm x y)
    refine ((hread.comp hra).combine he rfl rfl hrb).replaces he rfl rfl
      fun x y hx hy => ?_
    have hxor : x ^^^ y < 2 ^ w := Nat.xor_lt_two_pow hx hy
    have hsum : 2 * (x ||| y) = (x + y) + (x ^^^ y) := by
      have := NatBits.and_add_xor x y
      have := NatBits.xor_add_two_mul_and x y
      omega
    rw [Nat.mod_add_mod, NatBits.add_compl_mod hxor.le hsum]

theorem matchObfuscatedIncrement_eq_some
  (h : matchObfuscatedIncrement (.binary op t i p q) = some r) :
  ∃ t₁ i₁ l two t₂ i₂ v one, p = .binary .or t₁ i₁ l two ∧ q = .binary .xor t₂ i₂ v one ∧
    doubledOperand l = some v ∧ two.asConstant = some 2#64 ∧ one.asConstant = some 1#64 ∧
    r = .mkBinary .add v (.constant t 1#64) := by
  unfold matchObfuscatedIncrement at h
  simp only at h
  split at h
  · rename_i l two hor
    obtain ⟨t₁, i₁, rfl⟩ := operandsOf_eq_some hor
    split at h
    · rename_i v hdouble
      split at h
      · cases h
      · rename_i htwo
        split at h
        · rename_i x one hxor
          obtain ⟨t₂, i₂, rfl⟩ := operandsOf_eq_some hxor
          split at h
          · cases h
          · rename_i hcond
            simp only [ne_eq, not_or, Decidable.not_not] at htwo hcond
            obtain ⟨rfl, hone⟩ := hcond
            exact ⟨t₁, i₁, l, two, t₂, i₂, x, one, rfl, rfl, hdouble, htwo, hone,
              (Option.some.inj h).symm⟩
        · cases h
    · cases h
  · cases h

theorem matchObfuscatedIncrement_replaces (he : IntTyped ctx w (.binary .sub t i p q))
  (hw : w ≤ 128) (h : matchObfuscatedIncrement (.binary .sub t i p q) = some r) :
  Replaces ctx (.binary .sub t i p q) r := by
  obtain ⟨t₁, i₁, l, two, t₂, i₂, v, one, rfl, rfl, hdouble, htwo, hone, rfl⟩ :=
    matchObfuscatedIncrement_eq_some h
  obtain ⟨hp, hq⟩ := he.operands rfl
  obtain ⟨hl, htwot⟩ := hp.operands rfl
  have hv := doubledOperand_reads hl (by omega) hdouble
  have hreadOr := (Reads.of_const hp (by omega) rfl rfl htwo).comp hv
  have hreadXor := Reads.of_const hq (by omega) rfl rfl hone
  have ht : t = Ty.integer w := he.type
  have hw2 : 2 ≤ w := by
    have hlt := (htwot.asConstant (by omega) htwo).2.2
    by_contra hlt2
    have hpos := he.pos
    obtain rfl : w = 1 := by omega
    exact absurd hlt (by decide)
  have hc : IntTyped ctx w (.constant t 1#64) := ht ▸ .constant he.pos (by omega) 1#64
  refine (hreadOr.combine he rfl rfl hreadXor).replaces_of he (hv.left.mkBinary hc rfl) ?_ ?_
  · have hneed := (hreadOr.combine he rfl rfl hreadXor).left_need
    rw [need_mkBinary rfl, need_constant]
    omega
  · intro env hfits x y hx _ hnx _
    have hcval : nat env (.constant t 1#64) = some (1 % 2 ^ w) := by
      rw [ht]
      exact nat_constant (by omega) 1#64
    rw [nat_mkBinary hv.left hc rfl rfl hfits hnx hcval, Nat.add_mod_mod]
    exact congrArg some (NatBits.double_or_two_sub_xor_one hw2 hx).symm

/-! ## Even products -/

theorem even_two_pow (hw : 0 < w) : 2 ∣ 2 ^ w := dvd_pow_self 2 (by omega)

theorem evenArm_parity {x n : Nat} (hp : IntTyped ctx w p) (hw : w ≤ 128)
  (h : evenArm p q = true) (hfits : env.Fits ctx)
  (hx : nat env q = some x) (hn : nat env p = some n) : n % 2 ≠ x % 2 := by
  have hdvd := even_two_pow hp.pos
  cases p with
  | leaf o t i => simp [evenArm] at h
  | ternary o t i a b c => simp [evenArm] at h
  | unary o t i a =>
    simp only [evenArm, Bool.and_eq_true, beq_iff_eq] at h
    obtain ⟨rfl, rfl⟩ := h
    obtain ⟨y, hy, rfl⟩ := (hp.nat_unary rfl hfits).mp hn
    obtain rfl := Option.some.inj (hx.symm.trans hy)
    have hlt := ((hp.operand rfl).lt hfits hx).1
    omega
  | binary o t i a one =>
    simp only [evenArm, Bool.and_eq_true, Bool.or_eq_true, beq_iff_eq] at h
    obtain ⟨⟨ho, hone⟩, rfl⟩ := h
    -- The constant is one, so the factor is the other operand plus or minus one.
    rcases ho with rfl | rfl
    · obtain ⟨y, -, hy, -, hlt, -, rfl⟩ := (Reads.of_const hp (by omega) rfl rfl hone).nat_eq hfits hn
      obtain rfl := Option.some.inj (hx.symm.trans hy)
      have hpow : (1#64).toNat = 1 := rfl
      rw [Nat.mod_mod_of_dvd _ hdvd, hpow]
      have := Nat.one_lt_two_pow (show w ≠ 0 from by have := hp.pos; omega)
      omega
    · obtain ⟨y, -, hy, -, -, -, rfl⟩ := (Reads.of_const hp (by omega) rfl rfl hone).nat_eq hfits hn
      obtain rfl := Option.some.inj (hx.symm.trans hy)
      have hpow : (1#64).toNat = 1 := rfl
      rw [Nat.mod_mod_of_dvd _ hdvd, hpow]
      omega

theorem matchEvenProduct_even {n : Nat} (he : IntTyped ctx w e) (hw : w ≤ 128)
  (h : matchEvenProduct e = true) (hfits : env.Fits ctx) (hn : nat env e = some n) :
  n % 2 = 0 := by
  cases e with
  | leaf o t i => simp [matchEvenProduct] at h
  | unary o t i a => simp [matchEvenProduct] at h
  | ternary o t i a b c => simp [matchEvenProduct] at h
  | binary o t i p q =>
    simp only [matchEvenProduct, Bool.and_eq_true, Bool.or_eq_true, beq_iff_eq] at h
    obtain ⟨rfl, h⟩ := h
    obtain ⟨hp, hq⟩ := he.operands rfl
    obtain ⟨x, y, hx, hy, rfl⟩ := (he.nat_iff rfl rfl hfits).mp hn
    have hpar : x % 2 ≠ y % 2 := by
      rcases h with h | h
      · exact evenArm_parity hp hw h hfits hy hx
      · exact (evenArm_parity hq hw h hfits hx hy).symm
    rw [Nat.mod_mod_of_dvd _ (even_two_pow he.pos), Nat.mul_mod]
    rcases Nat.mod_two_eq_zero_or_one x with h0 | h0 <;>
      rcases Nat.mod_two_eq_zero_or_one y with h1 | h1 <;> simp_all

/-! ## Carry comparisons -/

variable {m : CarryBound}

theorem carryArm_eq_some {sumId other eqLhs : Expr}
  (h : carryArm sumId other eqLhs = some m) :
  ∃ t i y added, sumId = .binary .add t i other y ∧ eqLhs = sumId ∧
    t.isScalarInteger = true ∧ y.asConstant = some added ∧ added ≠ 0#64 ∧
    m = ⟨other, zeroExtend (0#64 - added) t.bits, t⟩ := by
  unfold carryArm at h
  split at h
  · cases h
  · rename_i heq
    simp only [ne_eq, Decidable.not_not] at heq
    split at h
    · rename_i o t i x y
      split at h
      · cases h
      · rename_i hcond
        simp only [ne_eq, not_or, Decidable.not_not] at hcond
        obtain ⟨rfl, rfl⟩ := hcond
        split at h
        · cases h
        · rename_i hscalar
          simp only [Bool.or_eq_true, Bool.not_eq_true', not_or, Bool.not_eq_false] at hscalar
          split at h
          · rename_i added hadded
            split at h
            · cases h
            · rename_i hne
              exact ⟨t, i, y, added, rfl, heq.symm, hscalar.1, hadded, hne,
                (Option.some.inj h).symm⟩
          · cases h
    · cases h

/-- The sum of a carry comparison and where it stands. -/
theorem matchCarryBound_eq_some {cmpOp eqOp : ExprOp}
  (h : matchCarryBound p q cmpOp eqOp = some m) :
  ∃ t₁ i₁ t₂ i₂ x y z s, p = .binary cmpOp t₁ i₁ x y ∧ q = .binary eqOp t₂ i₂ s z ∧
    z.asConstant = some 0#64 ∧ carryArm s m.other s = some m ∧
    ((x = s ∧ y = m.other) ∨ (x = m.other ∧ y = s)) := by
  unfold matchCarryBound at h
  split at h
  · rename_i x y s z hp hq
    obtain ⟨t₁, i₁, rfl⟩ := operandsOf_eq_some hp
    obtain ⟨t₂, i₂, rfl⟩ := operandsOf_eq_some hq
    split at h
    · rename_i hz
      rcases (Option.orElse_eq_some _ _ _).mp h with h | ⟨-, h⟩
      · obtain ⟨t, i, k, added, -, rfl, -, -, -, rfl⟩ := carryArm_eq_some h
        exact ⟨t₁, i₁, t₂, i₂, _, _, z, _, rfl, rfl, hz, h, .inl ⟨rfl, rfl⟩⟩
      · obtain ⟨t, i, k, added, -, rfl, -, -, -, rfl⟩ := carryArm_eq_some h
        exact ⟨t₁, i₁, t₂, i₂, _, _, z, _, rfl, rfl, hz, h, .inr ⟨rfl, rfl⟩⟩
    · cases h
  · cases h

theorem scalar_type (hwt : e.wellTyped ctx = true) (hs : e.type.isScalarInteger = true) :
  IntTyped ctx e.bits e ∧ e.bits ≤ 64 := by
  simp only [Ty.isScalarInteger, Bool.and_eq_true, beq_iff_eq, decide_eq_true_eq] at hs
  have hint : e.type.isInteger = true := by simp [Ty.isInteger, hs.1.1]
  obtain ⟨heq, -⟩ := Ty.eq_integer (valid_of_wellTyped hwt) hint
  refine ⟨⟨hwt, heq⟩, ?_⟩
  have hlanes : e.type.lanes = 1 := by rw [heq]; rfl
  rw [Expr.bits, Ty.bits, hlanes]
  omega

/-- Adding a nonzero constant wraps exactly when the other summand reaches the
constant's negation. -/
theorem carry_cases {o c W : Nat} (ho : o < W) (hcW : c < W) :
  (o < W - c ∧ (o + c) % W = o + c) ∨ (W - c ≤ o ∧ (o + c) % W = o - (W - c)) := by
  by_cases h : o + c < W
  · exact .inl ⟨by omega, Nat.mod_eq_of_lt h⟩
  · refine .inr ⟨by omega, ?_⟩
    rw [Nat.mod_eq_sub_mod (by omega), Nat.mod_eq_of_lt (by omega)]
    omega

/-- The sum of a carry comparison: its type, and its value against the bound. -/
theorem carryArm_spec {s other : Expr} (hwt : s.wellTyped ctx = true)
  (h : carryArm s other s = some m) :
  ∃ w, IntTyped ctx w s ∧ IntTyped ctx w other ∧ w ≤ 64 ∧ m.type = .integer w ∧
    m.other = other ∧ need other false < need s false ∧
    0 < m.bound.toNat ∧ m.bound.toNat < 2 ^ w ∧
    ∀ {env : Env}, env.Fits ctx → ∀ {v}, nat env s = some v → ∃ o, nat env other = some o ∧
      ((o < m.bound.toNat ∧ o < v) ∨
        (m.bound.toNat ≤ o ∧ v = o - m.bound.toNat)) := by
  obtain ⟨t, i, y, added, rfl, -, hscalar, hadded, hne, rfl⟩ := carryArm_eq_some h
  obtain ⟨hs, hw⟩ := scalar_type hwt hscalar
  have hread := Reads.of_const hs (by omega) rfl rfl hadded
  obtain ⟨-, -, hlt⟩ := (hs.operands rfl).2.asConstant (by omega) hadded
  have hpos : 0 < added.toNat := by
    by_contra h0
    exact hne (BitVec.eq_of_toNat_eq (by simp at h0 ⊢; omega))
  have ht : t = Ty.integer (Expr.binary .add t i other y).bits := hs.type
  generalize (Expr.binary .add t i other y).bits = w at *
  have htb : t.bits = w := by rw [ht, Ty.bits_integer]
  have hbound : (zeroExtend (0#64 - added) t.bits).toNat = 2 ^ w - added.toNat := by
    rw [htb, zeroExtend_sub_toNat hw hlt, BitVec.toNat_ofNat, Nat.zero_mod, Nat.zero_add]
    exact Nat.mod_eq_of_lt (by omega)
  refine ⟨w, hs, hread.left, hw, ht, rfl, hread.left_need, ?_, ?_, ?_⟩
  · simp only [hbound]
    omega
  · simp only [hbound]
    omega
  · intro env hfits v hv
    obtain ⟨o, -, ho, -, holt, -, rfl⟩ := hread.nat_eq hfits hv
    refine ⟨o, ho, ?_⟩
    simp only [hbound]
    rcases carry_cases holt hlt with ⟨h1, h2⟩ | ⟨h1, h2⟩
    · exact .inl ⟨h1, by rw [h2]; omega⟩
    · exact .inr ⟨h1, h2⟩

/-- The sum of a comparison `sum op other` with `sum = other + added`. -/
def sumFirst (cmp : Expr) : Option Expr :=
  match cmp with
  | .binary _ _ _ (.binary .add t i x y) other =>
    if x = other then some (.binary .add t i x y) else none
  | _ => none

/-- The sum of a comparison `other op sum` with `sum = other + added`. -/
def sumSecond (cmp : Expr) : Option Expr :=
  match cmp with
  | .binary _ _ _ other (.binary .add t i x y) =>
    if x = other then some (.binary .add t i x y) else none
  | _ => none

theorem ne_sum_of_sum (t t' : Ty) (i i' : U64) (o y y' : Expr) :
  o ≠ .binary .add t' i' (.binary .add t i o y) y' := by
  intro h
  have := congrArg Expr.height h
  simp only [Expr.height] at this
  omega

theorem sum_sides (op : ExprOp) (t t' : Ty) (i i' : U64) (o y : Expr) :
  sumFirst (.binary op t i (.binary .add t' i' o y) o) = some (.binary .add t' i' o y) ∧
    sumSecond (.binary op t i (.binary .add t' i' o y) o) = none ∧
    sumFirst (.binary op t i o (.binary .add t' i' o y)) = none ∧
    sumSecond (.binary op t i o (.binary .add t' i' o y)) = some (.binary .add t' i' o y) := by
  refine ⟨by simp [sumFirst], ?_, ?_, by simp [sumSecond]⟩
  · unfold sumSecond
    split
    · rename_i heq
      rw [if_neg]
      intro hx
      simp only [Expr.binary.injEq] at heq
      obtain ⟨-, -, -, hsum, ho⟩ := heq
      rw [hx, ← hsum] at ho
      exact ne_sum_of_sum _ _ _ _ _ _ _ ho
    · rfl
  · unfold sumFirst
    split
    · rename_i heq
      rw [if_neg]
      intro hx
      simp only [Expr.binary.injEq] at heq
      obtain ⟨-, -, -, ho, hsum⟩ := heq
      rw [hx, ← hsum] at ho
      exact ne_sum_of_sum _ _ _ _ _ _ _ ho
    · rfl

section Carry

variable {cop eop : ExprOp} {F G : Nat → Nat → Nat → Nat} {m : CarryBound}

/-- A matched carry comparison: the sum stands on one side only, and the two
tests are functions of the sum and the other summand. -/
theorem matchCarryBound_spec (hp : p.wellTyped ctx = true) (hq : q.wellTyped ctx = true)
  (h : matchCarryBound p q cop eop = some m) (hcop : cmpOp cop = true)
  (hF : binSem cop = some F) (heop : cmpOp eop = true) (hG : binSem eop = some G) :
  ∃ w s, IntTyped ctx w m.other ∧ w ≤ 64 ∧ m.type = .integer w ∧
    need m.other false + 1 < need p false ∧ 0 < m.bound.toNat ∧ m.bound.toNat < 2 ^ w ∧
    p.op = cop ∧ q.op = eop ∧ p.type = Ty.boolean ∧
    ∀ {env : Env}, env.Fits ctx → ∀ {a b}, nat env p = some a → nat env q = some b →
      ∃ o v, nat env m.other = some o ∧ nat env s = some v ∧ b = G w v 0 ∧
        ((o < m.bound.toNat ∧ o < v) ∨ (m.bound.toNat ≤ o ∧ v = o - m.bound.toNat)) ∧
        ((sumFirst p = some s ∧ sumSecond p = none ∧ a = F w v o) ∨
          (sumFirst p = none ∧ sumSecond p = some s ∧ a = F w o v)) := by
  obtain ⟨t₁, i₁, t₂, i₂, x, y, z, s, rfl, rfl, hz, harm, hside⟩ := matchCarryBound_eq_some h
  have hswt : s.wellTyped ctx = true := (nodeOk_binary hq).1
  obtain ⟨w, hs, ho, hw, hmt, -, hneed, hpos, hlt, hval⟩ := carryArm_spec hswt harm
  obtain ⟨t, i, k, added, rfl, -⟩ := carryArm_eq_some harm
  obtain ⟨-, hzt, -⟩ := cmp_typed hq heop hs.type
  have hneedp := need_binary (t := t₁) (i := i₁) (a := x) (b := y) (readsFlags_of_binSem hF)
  have hbool : t₁ = Ty.boolean := by
    rcases hside with ⟨rfl, -⟩ | ⟨rfl, -⟩
    · exact (cmp_typed hp hcop hs.type).2.2
    · exact (cmp_typed hp hcop ho.type).2.2
  refine ⟨w, .binary .add t i m.other k, ho, hw, hmt, ?_, hpos, hlt, rfl, rfl, hbool, ?_⟩
  · rcases hside with ⟨rfl, rfl⟩ | ⟨rfl, rfl⟩ <;> omega
  · intro env hfits a b ha hb
    obtain ⟨v, z', hv, hz', rfl⟩ := (nat_binary_of_type hG hfits hq hs.type).mp hb
    obtain rfl := Option.some.inj (hz'.symm.trans ((hzt.asConstant (by omega) hz).2.1 env))
    obtain ⟨o, hoval, hrel⟩ := hval hfits hv
    obtain ⟨h1, h2, h3, h4⟩ := sum_sides cop t₁ t i₁ i m.other k
    refine ⟨o, v, hoval, hv, rfl, hrel, ?_⟩
    rcases hside with ⟨rfl, rfl⟩ | ⟨rfl, rfl⟩
    · obtain ⟨v', o', hv', ho', rfl⟩ := (nat_binary_of_type hF hfits hp hs.type).mp ha
      obtain rfl := Option.some.inj (hv.symm.trans hv')
      obtain rfl := Option.some.inj (hoval.symm.trans ho')
      exact .inl ⟨h1, h2, rfl⟩
    · obtain ⟨o', v', ho', hv', rfl⟩ := (nat_binary_of_type hF hfits hp ho.type).mp ha
      obtain rfl := Option.some.inj (hv.symm.trans hv')
      obtain rfl := Option.some.inj (hoval.symm.trans ho')
      exact .inr ⟨h3, h4, rfl⟩

/-- The two tests of a carry idiom as a node over them, in either order. -/
structure CarryNode (ctx : Ctx) (e p q : Expr) (g : Nat → Nat → Nat) : Prop where
  left : p.wellTyped ctx = true
  right : q.wellTyped ctx = true
  type : p.type = e.type
  need_lt : need p false < need e false
  nat_eq : ∀ {env : Env}, env.Fits ctx → ∀ {n}, nat env e = some n →
    ∃ a b, nat env p = some a ∧ nat env q = some b ∧ n = g a b

theorem CarryNode.of_binary (he : IntTyped ctx w (.binary op t i p q)) (hop : sameOp op = true)
  (hF : binSem op = some F) (hcomm : ∀ x y, F w x y = F w y x) :
  CarryNode ctx (.binary op t i p q) p q (F w) ∧
    CarryNode ctx (.binary op t i p q) q p (F w) := by
  have hr := Reads.of_binary he hop hF
  refine ⟨⟨hr.left.wellTyped, hr.right.wellTyped, hr.left.type.trans he.type.symm,
    hr.left_need, ?_⟩, ⟨hr.right.wellTyped, hr.left.wellTyped, hr.right.type.trans he.type.symm,
    hr.right_need, ?_⟩⟩
  · intro env hfits n hn
    obtain ⟨a, b, ha, hb, -, -, rfl⟩ := hr.nat_eq hfits hn
    exact ⟨a, b, ha, hb, rfl⟩
  · intro env hfits n hn
    obtain ⟨a, b, ha, hb, -, -, rfl⟩ := hr.nat_eq hfits hn
    exact ⟨b, a, hb, ha, hcomm a b⟩

/-- The unsigned comparison a carry idiom is replaced by. -/
theorem carry_result (ho : IntTyped ctx w m.other) (hw : w ≤ 64) (hmt : m.type = .integer w)
  (hlt : m.bound.toNat < 2 ^ w) :
  IntTyped ctx w (.constant m.type m.bound) ∧
    ∀ env, nat env (.constant m.type m.bound) = some m.bound.toNat := by
  rw [hmt]
  refine ⟨.constant ho.pos (by omega) _, fun env => ?_⟩
  rw [nat_constant (by omega), Nat.mod_eq_of_lt hlt]

theorem truth_and (P Q : Prop) [Decidable P] [Decidable Q] :
  truth P &&& truth Q = truth (P ∧ Q) := by
  by_cases hp : P <;> by_cases hq : Q <;> simp [truth, hp, hq]

theorem truth_or (P Q : Prop) [Decidable P] [Decidable Q] :
  truth P ||| truth Q = truth (P ∨ Q) := by
  by_cases hp : P <;> by_cases hq : Q <;> simp [truth, hp, hq]

theorem truth_inj {P Q : Prop} [Decidable P] [Decidable Q] :
  truth P = truth Q ↔ (P ↔ Q) := by
  by_cases hp : P <;> by_cases hq : Q <;> simp [truth, hp, hq]

theorem carryCompare_when (hnode : CarryNode ctx e p q (fun a b => a &&& b))
  (h : matchCarryBound p q .cmpLtU .cmpNe = some m) :
  ReplacesWhen ctx (fun env => ∀ s, sumSecond p = some s → nat env s = some 0) e
    (.mkBinary .cmpLtU (.constant m.type m.bound) m.other) := by
  obtain ⟨w, s, ho, hw, hmt, hneed, hpos, hlt, -, -, hbool, hval⟩ :=
    matchCarryBound_spec hnode.left hnode.right h rfl rfl rfl rfl
  obtain ⟨hc, hcval⟩ := carry_result ho hw hmt hlt
  obtain ⟨hrwt, hrt⟩ := wellTyped_mkCompare (o := .cmpLtU) hc ho rfl
  refine ⟨hrwt, hrt.trans (hbool.symm.trans hnode.type), ?_, ?_⟩
  · have := hnode.need_lt
    rw [need_mkBinary rfl, need_constant]
    omega
  · intro env hfits n hn
    obtain ⟨a, b, ha, hb, rfl⟩ := hnode.nat_eq hfits hn
    obtain ⟨o, v, hoval, hv, rfl, hrel, hside⟩ := hval hfits ha hb
    rw [nat_mkCompare hc ho rfl rfl hfits (hcval env) hoval, Option.some_inj]
    rcases hside with ⟨-, hnone, rfl⟩ | ⟨-, hsome, rfl⟩
    · simp only [hnone, truth_and, truth_inj, reduceCtorEq, false_implies, implies_true, iff_true]
      omega
    · simp only [hsome, truth_and, truth_inj, Option.some.injEq, forall_eq', hv]
      omega

/-- `ls`: the test replaced by a comparison with the bound is the test exactly
when the sum stands second, or is zero. -/
theorem carryCompareOr_when (hnode : CarryNode ctx e p q (fun a b => a ||| b))
  (h : matchCarryBound p q .cmpLeU .cmpEq = some m) :
  ReplacesWhen ctx (fun env => ∀ s, sumFirst p = some s → nat env s = some 0) e
    (.mkBinary .cmpLeU m.other (.constant m.type m.bound)) := by
  obtain ⟨w, s, ho, hw, hmt, hneed, hpos, hlt, -, -, hbool, hval⟩ :=
    matchCarryBound_spec hnode.left hnode.right h rfl rfl rfl rfl
  obtain ⟨hc, hcval⟩ := carry_result ho hw hmt hlt
  obtain ⟨hrwt, hrt⟩ := wellTyped_mkCompare (o := .cmpLeU) ho hc rfl
  refine ⟨hrwt, hrt.trans (hbool.symm.trans hnode.type), ?_, ?_⟩
  · have := hnode.need_lt
    rw [need_mkBinary rfl, need_constant]
    omega
  · intro env hfits n hn
    obtain ⟨a, b, ha, hb, rfl⟩ := hnode.nat_eq hfits hn
    obtain ⟨o, v, hoval, hv, rfl, hrel, hside⟩ := hval hfits ha hb
    rw [nat_mkCompare ho hc rfl rfl hfits hoval (hcval env), Option.some_inj]
    rcases hside with ⟨hsome, -, rfl⟩ | ⟨hnone, -, rfl⟩
    · simp only [hsome, truth_or, truth_inj, Option.some.injEq, forall_eq', hv]
      omega
    · simp only [hnone, truth_or, truth_inj, reduceCtorEq, false_implies, implies_true, iff_true]
      omega

end Carry

/-! ## Masked shifts and rotates -/

variable {j x : Nat} {sumId k2Id : Expr}

/-- Bits of a left shift of all ones, cut to a width. -/
theorem testBit_reachable_shl {width k : Nat} (hw : width ≤ 64) :
  (zeroExtend (~~~0#64 <<< k) width).toNat.testBit j = (decide (k ≤ j) && decide (j < width)) := by
  rw [zeroExtend_toNat, Nat.testBit_mod_two_pow, BitVec.testBit_toNat, BitVec.getLsbD_shiftLeft,
    BitVec.getLsbD_not, BitVec.getLsbD_zero]
  by_cases h1 : j < width <;> by_cases h2 : k ≤ j
  · have h3 : j - k < 64 := by omega
    have h4 : j < 64 := by omega
    simp [h1, h2, h3, h4, Nat.not_lt.mpr h2]
  · simp [h2, Nat.lt_of_not_le h2]
  · simp [h1]
  · simp [h1]

theorem testBit_shift {o : ExprOp} {k : Nat} (ho : o = .shl ∨ o = .shrU)
  (hF : binSem o = some F) (hw : w ≤ 64) (hk : k < w) (hx : x < 2 ^ w)
  (h : (F w x k).testBit j = true) : (reachableBits o w k).toNat.testBit j = true := by
  have hmod : k % 2 ^ 32 = k := Nat.mod_eq_of_lt (by omega)
  unfold reachableBits
  rw [if_neg (by omega)]
  rcases ho with rfl | rfl
  · obtain rfl := Option.some.inj hF
    simp only [hmod, Nat.testBit_mod_two_pow, Bool.and_eq_true, decide_eq_true_eq,
      Nat.testBit_mul_two_pow] at h
    rw [testBit_reachable_shl hw]
    simp [h.1, h.2.1]
  · obtain rfl := Option.some.inj hF
    simp only [hmod, Nat.testBit_div_two_pow] at h
    have hlt : j + k < w := by
      by_contra hge
      rw [Nat.testBit_lt_two_pow (Nat.lt_of_lt_of_le hx
        (Nat.pow_le_pow_right (by decide) (by omega)))] at h
      cases h
    simp only
    rw [lowMask_toNat, Nat.min_eq_left (by omega), Nat.testBit_two_pow_sub_one]
    simp
    omega

/-- A mask that keeps every bit of another. -/
theorem testBit_of_and_eq {mask sub : U64} (h : mask &&& sub = sub)
  (hj : sub.toNat.testBit j = true) : mask.toNat.testBit j = true := by
  rw [← h, BitVec.toNat_and, Nat.testBit_and, Bool.and_eq_true] at hj
  exact hj.1

theorem matchMaskedShift_eq_some (h : matchMaskedShift (.binary op t i p q) = some r) :
  ∃ mask o t₁ i₁ value amountId amount, t.isScalarInteger = true ∧
    q.asConstant = some mask ∧ p = .binary o t₁ i₁ value amountId ∧ (o = .shl ∨ o = .shrU) ∧
    amountId.asConstant = some amount ∧ amount.toNat < t.bits ∧
    mask &&& reachableBits o t.bits amount.toNat = reachableBits o t.bits amount.toNat ∧
    r = p := by
  unfold matchMaskedShift at h
  simp only at h
  split at h
  · cases h
  · rename_i hscalar
    simp only [Bool.or_eq_true, Bool.not_eq_true', not_or, Bool.not_eq_false] at hscalar
    split at h
    · rename_i mask o t₁ i₁ value amountId hmask
      split at h
      · cases h
      · rename_i ho
        split at h
        · rename_i amount hamount
          split at h
          · cases h
          · rename_i hlt
            split at h
            · cases h
            · rename_i hcover
              simp only [ne_eq, Decidable.not_not] at hcover
              exact ⟨mask, o, t₁, i₁, value, amountId, amount, hscalar.1, hmask, rfl,
                by grind, hamount, by omega, hcover, (Option.some.inj h).symm⟩
        · cases h
    · cases h

theorem matchMaskedShift_replaces (he : IntTyped ctx w (.binary .and t i p q)) (hw : w ≤ 64)
  (h : matchMaskedShift (.binary .and t i p q) = some r) :
  Replaces ctx (.binary .and t i p q) r := by
  obtain ⟨mask, o, t₁, i₁, value, amountId, amount, -, hmask, rfl, ho, hamount, hlt, hcover, rfl⟩ :=
    matchMaskedShift_eq_some h
  have htb : t.bits = w := he.bits
  rw [htb] at hlt hcover
  obtain ⟨F, hop, hF⟩ : ∃ F, sameOp o = true ∧ binSem o = some F := by
    rcases ho with rfl | rfl <;> exact ⟨_, rfl, rfl⟩
  obtain ⟨hp, -⟩ := he.operands rfl
  have hshift := Reads.of_const hp (by omega) hop hF hamount
  have hand := (Reads.of_const he (by omega) rfl rfl hmask).comp hshift
  refine hand.replaces_of he hp ?_ ?_
  · have := need_binary (o := .and) (t := t) (i := i) (a := .binary o t₁ i₁ value amountId)
      (b := q) rfl
    omega
  · intro env hfits x y hx _ hnx _
    have hval := (hp.nat_iff hop hF hfits).mpr
      ⟨x, _, hnx, ((hp.operands hop).2.asConstant (by omega) hamount).2.1 env, rfl⟩
    refine hval.trans (congrArg some (NatBits.and_eq_left fun j hj => ?_).symm)
    exact testBit_of_and_eq hcover (testBit_shift ho hF hw hlt hx hj)

/-- A rotate right by `s`, bit by bit: the low part is a right shift and the
rest a left shift. -/
theorem testBit_rotSem {s : Nat} (hx : x < 2 ^ w) (hs : s < w) :
  (rotSem w x s).testBit j =
    if j < w - s then x.testBit (j + s) else decide (j < w) && x.testBit (j - (w - s)) := by
  have hlow : x / 2 ^ s < 2 ^ (w - s) := by
    rw [Nat.div_lt_iff_lt_mul (Nat.two_pow_pos s), ← Nat.pow_add]
    rwa [Nat.sub_add_cancel (by omega)]
  rw [rotSem, Nat.mod_eq_of_lt hs, Nat.add_comm, Nat.mul_comm,
    Nat.testBit_two_pow_mul_add _ hlow]
  split
  · rw [Nat.testBit_div_two_pow]
  · rw [Nat.testBit_mod_two_pow]
    congr 1
    exact decide_eq_decide.mpr (by omega)

theorem matchMaskedRotate_eq_some (h : matchMaskedRotate (.binary op t i p q) = some r) :
  ∃ mask o t₁ i₁ value amountId amount right, q.asConstant = some mask ∧
    p = .binary o t₁ i₁ value amountId ∧ amountId.asConstant = some amount ∧
    0 < amount.toNat ∧ amount.toNat < t.bits ∧
    ((o = .rotR ∧ right = amount.toNat) ∨ (o = .rotL ∧ right = t.bits - amount.toNat)) ∧
    ((mask &&& lowMask (t.bits - right) = 0#64 ∧
        r = .mkBinary .and (.mkBinary .shl value
          (.constant t (BitVec.ofNat 64 (t.bits - right)))) q) ∨
      (mask &&& zeroExtend (~~~lowMask (t.bits - right)) t.bits = 0#64 ∧
        r = .mkBinary .and (.mkBinary .shrU value
          (.constant t (BitVec.ofNat 64 right))) q)) := by
  unfold matchMaskedRotate at h
  simp only at h
  split at h
  · cases h
  · split at h
    · rename_i mask o t₁ i₁ value amountId hmask
      split at h
      · cases h
      · rename_i ho
        split at h
        · rename_i amount hamount
          split at h
          · cases h
          · rename_i hlt
            have hpos : 0 < amount.toNat := by
              by_contra h0
              exact hlt (.inl (BitVec.eq_of_toNat_eq (by simp at h0 ⊢; omega)))
            obtain ⟨right, hright⟩ : ∃ right,
              right = if o = .rotR then amount.toNat else t.bits - amount.toNat := ⟨_, rfl⟩
            simp only [← hright] at h
            refine ⟨mask, o, t₁, i₁, value, amountId, amount, right, hmask, rfl, hamount,
              hpos, by omega, by grind, ?_⟩
            split at h
            · rename_i hzero
              exact .inl ⟨hzero, (Option.some.inj h).symm⟩
            · split at h
              · rename_i hzero
                exact .inr ⟨hzero, (Option.some.inj h).symm⟩
              · cases h
        · cases h
    · cases h

theorem testBit_of_and_eq_zero {mask sub : U64} (h : mask &&& sub = 0#64)
  (hj : mask.toNat.testBit j = true) : sub.toNat.testBit j = false := by
  have hz := congrArg (fun v : U64 => v.toNat.testBit j) h
  simp only [BitVec.toNat_and, Nat.testBit_and, hj, Bool.true_and] at hz
  simpa using hz

theorem matchMaskedRotate_replaces (he : IntTyped ctx w (.binary .and t i p q)) (hw : w ≤ 64)
  (h : matchMaskedRotate (.binary .and t i p q) = some r) :
  Replaces ctx (.binary .and t i p q) r := by
  obtain ⟨mask, o, t₁, i₁, value, amountId, amount, right, hmask, rfl, hamount, hpos, hlt,
    hright, hr⟩ := matchMaskedRotate_eq_some h
  have ht : t = Ty.integer w := he.type
  have htb : t.bits = w := he.bits
  rw [htb] at hlt hright hr
  obtain ⟨hp, hq⟩ := he.operands rfl
  obtain ⟨F, hop, hF, hrot⟩ : ∃ F, sameOp o = true ∧ binSem o = some F ∧
      ∀ x, F w x amount.toNat = rotSem w x right := by
    rcases hright with ⟨rfl, rfl⟩ | ⟨rfl, rfl⟩
    · exact ⟨_, rfl, rfl, fun x => by rw [Nat.mod_eq_of_lt (by omega)]⟩
    · exact ⟨_, rfl, rfl, fun x => by
        rw [Nat.mod_eq_of_lt (show amount.toNat < 2 ^ 32 by omega), Nat.mod_eq_of_lt hlt]⟩
  have hrlt : 0 < right ∧ right < w := by omega
  have hread := Reads.of_const hp (by omega) hop hF hamount
  have hand := (Reads.of_const he (by omega) rfl rfl hmask).comp hread
  have hqval := (hq.asConstant (by omega) hmask).2.1
  have hmlt := (hq.asConstant (by omega) hmask).2.2
  have hneed := need_binary (o := .and) (t := t) (i := i) (a := .binary o t₁ i₁ value amountId)
    (b := q) rfl
  -- The two replacements differ in the shift and in which bits the mask keeps.
  have hshift : ∀ (so : ExprOp) (k : Nat) (G : Nat → Nat → Nat → Nat), sameOp so = true →
      binSem so = some G → k < w →
      (∀ x j, x < 2 ^ w → mask.toNat.testBit j = true →
        (rotSem w x right).testBit j = (G w x k).testBit j) →
      Replaces ctx (.binary .and t i (.binary o t₁ i₁ value amountId) q)
        (.mkBinary .and (.mkBinary so value (.constant t (BitVec.ofNat 64 k))) q) := by
    intro so k G hso hG hk hbits
    have hkw : (BitVec.ofNat 64 k).toNat = k := by
      rw [BitVec.toNat_ofNat]
      omega
    have hc : IntTyped ctx w (.constant t (BitVec.ofNat 64 k)) :=
      ht ▸ .constant he.pos (by omega) _
    have hcval : ∀ env, nat env (.constant t (BitVec.ofNat 64 k)) = some k := by
      intro env
      have hlt := Nat.lt_of_lt_of_le hk Nat.lt_two_pow_self.le
      rw [ht, nat_constant (by omega), hkw, Nat.mod_eq_of_lt hlt]
    have hs := hread.left.mkBinary hc hso
    refine hand.replaces_of he (hs.mkBinary hq rfl) ?_ ?_
    · have := hread.left_need
      rw [need_mkBinary rfl, need_mkBinary hG, need_constant]
      omega
    · intro env hfits x y hx _ hnx _
      have hsv := nat_mkBinary hread.left hc hso hG hfits hnx (hcval env)
      rw [nat_mkBinary hs hq rfl rfl hfits hsv (hqval env), hrot]
      exact congrArg some (NatBits.and_congr_left fun j hj => hbits x j hx hj).symm
  rcases hr with ⟨hzero, rfl⟩ | ⟨hzero, rfl⟩
  · refine hshift .shl (w - right) _ rfl rfl (by omega) fun x j hx hj => ?_
    have hj' := testBit_of_and_eq_zero hzero hj
    rw [lowMask_toNat, Nat.min_eq_left (by omega), Nat.testBit_two_pow_sub_one,
      decide_eq_false_iff_not] at hj'
    rw [testBit_rotSem hx hrlt.2, if_neg hj',
      Nat.mod_eq_of_lt (show w - right < 2 ^ 32 by omega),
      Nat.testBit_mod_two_pow, Nat.testBit_mul_two_pow]
    simp [Nat.le_of_not_lt hj']
  · refine hshift .shrU right _ rfl rfl (by omega) fun x j hx hj => ?_
    have hj' := testBit_of_and_eq_zero hzero hj
    have hjw : j < w := by
      by_contra hge
      rw [Nat.testBit_lt_two_pow (Nat.lt_of_lt_of_le hmlt
        (Nat.pow_le_pow_right (by decide) (by omega)))] at hj
      cases hj
    have hlow : j < w - right := by
      rw [zeroExtend_toNat, Nat.testBit_mod_two_pow, BitVec.testBit_toNat, BitVec.getLsbD_not,
        ← BitVec.testBit_toNat, lowMask_toNat, Nat.min_eq_left (by omega),
        Nat.testBit_two_pow_sub_one] at hj'
      simp [hjw] at hj'
      omega
    rw [testBit_rotSem hx hrlt.2, if_pos hlow, Nat.mod_eq_of_lt (by omega),
      Nat.testBit_div_two_pow]

/-! ## Sign extension -/

/-- What `isBitOf` accepts is the named bit. -/
theorem isBitOf_spec {bit source : Expr} {index : Nat} (hbit : bit.wellTyped ctx = true)
  (hs : IntTyped ctx w source) (hindex : index < 64)
  (h : isBitOf bit index source = true) :
  IntTyped ctx 1 bit ∧ need bit false = need source false + 1 ∧
    ∀ {env : Env}, env.Fits ctx → ∀ {b}, nat env bit = some b →
      ∃ x, nat env source = some x ∧ b = x / 2 ^ index % 2 := by
  cases bit with
  | leaf o t i => simp [isBitOf] at h
  | binary o t i a b => simp [isBitOf] at h
  | ternary o t i a b c => simp [isBitOf] at h
  | unary o t i x =>
    simp only [isBitOf, Bool.and_eq_true, beq_iff_eq] at h
    obtain ⟨⟨hbool, rfl⟩, hcase⟩ := h
    have hb := IntTyped.of_isBoolean hbit hbool
    have htb : t.bits = 1 := hb.bits
    split at hcase
    · rename_i ho
      subst ho
      refine ⟨hb, need_unary rfl, ?_⟩
      intro env hfits b hval
      obtain ⟨n, hn, rfl⟩ :=
        (nat_extract_iff hfits hs.wellTyped hs.isInteger (by omega)).mp hval
      have himm : i.toNat % 2 ^ 32 = index := by
        rw [beq_iff_eq] at hcase
        rw [hcase, BitVec.toNat_ofNat]
        omega
      exact ⟨n, hn, by rw [himm, htb, Nat.pow_one]⟩
    · simp only [Bool.and_eq_true, beq_iff_eq] at hcase
      obtain ⟨rfl, rfl⟩ := hcase
      refine ⟨hb, need_unary rfl, ?_⟩
      intro env hfits b hval
      obtain ⟨n, hn, rfl⟩ := (nat_trunc_iff (by omega)).mp hval
      exact ⟨n, hn, by rw [htb, Nat.pow_one, Nat.pow_zero, Nat.div_one]⟩

theorem signExtendArm_eq_some {highHalf lowHalf : Expr}
  (h : signExtendArm t highHalf lowHalf = some r) :
  ∃ t₁ i₁ highMask t₂ i₂ source lowId t₃ i₃ bit f,
    highHalf = .binary .and t₁ i₁ (.unary .sext t₃ i₃ bit) highMask ∧ t₃ = t ∧
    lowHalf = .binary .and t₂ i₂ source lowId ∧
    lowId.asConstant = some (lowMask f) ∧
    highMask.asConstant = some (zeroExtend (~~~lowMask f) t.bits) ∧
    0 < f ∧ f ≤ 32 ∧ f < t.bits ∧ isBitOf bit (f - 1) source = true ∧
    ((f = 1 ∧ r = .mkUnary .neg (.mkBinary .and source lowId)) ∨
      (f ≠ 1 ∧ r = .cast .sext t (.cast .trunc (.integer f) source))) := by
  unfold signExtendArm at h
  split at h
  · rename_i spread highMask source lowId hhigh hlow
    obtain ⟨t₁, i₁, rfl⟩ := operandsOf_eq_some hhigh
    obtain ⟨t₂, i₂, rfl⟩ := operandsOf_eq_some hlow
    split at h
    · rename_i highBits lowBits hhb hlb
      simp only at h
      split at h
      · cases h
      · rename_i hfield
        split at h
        · cases h
        · rename_i hmasks
          simp only [ne_eq, not_or, Decidable.not_not] at hmasks
          obtain ⟨hlt, hlowm, hhighm⟩ := hmasks
          split at h
          · rename_i o t₃ i₃ bit
            split at h
            · cases h
            · rename_i ho
              simp only [ne_eq, not_or, Decidable.not_not] at ho
              obtain ⟨rfl, rfl⟩ := ho
              split at h
              · cases h
              · rename_i hbit
                simp only [Bool.not_eq_true', Bool.not_eq_false] at hbit
                refine ⟨t₁, i₁, highMask, t₂, i₂, source, lowId, _, i₃, bit,
                  countTrailingZeros (~~~lowBits), rfl, rfl, rfl, ?_, ?_, by omega, by omega,
                  by omega, hbit, ?_⟩
                · rw [← hlowm]
                  exact hlb
                · rw [← hlowm, ← hhighm]
                  exact hhb
                · split at h
                  · rename_i hone
                    exact .inl ⟨hone, (Option.some.inj h).symm⟩
                  · rename_i hone
                    exact .inr ⟨hone, (Option.some.inj h).symm⟩
          · cases h
    · cases h
  · cases h

theorem spread_or_field {f : Nat} (hf : 0 < f) (hfw : f < w) :
  ((if x / 2 ^ (f - 1) % 2 < 1 then x / 2 ^ (f - 1) % 2
      else x / 2 ^ (f - 1) % 2 + (2 ^ w - 2)) &&& (2 ^ w - 2 ^ f)) ||| (x &&& (2 ^ f - 1)) =
    if x % 2 ^ f < 2 ^ (f - 1) then x % 2 ^ f else x % 2 ^ f + (2 ^ w - 2 ^ f) := by
  have hpow : 2 ^ f = 2 ^ (f - 1) * 2 := by
    rw [← Nat.pow_succ]
    congr 1
    omega
  have hdiv : x % 2 ^ f / 2 ^ (f - 1) = x / 2 ^ (f - 1) % 2 := by
    rw [hpow, Nat.mod_mul_right_div_self]
  have hlt : x % 2 ^ f < 2 ^ f := Nat.mod_lt _ (Nat.two_pow_pos f)
  have hfwpow : 2 ^ f ≤ 2 ^ w := Nat.pow_le_pow_right (by decide) hfw.le
  have hpos : 0 < 2 ^ (f - 1) := Nat.two_pow_pos _
  have hiff : x / 2 ^ (f - 1) % 2 < 1 ↔ x % 2 ^ f < 2 ^ (f - 1) := by
    rw [← hdiv, Nat.div_lt_iff_lt_mul hpos, Nat.one_mul]
  rw [Nat.and_two_pow_sub_one_eq_mod]
  by_cases hb : x / 2 ^ (f - 1) % 2 < 1
  · have hzero : x / 2 ^ (f - 1) % 2 = 0 := by omega
    rw [if_pos hb, if_pos (hiff.mp hb), hzero, Nat.zero_and, Nat.zero_or]
  · have hone : x / 2 ^ (f - 1) % 2 + (2 ^ w - 2) = 2 ^ w - 1 := by omega
    have hmul : 2 ^ w - 2 ^ f = 2 ^ f * (2 ^ (w - f) - 1) := by
      rw [Nat.mul_sub, ← Nat.pow_add, Nat.mul_one]
      congr 2
      omega
    rw [if_neg hb, if_neg (mt hiff.mpr hb), hone, Nat.and_comm, Nat.and_two_pow_sub_one_eq_mod,
      Nat.mod_eq_of_lt (by omega), hmul, NatBits.mul_two_pow_or_of_lt hlt, Nat.add_comm]

theorem signExtendArm_spec {highHalf lowHalf : Expr} (hh : IntTyped ctx w highHalf)
  (hl : IntTyped ctx w lowHalf) (hw : w ≤ 64)
  (h : signExtendArm (.integer w) highHalf lowHalf = some r) :
  IntTyped ctx w r ∧ need r false ≤ max (need highHalf false) (need lowHalf false) + 1 ∧
    ∀ {env : Env}, env.Fits ctx → ∀ {u v}, nat env highHalf = some u →
      nat env lowHalf = some v → nat env r = some (u ||| v) := by
  obtain ⟨t₁, i₁, highMask, t₂, i₂, source, lowId, t₃, i₃, bit, f, rfl, rfl, rfl, hlow, hhigh,
    hf0, hf32, hfw, hbit, hr⟩ := signExtendArm_eq_some h
  rw [Ty.bits_integer] at hhigh hfw
  obtain ⟨hspread, -⟩ := hh.operands rfl
  obtain ⟨hs, hlowt⟩ := hl.operands rfl
  have hbitwt : bit.wellTyped ctx = true := Expr.wellTyped_operand hspread.wellTyped (by simp)
  obtain ⟨hbt, hbneed, hbval⟩ := isBitOf_spec hbitwt hs (by omega) hbit
  have hneedh := need_binary (o := .and) (t := t₁) (i := i₁)
    (a := .unary .sext (.integer w) i₃ bit) (b := highMask) rfl
  have hneedl := need_binary (o := .and) (t := t₂) (i := i₂) (a := source) (b := lowId) rfl
  -- Both replacements denote the sign extension of the field.
  have hvalue : ∀ {env : Env}, env.Fits ctx → ∀ {u v},
      nat env (.binary .and t₁ i₁ (.unary .sext (.integer w) i₃ bit) highMask) = some u →
      nat env (.binary .and t₂ i₂ source lowId) = some v →
      ∃ x, nat env source = some x ∧ nat env lowId = some (2 ^ f - 1) ∧ u ||| v =
        if x % 2 ^ f < 2 ^ (f - 1) then x % 2 ^ f else x % 2 ^ f + (2 ^ w - 2 ^ f) := by
    intro env hfits u v hu hv
    obtain ⟨s, -, hsv, -, -, -, rfl⟩ := (Reads.of_const hh (by omega) rfl rfl hhigh).nat_eq hfits hu
    obtain ⟨x, -, hx, -, -, -, rfl⟩ := (Reads.of_const hl (by omega) rfl rfl hlow).nat_eq hfits hv
    have hle : bit.bits ≤ (Ty.integer w).bits := by
      rw [hbt.bits, Ty.bits_integer]
      omega
    obtain ⟨b, hb, rfl⟩ := (nat_sext_iff hfits hbitwt hbt.isInteger hle
      (by rw [Ty.bits_integer]; omega)).mp hsv
    obtain ⟨x', hx', rfl⟩ := hbval hfits hb
    obtain rfl := Option.some.inj (hx.symm.trans hx')
    have hmask : (lowMask f).toNat = 2 ^ f - 1 := by
      rw [lowMask_toNat, Nat.min_eq_left (by omega)]
    refine ⟨x, hx, ?_, ?_⟩
    · rw [(hlowt.asConstant (by omega) hlow).2.1 env, hmask]
    · rw [hbt.bits, Ty.bits_integer, zeroExtend_not_lowMask_toNat hfw.le hw, hmask]
      exact spread_or_field hf0 hfw
  rcases hr with ⟨rfl, rfl⟩ | ⟨hne, rfl⟩
  · have hmasked := hs.mkBinary (o := .and) hlowt rfl
    refine ⟨hmasked.mkUnary rfl, ?_, ?_⟩
    · have hneg : need (.mkUnary .neg (.mkBinary .and source lowId)) false =
          need (.mkBinary .and source lowId) false + 1 := need_unary rfl
      rw [hneg, need_mkBinary rfl]
      omega
    · intro env hfits u v hu hv
      obtain ⟨x, hx, hlowv, heq⟩ := hvalue hfits hu hv
      rw [nat_mkUnary hmasked rfl hfits (nat_mkBinary hs hlowt rfl rfl hfits hx hlowv), heq,
        Nat.and_two_pow_sub_one_eq_mod]
      have hpow := Nat.one_lt_two_pow (n := w) (by omega)
      have hbit2 := Nat.mod_lt x (show 0 < 2 by decide)
      refine congrArg some ?_
      simp only [Nat.pow_one, Nat.sub_self, Nat.pow_zero]
      split
      · rename_i hlt
        rw [show x % 2 = 0 by omega, Nat.sub_zero, Nat.mod_self]
      · rename_i hge
        rw [Nat.mod_eq_of_lt (by omega)]
        omega
  · have htr := hs.cast (n := f) (o := .trunc) hf0 (by omega) (.inl ⟨rfl, hfw.le⟩)
    refine ⟨htr.cast hh.pos (by omega) (.inr ⟨.inr rfl, hfw.le⟩), ?_, ?_⟩
    · have h1 : need (.cast .sext (.integer w) (.cast .trunc (.integer f) source)) false =
          need (.cast .trunc (.integer f) source) false + 1 := need_unary rfl
      have h2 : need (.cast .trunc (.integer f) source) false = need source false + 1 :=
        need_unary rfl
      omega
    · intro env hfits u v hu hv
      obtain ⟨x, hx, -, heq⟩ := hvalue hfits hu hv
      rw [heq]
      exact nat_cast_sext hfits htr hfw.le (by omega) (nat_cast_trunc (by omega) hx)

theorem matchSignExtend_replaces (he : IntTyped ctx w (.binary .or t i p q)) (hw : w ≤ 64)
  (h : matchSignExtend (.binary .or t i p q) = some r) :
  Replaces ctx (.binary .or t i p q) r := by
  obtain rfl : t = Ty.integer w := he.type
  obtain ⟨hp, hq⟩ := he.operands rfl
  have hread := Reads.of_binary he rfl rfl
  have hneed := need_binary (o := .or) (t := .integer w) (i := i) (a := p) (b := q) rfl
  simp only [matchSignExtend] at h
  split at h
  · cases h
  · rcases (Option.orElse_eq_some _ _ _).mp h with h | ⟨-, h⟩
    · obtain ⟨hr, hrneed, hval⟩ := signExtendArm_spec hp hq hw h
      refine hread.replaces_of he hr (by omega) ?_
      intro env hfits x y _ _ hx hy
      exact hval hfits hx hy
    · obtain ⟨hr, hrneed, hval⟩ := signExtendArm_spec hq hp hw h
      refine hread.replaces_of he hr (by omega) ?_
      intro env hfits x y _ _ hx hy
      rw [hval hfits hy hx, Nat.or_comm]

/-! ## Comparisons -/

theorem compare_replaces {n : Nat} (hwt : (Expr.binary op t i p q).wellTyped ctx = true)
  (hop : cmpOp op = true) (hF : binSem op = some F) (hp : IntTyped ctx w p)
  (ha : IntTyped ctx n a) (hb : IntTyped ctx n b)
  (hneed : max (need a false) (need b false) ≤ max (need p false) (need q false))
  (hval : ∀ {env : Env}, env.Fits ctx → ∀ {x y}, nat env p = some x → nat env q = some y →
    ∃ x' y', nat env a = some x' ∧ nat env b = some y' ∧ F w x y = F n x' y') :
  Replaces ctx (.binary op t i p q) (.mkBinary op a b) := by
  obtain ⟨-, -, ht⟩ := cmp_typed hwt hop hp.type
  obtain ⟨hrwt, hrt⟩ := wellTyped_mkCompare ha hb hop
  refine ⟨hrwt, hrt.trans ht.symm, ?_, ?_⟩
  · rw [need_mkBinary hF, need_binary (readsFlags_of_binSem hF)]
    omega
  · intro env hfits v hv
    obtain ⟨x, y, hx, hy, rfl⟩ := (nat_binary_of_type hF hfits hwt hp.type).mp hv
    obtain ⟨x', y', hx', hy', heq⟩ := hval hfits hx hy
    rw [heq]
    exact nat_mkCompare ha hb hop hF hfits hx' hy'

theorem compare_shift {n k A B : Nat} (hop : cmpOp op = true) (hF : binSem op = some F)
  (hn : 0 < n) : F (n + k) (A * 2 ^ k) (B * 2 ^ k) = F n A B := by
  have hk : 0 < 2 ^ k := Nat.two_pow_pos k
  have hbias : ∀ C, biased (n + k) (C * 2 ^ k) = biased n C * 2 ^ k := by
    intro C
    have hhalf : 2 ^ (n + k - 1) = 2 ^ (n - 1) * 2 ^ k := by
      rw [← Nat.pow_add]
      congr 1
      omega
    rw [biased, biased, hhalf, ← Nat.add_mul, Nat.pow_add, Nat.mul_mod_mul_right]
  cases op <;> simp only [cmpOp, binSem, Option.isSome_none, Bool.false_and,
    Bool.false_eq_true, reduceCtorEq, Option.some.injEq, ExprOp.info, Option.isSome_some,
    Bool.true_and, beq_iff_eq] at hop hF <;> subst hF <;> rw [truth_inj]
  case cmpEq => exact Nat.mul_left_inj hk.ne'
  case cmpNe => exact not_congr (Nat.mul_left_inj hk.ne')
  case cmpLtU => exact Nat.mul_lt_mul_right hk
  case cmpLeU => exact Nat.mul_le_mul_right_iff hk
  case cmpLtS => rw [hbias, hbias, Nat.mul_lt_mul_right hk]
  case cmpLeS => rw [hbias, hbias, Nat.mul_le_mul_right_iff hk]

/-- One side of a shifted comparison, and what it is narrowed to. -/
structure Narrowed (ctx : Ctx) (w k : Nat) (side narrow : Expr) : Prop where
  typed : IntTyped ctx (w - k) narrow
  need_le : need narrow false ≤ need side false
  nat_eq : ∀ {env : Env}, env.Fits ctx → ∀ {x}, nat env side = some x →
    ∃ A, nat env narrow = some A ∧ x = A * 2 ^ k

theorem Narrowed.shl {amount : U64} (he : IntTyped ctx w (.binary .shl t i a b)) (hw : w ≤ 64)
  (hb : b.asConstant = some amount) (hlt : amount.toNat < w) :
  Narrowed ctx w amount.toNat (.binary .shl t i a b)
    (.cast .trunc (.integer (w - amount.toNat)) a) := by
  have hread := Reads.of_const he (by omega) rfl rfl hb
  refine ⟨hread.left.cast (by omega) (by omega) (.inl ⟨rfl, by omega⟩), ?_, ?_⟩
  · have h1 : need (.cast .trunc (.integer (w - amount.toNat)) a) false = need a false + 1 :=
      need_unary rfl
    have h2 := hread.left_need
    omega
  · intro env hfits x hx
    obtain ⟨v, -, hv, -, -, -, rfl⟩ := hread.nat_eq hfits hx
    refine ⟨_, nat_cast_trunc (by omega) hv, ?_⟩
    have hsplit : 2 ^ w = 2 ^ (w - amount.toNat) * 2 ^ amount.toNat := by
      rw [← Nat.pow_add]
      congr 1
      omega
    rw [Nat.mod_eq_of_lt (show amount.toNat < 2 ^ 32 by omega), hsplit, Nat.mul_mod_mul_right]

theorem Narrowed.constant {amount c : U64} (he : IntTyped ctx w e) (hw : w ≤ 64)
  (hc : e.asConstant = some c) (hlt : amount.toNat < w)
  (hlow : c &&& lowMask amount.toNat = 0#64) :
  Narrowed ctx w amount.toNat e
    (.constant (.integer (w - amount.toNat)) (c >>> amount.toNat)) := by
  obtain ⟨-, hval, hclt⟩ := he.asConstant (by omega) hc
  refine ⟨.constant (by omega) (by omega) _, by simp, ?_⟩
  intro env hfits x hx
  obtain rfl := Option.some.inj (hx.symm.trans (hval env))
  have hmod : c.toNat % 2 ^ amount.toNat = 0 := by
    have := congrArg BitVec.toNat hlow
    rwa [BitVec.toNat_and, lowMask_toNat, Nat.min_eq_left (by omega),
      Nat.and_two_pow_sub_one_eq_mod] at this
  have hdiv : c.toNat / 2 ^ amount.toNat < 2 ^ (w - amount.toNat) := by
    rw [Nat.div_lt_iff_lt_mul (Nat.two_pow_pos _), ← Nat.pow_add, Nat.sub_add_cancel hlt.le]
    exact hclt
  refine ⟨c.toNat / 2 ^ amount.toNat, ?_, ?_⟩
  · rw [nat_constant (by omega), BitVec.toNat_ushiftRight, Nat.shiftRight_eq_div_pow,
      Nat.mod_eq_of_lt hdiv]
  · rw [Nat.div_mul_cancel (Nat.dvd_of_mod_eq_zero hmod)]

theorem matchShiftedCompare_eq_some (h : matchShiftedCompare (.binary op t i p q) = some r) :
  ∃ lhs rhs t₁ i₁ value amountId amount other, lhs = .binary .shl t₁ i₁ value amountId ∧
    amountId.asConstant = some amount ∧ amount.toNat < lhs.bits ∧
    ((∃ c, rhs.asConstant = some c ∧ c &&& lowMask amount.toNat = 0#64 ∧
        other = .constant (.integer (lhs.bits - amount.toNat)) (c >>> amount.toNat)) ∨
      (∃ t₂ i₂ otherValue otherAmount, rhs = .binary .shl t₂ i₂ otherValue otherAmount ∧
        otherAmount.asConstant = some amount ∧
        other = .cast .trunc (.integer (lhs.bits - amount.toNat)) otherValue)) ∧
    ((p = lhs ∧ q = rhs ∧ r = .mkBinary op
        (.cast .trunc (.integer (lhs.bits - amount.toNat)) value) other) ∨
      (p = rhs ∧ q = lhs ∧ r = .mkBinary op other
        (.cast .trunc (.integer (lhs.bits - amount.toNat)) value))) := by
  simp only [matchShiftedCompare] at h
  obtain ⟨mirrored, hmirrored⟩ : ∃ m, m = (operandsOf p .shl).isNone := ⟨_, rfl⟩
  obtain ⟨lhs, hlhs⟩ : ∃ lhs, lhs = if mirrored then q else p := ⟨_, rfl⟩
  obtain ⟨rhs, hrhs⟩ : ∃ rhs, rhs = if mirrored then p else q := ⟨_, rfl⟩
  rw [← hmirrored, ← hlhs, ← hrhs] at h
  split at h
  · rename_i value amountId hshl
    obtain ⟨t₁, i₁, hlhs'⟩ := operandsOf_eq_some hshl
    split at h
    · rename_i amount hamount
      split at h
      · cases h
      · rename_i hlt
        split at h
        · cases h
        · obtain ⟨other, hother, hres⟩ := Option.map_eq_some_iff.mp h
          refine ⟨lhs, rhs, t₁, i₁, value, amountId, amount, other, hlhs', hamount, by omega,
            ?_, ?_⟩
          · split at hother
            · rename_i c hc
              split at hother
              · cases hother
              · rename_i hlow
                simp only [ne_eq, Decidable.not_not] at hlow
                exact .inl ⟨c, hc, hlow, (Option.some.inj hother).symm⟩
            · split at hother
              · rename_i otherValue otherAmount hrhs'
                obtain ⟨t₂, i₂, hr⟩ := operandsOf_eq_some hrhs'
                split at hother
                · cases hother
                · rename_i ham
                  simp only [ne_eq, Decidable.not_not] at ham
                  exact .inr ⟨t₂, i₂, otherValue, otherAmount, hr, ham,
                    (Option.some.inj hother).symm⟩
              · cases hother
          · cases mirrored with
            | false => exact .inl ⟨hlhs.symm, hrhs.symm, hres.symm⟩
            | true => exact .inr ⟨hrhs.symm, hlhs.symm, hres.symm⟩
    · cases h
  · cases h

theorem matchShiftedCompare_replaces (hwt : (Expr.binary op t i p q).wellTyped ctx = true)
  (hop : cmpOp op = true) (hp : IntTyped ctx w p) (hw : w ≤ 64)
  (h : matchShiftedCompare (.binary op t i p q) = some r) :
  Replaces ctx (.binary op t i p q) r := by
  obtain ⟨F, hF⟩ : ∃ F, binSem op = some F := by
    simp only [cmpOp, Bool.and_eq_true, Option.isSome_iff_exists] at hop
    exact hop.1
  obtain ⟨-, hq, -⟩ := cmp_typed hwt hop hp.type
  obtain ⟨lhs, rhs, t₁, i₁, value, amountId, amount, other, rfl, hamount, hlt, hother, hside⟩ :=
    matchShiftedCompare_eq_some h
  have htyped : IntTyped ctx w (.binary .shl t₁ i₁ value amountId) ∧ IntTyped ctx w rhs := by
    rcases hside with ⟨rfl, rfl, -⟩ | ⟨rfl, rfl, -⟩
    · exact ⟨hp, hq⟩
    · exact ⟨hq, hp⟩
  obtain ⟨hl, hr⟩ := htyped
  rw [hl.bits] at hlt hother hside
  have hleft := Narrowed.shl hl hw hamount hlt
  have hright : Narrowed ctx w amount.toNat rhs other := by
    rcases hother with ⟨c, hc, hlow, rfl⟩ | ⟨t₂, i₂, ov, oa, rfl, hoa, rfl⟩
    · exact .constant hr hw hc hlt hlow
    · exact .shl hr hw hoa hlt
  have hshift : ∀ A B, F w (A * 2 ^ amount.toNat) (B * 2 ^ amount.toNat) =
      F (w - amount.toNat) A B := by
    intro A B
    have heq := compare_shift (n := w - amount.toNat) (k := amount.toNat) (A := A) (B := B)
      hop hF (by omega)
    rwa [Nat.sub_add_cancel hlt.le] at heq
  have hneedl := hleft.need_le
  have hneedr := hright.need_le
  rcases hside with ⟨rfl, rfl, rfl⟩ | ⟨rfl, rfl, rfl⟩
  · refine compare_replaces hwt hop hF hp hleft.typed hright.typed (by omega) ?_
    intro env hfits x y hx hy
    obtain ⟨A, hA, rfl⟩ := hleft.nat_eq hfits hx
    obtain ⟨B, hB, rfl⟩ := hright.nat_eq hfits hy
    exact ⟨A, B, hA, hB, hshift A B⟩
  · refine compare_replaces hwt hop hF hp hright.typed hleft.typed (by omega) ?_
    intro env hfits x y hx hy
    obtain ⟨A, hA, rfl⟩ := hright.nat_eq hfits hx
    obtain ⟨B, hB, rfl⟩ := hleft.nat_eq hfits hy
    exact ⟨A, B, hA, hB, hshift A B⟩

theorem cancelledArm_eq_some {innerId x : Expr}
  (h : cancelledArm op sumId a innerId k2Id x = some r) :
  ∃ t₁ i₁ k1Id k1 k2, innerId = .binary .sub t₁ i₁ k1Id x ∧ k1Id.asConstant = some k1 ∧
    k2Id.asConstant = some k2 ∧
    r = .mkBinary op a (.constant sumId.type (zeroExtend (k2 - k1) sumId.bits)) := by
  unfold cancelledArm at h
  split at h
  · rename_i k1Id x' hsub
    obtain ⟨t₁, i₁, rfl⟩ := operandsOf_eq_some hsub
    split at h
    · cases h
    · rename_i hx
      simp only [ne_eq, Decidable.not_not] at hx
      subst hx
      split at h
      · rename_i k1 k2 hk1 hk2
        split at h
        · cases h
        · exact ⟨t₁, i₁, k1Id, k1, k2, rfl, hk1, hk2, (Option.some.inj h).symm⟩
      · cases h
  · cases h

/-- Subtracting one number on both sides of an equation modulo `W`. -/
theorem cancel_sub_iff {a k₁ k₂ W : Nat} (ha : a < W) (h1 : k₁ < W) (h2 : k₂ < W)
  (hx : x < W) :
  (a + (k₁ + (W - x)) % W) % W = (k₂ + (W - x)) % W ↔ a = (k₂ + (W - k₁)) % W := by
  have hcases : ∀ {u v}, u < W → v < W → (u + (W - v)) % W = if v ≤ u then u - v else u + W - v := by
    intro u v hu hv
    split
    · rw [show u + (W - v) = u - v + W by omega, Nat.add_mod_right, Nat.mod_eq_of_lt (by omega)]
    · rw [Nat.mod_eq_of_lt (by omega)]
      omega
  have hsum : ∀ {u v}, u < W → v < W → (u + v) % W = if u + v < W then u + v else u + v - W := by
    intro u v hu hv
    split
    · rename_i hlt
      exact Nat.mod_eq_of_lt hlt
    · rw [Nat.mod_eq_sub_mod (by omega), Nat.mod_eq_of_lt (by omega)]
  rw [hsum ha (Nat.mod_lt _ (by omega)), hcases h1 hx, hcases h2 hx, hcases h2 h1]
  split <;> split <;> split <;> split <;> omega

/-- A sum and a difference that subtract one value are equal exactly when the
other summand is the difference of the constants. -/
theorem cancelledArm_spec {subId innerId x : Expr}
  (hsub : IntTyped ctx w subId) (ha : IntTyped ctx w a) (hinner : IntTyped ctx w innerId)
  (hsum : IntTyped ctx w sumId) (hw : w ≤ 64) (hx : operandsOf subId .sub = some (k2Id, x))
  (hval : ∀ {env : Env}, env.Fits ctx → ∀ {s}, nat env sumId = some s →
    ∃ u v, nat env a = some u ∧ nat env innerId = some v ∧ s = (u + v) % 2 ^ w)
  (h : cancelledArm op sumId a innerId k2Id x = some r) :
  ∃ c, r = .mkBinary op a c ∧ IntTyped ctx w c ∧ need c false = 0 ∧
    ∀ {env : Env}, env.Fits ctx → ∀ {s d}, nat env sumId = some s → nat env subId = some d →
      ∃ u k, nat env a = some u ∧ nat env c = some k ∧ (s = d ↔ u = k) := by
  obtain ⟨t₂, i₂, rfl⟩ := operandsOf_eq_some hx
  obtain ⟨t₁, i₁, k1Id, k1, k2, rfl, hk1, hk2, rfl⟩ := cancelledArm_eq_some h
  obtain ⟨hk1t, -⟩ := hinner.operands rfl
  obtain ⟨hk2t, hxt⟩ := hsub.operands rfl
  obtain ⟨-, hk1v, hk1lt⟩ := hk1t.asConstant (by omega) hk1
  obtain ⟨-, hk2v, hk2lt⟩ := hk2t.asConstant (by omega) hk2
  rw [hsum.type, hsum.bits]
  refine ⟨_, rfl, .constant hsum.pos (by omega) _, need_constant _, ?_⟩
  intro env hfits s d hs hd
  obtain ⟨u, v, hu, hv, rfl⟩ := hval hfits hs
  obtain ⟨k, n, hk, hn, rfl⟩ := (hinner.nat_iff rfl rfl hfits).mp hv
  obtain ⟨k', n', hk', hn', rfl⟩ := (hsub.nat_iff rfl rfl hfits).mp hd
  obtain rfl := Option.some.inj (hk.symm.trans (hk1v env))
  obtain rfl := Option.some.inj (hk'.symm.trans (hk2v env))
  obtain rfl := Option.some.inj (hn.symm.trans hn')
  refine ⟨u, _, hu, nat_constant (by omega) _, ?_⟩
  rw [zeroExtend_sub_toNat hw hk1lt, Nat.mod_mod]
  exact cancel_sub_iff (ha.lt hfits hu).1 hk1lt hk2lt (hxt.lt hfits hn).1

/-- Either summand of the sum may be the inner difference. -/
theorem cancelledArms_spec {subId l rr x : Expr} (hs : IntTyped ctx w sumId)
  (hsub : IntTyped ctx w subId) (hw : w ≤ 64) (hl : operandsOf sumId .add = some (l, rr))
  (hx : operandsOf subId .sub = some (k2Id, x))
  (h : (cancelledArm op sumId rr l k2Id x <|> cancelledArm op sumId l rr k2Id x) = some r) :
  ∃ a c, r = .mkBinary op a c ∧ IntTyped ctx w a ∧ IntTyped ctx w c ∧
    need a false < need sumId false ∧ need c false = 0 ∧
    ∀ {env : Env}, env.Fits ctx → ∀ {s d}, nat env sumId = some s → nat env subId = some d →
      ∃ u k, nat env a = some u ∧ nat env c = some k ∧ (s = d ↔ u = k) := by
  obtain ⟨t, i, rfl⟩ := operandsOf_eq_some hl
  have hread := Reads.of_binary hs rfl rfl
  have hval : ∀ {env : Env}, env.Fits ctx → ∀ {s}, nat env (.binary .add t i l rr) = some s →
      ∃ u v, nat env l = some u ∧ nat env rr = some v ∧ s = (u + v) % 2 ^ w := by
    intro env hfits s hs
    obtain ⟨u, v, hu, hv, -, -, rfl⟩ := hread.nat_eq hfits hs
    exact ⟨u, v, hu, hv, rfl⟩
  have hval' : ∀ {env : Env}, env.Fits ctx → ∀ {s}, nat env (.binary .add t i l rr) = some s →
      ∃ u v, nat env rr = some u ∧ nat env l = some v ∧ s = (u + v) % 2 ^ w := by
    intro env hfits s hs
    obtain ⟨u, v, hu, hv, rfl⟩ := hval hfits hs
    exact ⟨v, u, hv, hu, by rw [Nat.add_comm]⟩
  rcases (Option.orElse_eq_some _ _ _).mp h with h | ⟨-, h⟩
  · obtain ⟨c, rfl, hc, hc0, hspec⟩ :=
      cancelledArm_spec hsub hread.right hread.left hs hw hx hval' h
    exact ⟨rr, c, rfl, hread.right, hc, hread.right_need, hc0, hspec⟩
  · obtain ⟨c, rfl, hc, hc0, hspec⟩ :=
      cancelledArm_spec hsub hread.left hread.right hs hw hx hval h
    exact ⟨l, c, rfl, hread.left, hc, hread.left_need, hc0, hspec⟩

theorem matchCancelledSubtrahend_replaces
  (hwt : (Expr.binary op t i p q).wellTyped ctx = true) (hp : IntTyped ctx w p)
  (hw : w ≤ 64) (h : matchCancelledSubtrahend (.binary op t i p q) = some r) :
  Replaces ctx (.binary op t i p q) r := by
  simp only [matchCancelledSubtrahend] at h
  split at h
  · cases h
  · rename_i hop
    have hcmp : cmpOp op = true := by
      by_cases h1 : op = .cmpEq
      · rw [h1]
        rfl
      · rw [show op = .cmpNe by grind]
        rfl
    -- Equality and its negation only see whether the two sides are equal.
    obtain ⟨F, hF, hcongr⟩ : ∃ F, binSem op = some F ∧
        ∀ {x y x' y' : Nat}, (x = y ↔ x' = y') → F w x y = F w x' y' := by
      by_cases h1 : op = .cmpEq
      · subst h1
        exact ⟨_, rfl, fun h => truth_inj.mpr h⟩
      · obtain rfl : op = .cmpNe := by grind
        exact ⟨_, rfl, fun h => truth_inj.mpr (not_congr h)⟩
    obtain ⟨-, hq, -⟩ := cmp_typed hwt hcmp hp.type
    rcases (Option.orElse_eq_some _ _ _).mp h with h | ⟨-, h⟩
    · split at h
      · rename_i l rr k2Id x hl hx
        obtain ⟨a, c, rfl, ha, hc, hneed, hc0, hval⟩ := cancelledArms_spec hp hq hw hl hx h
        refine compare_replaces hwt hcmp hF hp ha hc (by omega) ?_
        intro env hfits s d hs hd
        obtain ⟨u, k, hu, hk, hiff⟩ := hval hfits hs hd
        exact ⟨u, k, hu, hk, hcongr hiff⟩
      · cases h
    · split at h
      · rename_i l rr k2Id x hl hx
        obtain ⟨a, c, rfl, ha, hc, hneed, hc0, hval⟩ := cancelledArms_spec hq hp hw hl hx h
        refine compare_replaces hwt hcmp hF hp ha hc (by omega) ?_
        intro env hfits d s hd hs
        obtain ⟨u, k, hu, hk, hiff⟩ := hval hfits hs hd
        exact ⟨u, k, hu, hk, hcongr (eq_comm.trans hiff)⟩
      · cases h

/-! ## The tier -/

/-- The matchers that return an expression. -/
inductive Idiom where
  | carryCompare | carryCompareOr | signExtend | maskedRotate | maskedShift
  | mbaAdd | mbaSub | mbaOr | mbaXor | obfuscatedIncrement | shiftedCompare
  | cancelledSubtrahend
deriving DecidableEq

def Idiom.run : Idiom → Expr → Option Expr
  | .carryCompare => matchCarryCompare
  | .carryCompareOr => matchCarryCompareOr
  | .signExtend => matchSignExtend
  | .maskedRotate => matchMaskedRotate
  | .maskedShift => matchMaskedShift
  | .mbaAdd => matchMbaAdd
  | .mbaSub => matchMbaSub
  | .mbaOr => matchMbaOr
  | .mbaXor => matchMbaXor
  | .obfuscatedIncrement => matchObfuscatedIncrement
  | .shiftedCompare => matchShiftedCompare
  | .cancelledSubtrahend => matchCancelledSubtrahend

/-- The operators of the nodes `Algebra::rewriteOnce` hands to a matcher. -/
def Idiom.accepts (m : Idiom) (op : ExprOp) : Bool :=
  match m with
  | .carryCompare | .maskedRotate | .maskedShift => op == .and
  | .carryCompareOr | .signExtend | .mbaOr => op == .or
  | .mbaAdd => op == .add
  | .mbaSub | .obfuscatedIncrement => op == .sub
  | .mbaXor => op == .xor
  | .shiftedCompare | .cancelledSubtrahend => cmpOp op

/-- The sum of a carry comparison that stands on the other caller's side: second
for the `hi` test, first for the `ls` test. -/
def Idiom.swappedSum (m : Idiom) (e : Expr) : Option Expr :=
  match m with
  | .carryCompare => e.operands.findSome? fun c => if c.op = .cmpLtU then sumSecond c else none
  | .carryCompareOr => e.operands.findSome? fun c => if c.op = .cmpLeU then sumFirst c else none
  | _ => none

theorem findSome_left {f : Expr → Option Expr} (h : f q = none) :
  [p, q].findSome? f = f p := by
  cases hp : f p <;> simp [List.findSome?, h, hp]

theorem findSome_right {f : Expr → Option Expr} (h : f p = none) :
  [p, q].findSome? f = f q := by
  cases hq : f q <;> simp [List.findSome?, h, hq]

theorem matchCarryCompare_when (he : IntTyped ctx w (.binary .and t i p q))
  (h : matchCarryCompare (.binary .and t i p q) = some r) :
  ReplacesWhen ctx (fun env => ∀ s, Idiom.carryCompare.swappedSum (.binary .and t i p q) = some s →
    nat env s = some 0) (.binary .and t i p q) r := by
  obtain ⟨hpq, hqp⟩ := CarryNode.of_binary he rfl rfl fun x y => Nat.and_comm x y
  obtain ⟨m, hm, rfl⟩ := Option.map_eq_some_iff.mp h
  rcases (Option.orElse_eq_some _ _ _).mp hm with hm | ⟨-, hm⟩
  · obtain ⟨-, -, -, -, -, -, -, -, hpo, hqo, -, -⟩ :=
      matchCarryBound_spec hpq.left hpq.right hm rfl rfl rfl rfl
    have hswap : Idiom.carryCompare.swappedSum (.binary .and t i p q) = sumSecond p := by
      simp only [Idiom.swappedSum, Expr.operands_binary]
      rw [findSome_left, if_pos hpo]
      simp [hqo]
    rw [hswap]
    exact carryCompare_when hpq hm
  · obtain ⟨-, -, -, -, -, -, -, -, hqo, hpo, -, -⟩ :=
      matchCarryBound_spec hqp.left hqp.right hm rfl rfl rfl rfl
    have hswap : Idiom.carryCompare.swappedSum (.binary .and t i p q) = sumSecond q := by
      simp only [Idiom.swappedSum, Expr.operands_binary]
      rw [findSome_right, if_pos hqo]
      simp [hpo]
    rw [hswap]
    exact carryCompare_when hqp hm

theorem matchCarryCompareOr_when (he : IntTyped ctx w (.binary .or t i p q))
  (h : matchCarryCompareOr (.binary .or t i p q) = some r) :
  ReplacesWhen ctx (fun env => ∀ s, Idiom.carryCompareOr.swappedSum (.binary .or t i p q) = some s →
    nat env s = some 0) (.binary .or t i p q) r := by
  obtain ⟨hpq, hqp⟩ := CarryNode.of_binary he rfl rfl fun x y => Nat.or_comm x y
  obtain ⟨m, hm, rfl⟩ := Option.map_eq_some_iff.mp h
  rcases (Option.orElse_eq_some _ _ _).mp hm with hm | ⟨-, hm⟩
  · obtain ⟨-, -, -, -, -, -, -, -, hpo, hqo, -, -⟩ :=
      matchCarryBound_spec hpq.left hpq.right hm rfl rfl rfl rfl
    have hswap : Idiom.carryCompareOr.swappedSum (.binary .or t i p q) = sumFirst p := by
      simp only [Idiom.swappedSum, Expr.operands_binary]
      rw [findSome_left, if_pos hpo]
      simp [hqo]
    rw [hswap]
    exact carryCompareOr_when hpq hm
  · obtain ⟨-, -, -, -, -, -, -, -, hqo, hpo, -, -⟩ :=
      matchCarryBound_spec hqp.left hqp.right hm rfl rfl rfl rfl
    have hswap : Idiom.carryCompareOr.swappedSum (.binary .or t i p q) = sumFirst q := by
      simp only [Idiom.swappedSum, Expr.operands_binary]
      rw [findSome_right, if_pos hqo]
      simp [hpo]
    rw [hswap]
    exact carryCompareOr_when hqp hm

/-- Every matcher, at a node over scalar integers. -/
theorem Idiom.run_replaces (m : Idiom) (hwt : (Expr.binary op t i p q).wellTyped ctx = true)
  (hp : IntTyped ctx w p) (hw : w ≤ 64) (hop : m.accepts op = true)
  (h : m.run (.binary op t i p q) = some r) :
  ReplacesWhen ctx (fun env => ∀ s, m.swappedSum (.binary op t i p q) = some s →
    nat env s = some 0) (.binary op t i p q) r := by
  have htyped : sameOp op = true → IntTyped ctx w (.binary op t i p q) := by
    intro hsame
    simp only [sameOp, Bool.and_eq_true, Option.isSome_iff_exists, beq_iff_eq] at hsame
    obtain ⟨⟨f, hf⟩, hres⟩ := hsame
    exact ⟨hwt, ((binary_types hf hwt).2.1 hres).symm.trans hp.type⟩
  -- Only the carry idioms have a condition.
  have hplain : m.swappedSum (.binary op t i p q) = none →
      Replaces ctx (.binary op t i p q) r → ReplacesWhen ctx (fun env =>
        ∀ s, m.swappedSum (.binary op t i p q) = some s → nat env s = some 0)
        (.binary op t i p q) r := by
    intro hnone hr
    refine hr.replacesWhen fun env s hs => ?_
    rw [hnone] at hs
    cases hs
  cases m <;> simp only [Idiom.accepts, beq_iff_eq] at hop
  case carryCompare => subst hop; exact matchCarryCompare_when (htyped rfl) h
  case carryCompareOr => subst hop; exact matchCarryCompareOr_when (htyped rfl) h
  case signExtend => subst hop; exact hplain rfl (matchSignExtend_replaces (htyped rfl) hw h)
  case maskedRotate => subst hop; exact hplain rfl (matchMaskedRotate_replaces (htyped rfl) hw h)
  case maskedShift => subst hop; exact hplain rfl (matchMaskedShift_replaces (htyped rfl) hw h)
  case mbaAdd => subst hop; exact hplain rfl (matchMbaAdd_replaces (htyped rfl) (by omega) h)
  case mbaSub => subst hop; exact hplain rfl (matchMbaSub_replaces (htyped rfl) (by omega) h)
  case mbaOr => subst hop; exact hplain rfl (matchMbaOr_replaces (htyped rfl) h)
  case mbaXor => subst hop; exact hplain rfl (matchMbaXor_replaces (htyped rfl) h)
  case obfuscatedIncrement =>
    subst hop; exact hplain rfl (matchObfuscatedIncrement_replaces (htyped rfl) (by omega) h)
  case shiftedCompare => exact hplain rfl (matchShiftedCompare_replaces hwt hop hp hw h)
  case cancelledSubtrahend => exact hplain rfl (matchCancelledSubtrahend_replaces hwt hp hw h)

/-- A matcher returns something for a binary node only. -/
theorem Idiom.binary_of_run {m : Idiom} (h : m.run e = some r) :
  ∃ op t i p q, e = .binary op t i p q := by
  cases e with
  | binary op t i p q => exact ⟨op, t, i, p, q, rfl⟩
  | leaf op t i => cases m <;> cases h
  | unary op t i a => cases m <;> cases h
  | ternary op t i a b c => cases m <;> cases h

/-- A state in which every value is the byte `k`. -/
def byteEnv (k : U64) : Env := ⟨HostFloat.idle, fun _ => some (word (zeroExtend k 8)), fun _ => U128.zero⟩

/-- A function all of whose values are bytes. -/
def byteCtx : Ctx := ⟨fun _ => some (.integer 8), fun _ => none⟩

theorem byteEnv_fits (k : U64) : (byteEnv k).Fits byteCtx := by
  refine ⟨?_, fun h => nomatch h⟩
  intro i t v ht hv
  obtain rfl := Option.some.inj ht
  obtain rfl := Option.some.inj hv
  rw [word_toNat, zeroExtend_toNat]
  exact Nat.mod_lt _ (Nat.two_pow_pos _)

end Idioms

end Xdec

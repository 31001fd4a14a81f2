import Xdec.JumpTable
import Xdec.HostArithmetic
import Xdec.Denote
import Xdec.Substitution

/-!
# Shapes of computed branches

Only the low word of an address or a target counts, and sums, products and left
shifts of types of 64 bits and more compute it from the low words of their
operands.  A chain of casts keeps the entry if it never cuts it and widens it
the way the table says, which `reading` describes by the width reached.
-/

namespace Xdec

/-! ## Low words -/

namespace U128

variable {width amount : Nat} {a b v : U128}

theorem mask_lo (h : 64 ≤ width) : (mask v width).lo = v.lo := by
  unfold mask maskOf
  rw [if_pos h]
  exact BitVec.and_allOnes

theorem add_lo (h : 64 ≤ width) : (add a b width).1.lo = a.lo + b.lo := by
  unfold add
  exact mask_lo h

theorem mul64x64_lo (x y : U64) : (mul64x64 x y).2 = x * y := by
  have h := mul64x64_toNat x y
  apply BitVec.eq_of_toNat_eq
  rw [BitVec.toNat_mul, ← h, Nat.add_mul_mod_self_left, Nat.mod_eq_of_lt (BitVec.isLt _)]

theorem mulLow_lo (h : 64 ≤ width) : (mulLow a b width).lo = a.lo * b.lo := by
  unfold mulLow
  rw [mask_lo h, mul64x64_lo]

theorem shl_lo (h : 64 ≤ width) (hamount : amount < 64) :
  (shl v width amount).lo = v.lo <<< amount := by
  unfold shl
  split
  · rename_i hzero
    rw [mask_lo h, hzero, BitVec.shiftLeft_zero]
  · rw [if_neg (by omega), if_neg (by omega), mask_lo h]

theorem zext_lo {toWidth : Nat} (h : 64 ≤ width) : (zext v width toWidth).lo = v.lo := mask_lo h

theorem sext_lo_wide {toWidth : Nat} (h : 64 ≤ width) (hto : 64 ≤ toWidth) :
  (sext v width toWidth).lo = v.lo := by
  unfold sext
  simp only
  split
  · rw [mask_lo hto]
    simp only [or, xor, maskOf, if_pos h, if_pos hto, mask_lo h, BitVec.xor_self, BitVec.or_zero]
  · exact mask_lo h

theorem lo_eq_of_toNat {x : U64} (h : v.toNat % 2 ^ 64 = x.toNat) : v.lo = x := by
  apply BitVec.eq_of_toNat_eq
  have := v.lo.isLt
  unfold toNat at h
  omega

end U128

/-! ## Nodes of the address and of the target -/

section Nodes

open Xdec.Expr

variable {ctx : Ctx} {env : Env} {e : Expr} {v : U128}

theorem Expr.operands_two (hverified : e.verified ctx = true) (hmin : e.op.info.minArity = 2)
  (hmax : e.op.info.maxArity = 2) : e.operands = [e.operandAt 0, e.operandAt 1] := by
  have hnode := (verified_iff.mp hverified).1
  simp only [nodeVerified, hmin, hmax, Bool.and_eq_true, decide_eq_true_eq, operandCount] at hnode
  obtain ⟨x, y, hxy⟩ := List.length_eq_two.mp (Nat.le_antisymm hnode.1.1.1.2 hnode.1.1.1.1)
  rw [operandAt, operandAt, hxy]
  rfl

theorem Expr.type_operand (hverified : e.verified ctx = true)
  (hrule : e.op.info.result = .sameAsOperands) {x : Expr} (hx : x ∈ e.operands) :
  x.type = e.type := by
  have hnode := (verified_iff.mp hverified).1
  simp only [nodeVerified, resultRuleOk, hrule, Bool.and_eq_true] at hnode
  exact beq_iff_eq.mp (List.all_eq_true.mp hnode.1.2 x hx)

/-- The values of the two operands of an operator that does not read flags. -/
theorem den_two (hverified : e.verified ctx = true) (hmin : e.op.info.minArity = 2)
  (hmax : e.op.info.maxArity = 2) (hflags : e.op.readsFlags = false)
  (h : den env e = some v) :
  ∃ x y, den env (e.operandAt 0) = some x ∧ den env (e.operandAt 1) = some y ∧
    applyOp env e [x, y] = .ok v := by
  obtain ⟨-, args, hargs, happ⟩ := den_some_iff.mp h
  rw [operands_two hverified hmin hmax] at hargs
  obtain ⟨x, _, hx, hrest, rfl⟩ := List.forall₂_cons_left_iff.mp hargs
  obtain ⟨y, _, hy, hnil, rfl⟩ := List.forall₂_cons_left_iff.mp hrest
  obtain rfl := List.forall₂_nil_left_iff.mp hnil
  refine ⟨x, y, hx, hy, ?_⟩
  simpa [readArg, hflags] using happ

theorem operandAt_mem (hverified : e.verified ctx = true) (hmin : e.op.info.minArity = 2)
  (hmax : e.op.info.maxArity = 2) : e.operandAt 0 ∈ e.operands ∧ e.operandAt 1 ∈ e.operands := by
  have hoperands := operands_two hverified hmin hmax
  constructor
  · rw [hoperands]
    exact List.mem_cons_self ..
  · rw [hoperands]
    exact List.mem_cons_of_mem _ (List.mem_singleton.mpr rfl)

theorem lo_add (hverified : e.verified ctx = true) (hop : e.op = .add) (hwide : 64 ≤ e.bits)
  (h : den env e = some v) :
  ∃ x y, den env (e.operandAt 0) = some x ∧ den env (e.operandAt 1) = some y ∧
    v.lo = x.lo + y.lo := by
  obtain ⟨x, y, hx, hy, happ⟩ := den_two hverified (by rw [hop]; rfl) (by rw [hop]; rfl)
    (by rw [hop]; rfl) h
  refine ⟨x, y, hx, hy, ?_⟩
  simp only [applyOp, hop, List.getD_cons_zero, List.getD_cons_succ, Except.ok.injEq] at happ
  rw [← happ, U128.add_lo hwide]

theorem lo_const (hconst : e.op = .const) (hwide : 64 ≤ e.bits) (h : den env e = some v) :
  v.lo = e.immediate := by
  obtain ⟨-, args, -, happ⟩ := den_some_iff.mp h
  simp only [applyOp, hconst, Except.ok.injEq] at happ
  rw [← happ, U128.mask_lo hwide]
  rfl

theorem lo_asConstant {c : U64} (hc : e.asConstant = some c) (hwide : 64 ≤ e.bits)
  (h : den env e = some v) : v.lo = c := by
  unfold asConstant at hc
  split at hc
  · rename_i hop
    exact (lo_const hop hwide h).trans (Option.some.inj hc)
  · cases hc

theorem lo_shl (hverified : e.verified ctx = true) (hop : e.op = .shl) (hwide : 64 ≤ e.bits)
  {c : U64} (hc : (e.operandAt 1).asConstant = some c) (hsmall : c.toNat ≤ 4)
  (h : den env e = some v) :
  ∃ x, den env (e.operandAt 0) = some x ∧ v.lo = x.lo <<< c.toNat := by
  obtain ⟨x, y, hx, hy, happ⟩ := den_two hverified (by rw [hop]; rfl) (by rw [hop]; rfl)
    (by rw [hop]; rfl) h
  have hmem := (operandAt_mem hverified (by rw [hop]; rfl) (by rw [hop]; rfl)).2
  have htype := type_operand hverified (by rw [hop]; rfl) hmem
  have hylo : y.lo = c := lo_asConstant hc (by rw [bits, htype]; exact hwide) hy
  have hamount : shiftAmount y = c.toNat := by
    rw [shiftAmount, hylo]
    omega
  refine ⟨x, hx, ?_⟩
  simp only [applyOp, hop, List.getD_cons_zero, List.getD_cons_succ, Except.ok.injEq] at happ
  rw [← happ, hamount, U128.shl_lo hwide (by omega)]

theorem lo_mul (hverified : e.verified ctx = true) (hop : e.op = .mul) (hwide : 64 ≤ e.bits)
  {c : U64} (hc : (e.operandAt 1).asConstant = some c) (h : den env e = some v) :
  ∃ x, den env (e.operandAt 0) = some x ∧ v.lo = x.lo * c := by
  obtain ⟨x, y, hx, hy, happ⟩ := den_two hverified (by rw [hop]; rfl) (by rw [hop]; rfl)
    (by rw [hop]; rfl) h
  have hmem := (operandAt_mem hverified (by rw [hop]; rfl) (by rw [hop]; rfl)).2
  have htype := type_operand hverified (by rw [hop]; rfl) hmem
  have hylo : y.lo = c := lo_asConstant hc (by rw [bits, htype]; exact hwide) hy
  refine ⟨x, hx, ?_⟩
  simp only [applyOp, hop, List.getD_cons_zero, List.getD_cons_succ, Except.ok.injEq] at happ
  rw [← happ, U128.mulLow_lo hwide, hylo]

end Nodes

/-! ## The address of an entry -/

/-- The resolver knows the value of what it answers for. -/
def ResolverSound (resolve : ConstantResolver) (env : Env) : Prop :=
  ∀ r, resolve = some r → ∀ e c, r e = some c → ∀ u, den env e = some u → u.lo = c

/-- The index is scaled, or an entry is one byte. -/
def ScaleExact (resolve : ConstantResolver) (address : Expr) (entryBits : Nat) : Prop :=
  ∀ base scaled, splitAddress resolve address = some (base, scaled) →
    scaled.op = .zext ∨ scaled.op = .sext ∨ scaled.op = .and → entryBits = 8

section Address

open Xdec.Expr

variable {ctx : Ctx} {env : Env} {resolve : ConstantResolver} {e address : Expr} {u v : U128}

theorem singleValueOf_sound (hresolve : ResolverSound resolve env) (hwide : 64 ≤ e.bits) {c : U64}
  (h : singleValueOf resolve e = some c) (hv : den env e = some v) : v.lo = c := by
  unfold singleValueOf at h
  cases hconst : e.asConstant with
  | some k =>
    rw [hconst] at h
    exact (lo_asConstant hconst hwide hv).trans (Option.some.inj h)
  | none =>
    rw [hconst] at h
    obtain ⟨r, hr, hrc⟩ := Option.bind_eq_some_iff.mp h
    exact hresolve r hr e c hrc v hv

theorem splitAddress_sound (hresolve : ResolverSound resolve env)
  (hverified : address.verified ctx = true) (hop : address.op = .add)
  (hwide : 64 ≤ address.bits) {base : U64} {scaled : Expr}
  (h : splitAddress resolve address = some (base, scaled)) (hv : den env address = some v) :
  scaled ∈ address.operands ∧ ∃ x, den env scaled = some x ∧ v.lo = base + x.lo := by
  obtain ⟨x, y, hx, hy, hlo⟩ := lo_add hverified hop hwide hv
  obtain ⟨hmem0, hmem1⟩ := operandAt_mem hverified (by rw [hop]; rfl) (by rw [hop]; rfl)
  have hbits : ∀ z ∈ address.operands, 64 ≤ z.bits := by
    intro z hz
    rw [bits, type_operand hverified (by rw [hop]; rfl) hz]
    exact hwide
  unfold splitAddress at h
  cases hleft : singleValueOf resolve (address.operandAt 0) with
  | some c =>
    rw [hleft] at h
    obtain ⟨rfl, rfl⟩ := Prod.mk.inj (Option.some.inj h)
    refine ⟨hmem1, y, hy, ?_⟩
    rw [hlo, singleValueOf_sound hresolve (hbits _ hmem0) hleft hx]
  | none =>
    rw [hleft] at h
    obtain ⟨c, hright, heq⟩ := Option.map_eq_some_iff.mp h
    obtain ⟨rfl, rfl⟩ := Prod.mk.inj heq
    refine ⟨hmem0, x, hx, ?_⟩
    rw [hlo, singleValueOf_sound hresolve (hbits _ hmem1) hright hy, BitVec.add_comm]

theorem shiftLeft_eq_mul (x : U64) (k : Nat) : x <<< k = x * BitVec.ofNat 64 (2 ^ k) := by
  apply BitVec.eq_of_toNat_eq
  rw [BitVec.toNat_shiftLeft, BitVec.toNat_mul, BitVec.toNat_ofNat, Nat.shiftLeft_eq,
    Nat.mul_mod_mod]

/-- A scaled operand is its index times the stride. -/
theorem matchScaled_sound {scaled index : Expr} {base : U64} {defaultStride : Nat}
  {table : TableAddress} (hverified : scaled.verified ctx = true) (hwide : 64 ≤ scaled.bits)
  (hscale : scaled.op = .zext ∨ scaled.op = .sext ∨ scaled.op = .and → defaultStride = 1)
  (h : matchScaled base scaled defaultStride = some table) (hindex : table.index = some index)
  (hv : den env scaled = some v) (hu : den env index = some u) :
  table.base = base ∧ v.lo = u.lo * BitVec.ofNat 64 table.stride := by
  unfold matchScaled at h
  simp only at h
  split at h
  · rename_i hshl
    obtain ⟨hop, hany⟩ := hshl
    obtain ⟨c, hc, hle⟩ := (Option.any_eq_true _ _).mp hany
    simp only [decide_eq_true_eq] at hle
    cases h
    obtain rfl := Option.some.inj hindex
    obtain ⟨x, hx, hlo⟩ := lo_shl hverified hop hwide hc (Nat.le_trans hle (by decide)) hv
    obtain rfl := Option.some.inj (hx.symm.trans hu)
    refine ⟨rfl, ?_⟩
    rw [hlo, hc, Option.getD_some, shiftLeft_eq_mul]
  · split at h
    · rename_i hmul
      obtain ⟨hop, hany⟩ := hmul
      obtain ⟨c, hc, -⟩ := (Option.any_eq_true _ _).mp hany
      cases h
      obtain rfl := Option.some.inj hindex
      obtain ⟨x, hx, hlo⟩ := lo_mul hverified hop hwide hc hv
      obtain rfl := Option.some.inj (hx.symm.trans hu)
      refine ⟨rfl, ?_⟩
      rw [hlo, hc, Option.getD_some, BitVec.ofNat_toNat, BitVec.setWidth_eq]
    · split at h
      · rename_i hop
        cases h
        obtain rfl := Option.some.inj hindex
        obtain rfl := Option.some.inj (hv.symm.trans hu)
        refine ⟨rfl, ?_⟩
        rw [hscale hop]
        exact (BitVec.mul_one _).symm
      · cases h

/-- **Addresses.**  The address of an entry is the slot the table puts it in. -/
theorem matchTableAddress_sound {entryBits : Nat} {table : TableAddress} {index : Expr}
  (hresolve : ResolverSound resolve env) (hverified : address.verified ctx = true)
  (hwide : 64 ≤ address.bits) (hscale : ScaleExact resolve address entryBits)
  (h : matchTableAddress resolve address (entryBits / 8) = some table)
  (hindex : table.index = some index) (hv : den env address = some v)
  (hu : den env index = some u) :
  v.lo = table.base + u.lo * BitVec.ofNat 64 table.stride := by
  unfold matchTableAddress at h
  cases hconst : address.asConstant with
  | some c =>
    rw [hconst] at h
    cases h
    cases hindex
  | none =>
    simp only [hconst] at h
    split at h
    · cases h
    · rename_i hop
      have hop : address.op = .add := not_not.mp hop
      obtain ⟨⟨base, scaled⟩, hsplit, hscaled⟩ := Option.bind_eq_some_iff.mp h
      obtain ⟨hmem, x, hx, hlo⟩ :=
        splitAddress_sound hresolve hverified hop hwide hsplit hv
      have hstride : scaled.op = .zext ∨ scaled.op = .sext ∨ scaled.op = .and →
          entryBits / 8 = 1 := fun hcast => by rw [hscale base scaled hsplit hcast]
      have hbits : 64 ≤ scaled.bits := by
        rw [bits, type_operand hverified (by rw [hop]; rfl) hmem]
        exact hwide
      obtain ⟨hbase, hoffset⟩ := matchScaled_sound ((verified_iff.mp hverified).2 _ hmem) hbits
        hstride hscaled hindex hx hu
      rw [hlo, hbase, hoffset]

end Address

/-! ## Chains of casts -/

/-- An entry of `entryBits` bits widened to `width`. -/
def reading (signed : Bool) (entryBits n width : Nat) : Nat :=
  if signed = true ∧ 2 ^ (entryBits - 1) ≤ n then n + (2 ^ width - 2 ^ entryBits) else n

/-- The cast neither cuts the entry nor widens it the other way. -/
def castPasses (signed : Bool) (entryBits : Nat) (op : ExprOp) (toBits fromBits : Nat) : Bool :=
  match op with
  | .trunc => decide (entryBits ≤ toBits)
  | .zext => !signed || toBits == fromBits
  | _ => signed

/-- So it is for every cast of the chain. -/
def Expr.passes (signed : Bool) (entryBits : Nat) : Expr → Bool
  | e@(.unary op t _ a) =>
    if e.isCast then castPasses signed entryBits op t.bits a.bits && passes signed entryBits a
    else true
  | _ => true

/-- No cast of the chain cuts the low word. -/
def Expr.keepsWord : Expr → Bool
  | e@(.unary _ t _ a) => if e.isCast then decide (64 ≤ t.bits) && keepsWord a else true
  | _ => true

section Chains

open Xdec.Expr

variable {ctx : Ctx} {env : Env} {signed : Bool} {entryBits n m t : Nat}

theorem reading_of_le (h : 2 ^ (entryBits - 1) ≤ n) (width : Nat) :
  reading true entryBits n width = n + (2 ^ width - 2 ^ entryBits) := if_pos ⟨rfl, h⟩

theorem reading_of_lt (h : n < 2 ^ (entryBits - 1)) (width : Nat) :
  reading signed entryBits n width = n := if_neg fun hle => Nat.not_le.mpr h hle.2

theorem reading_lt (hn : n < 2 ^ entryBits) (hle : entryBits ≤ m) :
  reading signed entryBits n m < 2 ^ m := by
  have hpow : 2 ^ entryBits ≤ 2 ^ m := Nat.pow_le_pow_right (by decide) hle
  unfold reading
  split <;> omega

theorem reading_mod (hn : n < 2 ^ entryBits) (hle : entryBits ≤ t) (ht : t ≤ m) :
  reading signed entryBits n m % 2 ^ t = reading signed entryBits n t := by
  have hpow : 2 ^ entryBits ≤ 2 ^ t := Nat.pow_le_pow_right (by decide) hle
  unfold reading
  split
  · obtain ⟨d, rfl⟩ := Nat.exists_eq_add_of_le ht
    have hd : 0 < 2 ^ d := Nat.two_pow_pos d
    have hsplit : n + (2 ^ (t + d) - 2 ^ entryBits) =
        n + (2 ^ t - 2 ^ entryBits) + 2 ^ t * (2 ^ d - 1) := by
      have : 2 ^ (t + d) = 2 ^ t + 2 ^ t * (2 ^ d - 1) := by
        rw [Nat.pow_add, Nat.mul_sub, Nat.mul_one]
        have := Nat.le_mul_of_pos_right (2 ^ t) hd
        omega
      omega
    rw [hsplit, Nat.add_mul_mod_self_left, Nat.mod_eq_of_lt (by omega)]
  · exact Nat.mod_eq_of_lt (by omega)

theorem reading_sext (hpos : 0 < entryBits) (hle : entryBits ≤ m)
  (ht : m ≤ t) :
  (if reading true entryBits n m < 2 ^ (m - 1) then reading true entryBits n m
    else reading true entryBits n m + (2 ^ t - 2 ^ m)) = reading true entryBits n t := by
  have hpow : 2 ^ m ≤ 2 ^ t := Nat.pow_le_pow_right (by decide) ht
  have hentry : 2 ^ (entryBits - 1) ≤ 2 ^ (m - 1) := Nat.pow_le_pow_right (by decide) (by omega)
  have hwiden : 2 ^ entryBits ≤ 2 ^ m := Nat.pow_le_pow_right (by decide) hle
  have htwice : 2 ^ entryBits = 2 * 2 ^ (entryBits - 1) := by
    rw [← Nat.pow_succ', Nat.succ_eq_add_one, Nat.sub_add_cancel hpos]
  have htwice' : 2 ^ m = 2 * 2 ^ (m - 1) := by
    rw [← Nat.pow_succ', Nat.succ_eq_add_one, Nat.sub_add_cancel (by omega)]
  by_cases hneg : 2 ^ (entryBits - 1) ≤ n
  · rw [reading_of_le hneg, reading_of_le hneg, if_neg (by omega)]
    omega
  · have hlt : n < 2 ^ (entryBits - 1) := Nat.not_le.mp hneg
    rw [reading_of_lt hlt, reading_of_lt hlt, if_pos (by omega)]

/-- The low word of a widened entry. -/
theorem lo_of_reading {v : U128} {entry : U64} (hpos : 0 < entryBits) (hle : entryBits ≤ 64)
  (hentry : entry.toNat < 2 ^ entryBits) (hm : 64 ≤ m)
  (hv : v.toNat = reading signed entryBits entry.toNat m) :
  v.lo = if signed then signExtend entry entryBits else entry := by
  apply U128.lo_eq_of_toNat
  rw [hv, reading_mod hentry hle hm]
  cases signed with
  | false => rfl
  | true =>
    rw [if_pos rfl, signExtend_toNat hpos hle hentry]
    by_cases hneg : 2 ^ (entryBits - 1) ≤ entry.toNat
    · rw [reading_of_le hneg, if_neg (by omega)]
    · rw [reading_of_lt (Nat.not_le.mp hneg), if_pos (Nat.not_le.mp hneg)]

end Chains

section Entries

open Xdec.Expr

variable {ctx : Ctx} {env : Env} {signed : Bool} {entryBits : Nat} {e : Expr} {v w : U128}

theorem bits_le_of_den (hverified : e.verified ctx = true) (hv : den env e = some v) :
  e.bits ≤ 128 :=
  bits_le_of_supported (valid_of_nodeVerified (verified_iff.mp hverified).1) (den_some_iff.mp hv).1

/-- The three casts of a chain, on values. -/
def castValue (op : ExprOp) (x : U128) (fromBits toBits : Nat) : U128 :=
  match op with
  | .zext => U128.zext x fromBits toBits
  | .sext => U128.sext x fromBits toBits
  | _ => U128.mask x toBits

theorem den_cast {op : ExprOp} {type : Ty} {i : U64} {a : Expr}
  (hcast : (Expr.unary op type i a).isCast = true)
  (hv : den env (.unary op type i a) = some v) :
  ∃ x, den env a = some x ∧ v = castValue op x a.bits type.bits := by
  obtain ⟨-, x, hx, happ⟩ := den_unary_iff.mp hv
  refine ⟨x, hx, ?_⟩
  unfold isCast at hcast
  simp only [op_unary, Bool.or_eq_true, beq_iff_eq] at hcast
  rcases hcast with (rfl | rfl) | rfl <;> exact (Except.ok.inj happ).symm

theorem widths_of_cast {op : ExprOp} {type : Ty} {i : U64} {a : Expr}
  (hverified : (Expr.unary op type i a).verified ctx = true) :
  ((op = .zext ∨ op = .sext) → a.bits ≤ type.bits) ∧ (op = .trunc → type.bits ≤ a.bits) := by
  have hnode := (verified_iff.mp hverified).1
  simp only [nodeVerified, Bool.and_eq_true] at hnode
  have hrule := hnode.2
  constructor
  · rintro (rfl | rfl) <;> exact of_decide_eq_true hrule
  · rintro rfl
    exact of_decide_eq_true hrule

/-- **Casts.**  A chain that passes an entry gives it its reading at every width. -/
theorem reading_of_passes (hpos : 0 < entryBits) (hverified : e.verified ctx = true)
  (hpasses : e.passes signed entryBits = true) (hbits : e.belowCasts.bits = entryBits)
  (hv : den env e = some v) (hw : den env e.belowCasts = some w)
  (hlt : w.toNat < 2 ^ entryBits) :
  entryBits ≤ e.bits ∧ v.toNat = reading signed entryBits w.toNat e.bits := by
  have hbottom : e.belowCasts = e →
      entryBits ≤ e.bits ∧ v.toNat = reading signed entryBits w.toNat e.bits := by
    intro hsame
    rw [hsame] at hbits hw
    obtain rfl := Option.some.inj (hv.symm.trans hw)
    rw [hbits]
    refine ⟨Nat.le_refl _, ?_⟩
    unfold reading
    split <;> omega
  induction e generalizing v with
  | leaf | binary | ternary => exact hbottom rfl
  | unary op type i a ih =>
    by_cases hcast : (Expr.unary op type i a).isCast = true
    · rw [belowCasts, if_pos hcast] at hbits hw
      rw [passes, if_pos hcast, Bool.and_eq_true] at hpasses
      obtain ⟨hhere, hpasses⟩ := hpasses
      have hle := bits_le_of_den hverified hv
      obtain ⟨hwiden, hnarrow⟩ := widths_of_cast hverified
      obtain ⟨x, hx, rfl⟩ := den_cast hcast hv
      have haverified := (verified_iff.mp hverified).2 a (List.mem_singleton.mpr rfl)
      have hbelow : a.belowCasts = a → entryBits ≤ a.bits ∧
          x.toNat = reading signed entryBits w.toNat a.bits := by
        intro hsame
        rw [hsame] at hbits hw
        obtain rfl := Option.some.inj (hx.symm.trans hw)
        rw [hbits]
        refine ⟨Nat.le_refl _, ?_⟩
        unfold reading
        split <;> omega
      obtain ⟨hentry, hread⟩ := ih haverified hpasses hbits hx hw hbelow
      have hxlt : x.toNat < 2 ^ a.bits := hread ▸ reading_lt hlt hentry
      unfold isCast at hcast
      simp only [op_unary, Bool.or_eq_true, beq_iff_eq] at hcast
      rcases hcast with (rfl | rfl) | rfl
      · have hwide : a.bits ≤ type.bits := hwiden (.inl rfl)
        refine ⟨Nat.le_trans hentry hwide, ?_⟩
        rw [castValue, U128.zext_toNat hxlt, hread]
        cases signed with
        | false => rfl
        | true =>
          have hsame : type.bits = a.bits := by simpa [castPasses] using hhere
          rw [← hsame]
          rfl
      · obtain rfl : signed = true := hhere
        have hwide : a.bits ≤ type.bits := hwiden (.inr rfl)
        refine ⟨Nat.le_trans hentry hwide, ?_⟩
        rw [castValue, U128.sext_toNat (Nat.lt_of_lt_of_le hpos hentry) hwide hle hxlt, hread]
        exact reading_sext hpos hentry hwide
      · have hkept : entryBits ≤ type.bits := of_decide_eq_true hhere
        refine ⟨hkept, ?_⟩
        have hmask : castValue .trunc x a.bits type.bits = U128.mask x type.bits := rfl
        rw [hmask, U128.mask_toNat, hread]
        exact reading_mod hlt hkept (hnarrow rfl)
    · exact hbottom (by rw [belowCasts, if_neg hcast])

theorem lo_of_keepsWord (hverified : e.verified ctx = true) (hkeeps : e.keepsWord = true)
  (hbits : 64 ≤ e.belowCasts.bits) (hv : den env e = some v)
  (hw : den env e.belowCasts = some w) : 64 ≤ e.bits ∧ v.lo = w.lo := by
  induction e generalizing v with
  | leaf | binary | ternary =>
    obtain rfl := Option.some.inj (hv.symm.trans hw)
    exact ⟨hbits, rfl⟩
  | unary op type i a ih =>
    by_cases hcast : (Expr.unary op type i a).isCast = true
    · rw [belowCasts, if_pos hcast] at hbits hw
      rw [keepsWord, if_pos hcast, Bool.and_eq_true, decide_eq_true_eq] at hkeeps
      obtain ⟨hhere, hkeeps⟩ := hkeeps
      obtain ⟨x, hx, rfl⟩ := den_cast hcast hv
      have haverified := (verified_iff.mp hverified).2 a (List.mem_singleton.mpr rfl)
      obtain ⟨hwide, hlo⟩ := ih haverified hkeeps hbits hx hw
      refine ⟨hhere, ?_⟩
      rw [← hlo]
      unfold castValue
      split
      · exact U128.zext_lo hwide
      · exact U128.sext_lo_wide hwide hhere
      · exact U128.mask_lo hhere
    · rw [belowCasts, if_neg hcast] at hbits hw
      obtain rfl := Option.some.inj (hv.symm.trans hw)
      exact ⟨hbits, rfl⟩

end Entries

end Xdec

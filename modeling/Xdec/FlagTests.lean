import Xdec.FlagPhiDistributor
import Xdec.LoadForwarding

/-!
# What may stand for an operand or a test

Two judgements carry the distribution.  `Keeps e r`: in every state in which the
boolean phis of the cache hold the conditions of their flags phis, `r` has the
value of `e`.  `Tests code e r`: there, `r` has the condition `code` of the flags
`e`.  Both say what `r` reads: values that `e` reads, or boolean phis made for a
flags phi that `e` reads.

The judgements are about one cache throughout, the one the pass ends with, so
that they hold while the phis they speak of are still without operands.
-/

namespace Xdec

abbrev FlagCache := List ((Nat × ConditionCode) × Nat)

/-- The condition of a bundle, as the interpreter computes it. -/
def conditionValue (code : ConditionCode) (flags : U128) : U128 :=
  boolValue (evalCondition code (flags.lo &&& 0xf#64))

namespace IlFunction

/-- The phi that defines a value. -/
def phiOf (f : IlFunction) (v : Nat) : Option PoolOp := do
  let info ← f.values[v]?
  let id ← info.definition
  let op ← f.ops[id]?
  if op.code = .phi then some op else none

/-- The types of a function to which boolean values have been added. -/
def wide (f : IlFunction) : Ctx where
  valueType v := if v < f.values.length then f.ctx.valueType v else some Ty.boolean
  regType := f.ctx.regType

/-- The flag definition `d` reaches `e` directly or through flags phis. -/
inductive Feeds (f : IlFunction) (d : Expr) : Expr → Prop where
  | self (hop : d.op = .flagDef) : Feeds f d d
  | phi {e x : Expr} {op : PoolOp} (hop : e.op = .value) (hphi : f.phiOf e.handle = some op)
      (hx : x ∈ op.operands) (h : Feeds f d x) : Feeds f d e

/-- The tables are right for every definition that reaches `e`. -/
def Testable (f : IlFunction) (code : ConditionCode) (e : Expr) : Prop :=
  ∀ d, f.Feeds d e → FlagConditionRewrite.Faithful code d

/-- A test of a flags value may be distributed. -/
def TestsOk (f : IlFunction) (s : Expr) : Prop :=
  s.op = .flagCond → ∀ x ∈ s.operands, x.op = .value → f.Testable (conditionOf s.immediate) x

structure Sane (f : IlFunction) (e : Expr) : Prop where
  wellTyped : e.wellTyped f.wide = true
  tests : ∀ s, Expr.SubExpr s e → f.TestsOk s

/-- The boolean values of the cache hold the conditions of their flags phis. -/
structure Tracks (f : IlFunction) (cache : FlagCache) (env : Env) : Prop where
  fits : env.Fits f.wide.integers
  tests : ∀ p code n, ((p, code), n) ∈ cache → ∀ x, env.value p = some x →
    env.value n = some (conditionValue code x)

/-- `v` was made for a flags phi that `e` reads. -/
def MadeFor (f : IlFunction) (cache : FlagCache) (e : Expr) (v : Nat) : Prop :=
  ∃ p code, ((p, code), v) ∈ cache ∧ p ∈ e.leaves .value ∧ p < f.values.length ∧
    f.values.length ≤ v

/-- `r` reads what `e` reads, and boolean values made for that. -/
def Reads (f : IlFunction) (cache : FlagCache) (e r : Expr) : Prop :=
  ∀ v ∈ r.leaves .value, v ∈ e.leaves .value ∨ f.MadeFor cache e v

structure Keeps (f : IlFunction) (cache : FlagCache) (e r : Expr) : Prop where
  sane : f.Sane r
  type : r.type = e.type
  /-- Only a test is replaced by something else. -/
  shape : e.op ≠ .flagCond → r.op = e.op ∧ r.immediate = e.immediate ∧
    r.operands.map Expr.type = e.operands.map Expr.type
  reads : f.Reads cache e r
  den : ∀ env, f.Tracks cache env → ∀ v, den env e = some v → den env r = some v

structure Tests (f : IlFunction) (cache : FlagCache) (code : ConditionCode) (e r : Expr) :
    Prop where
  sane : f.Sane r
  type : r.type = Ty.boolean
  reads : f.Reads cache e r
  den : ∀ env, f.Tracks cache env → ∀ v, den env e = some v →
    den env r = some (conditionValue code v)

section Judgements

variable {f : IlFunction} {cache : FlagCache} {code : ConditionCode} {e r q x d : Expr}

/-! ## Sane expressions -/

theorem Sane.node (h : f.Sane e) : f.TestsOk e := h.tests e (.refl e)

theorem Sane.operand (h : f.Sane e) (hx : x ∈ e.operands) : f.Sane x :=
  ⟨Expr.wellTyped_operand h.wellTyped hx, fun s hs => h.tests s (.step hx hs)⟩

theorem Sane.of_operands (hok : e.nodeOk f.wide = true) (hnode : f.TestsOk e)
  (hops : ∀ x ∈ e.operands, f.Sane x) : f.Sane e := by
  refine ⟨Expr.wellTyped_iff.mpr ⟨hok, fun x hx => (hops x hx).wellTyped⟩, ?_⟩
  intro s hs
  cases hs with
  | refl => exact hnode
  | step hx hs => exact (hops _ hx).tests s hs

theorem Sane.nodeOk (h : f.Sane e) : e.nodeOk f.wide = true := Expr.nodeOk_of_wellTyped h.wellTyped

theorem verified_of_wellTyped {ctx : Ctx} (h : e.wellTyped ctx = true) :
  e.verified ctx = true := by
  induction e using Expr.operandInduction with
  | step e ih =>
    exact Expr.verified_iff.mpr
      ⟨Expr.nodeVerified_of_nodeOk (Expr.nodeOk_of_wellTyped h),
        fun x hx => ih x hx (Expr.wellTyped_operand h hx)⟩

theorem Sane.shaped (h : f.Sane e) : e.Shaped f.wide.valueType :=
  Expr.shaped_of_verified (verified_of_wellTyped h.wellTyped)

/-- A bundle is no test. -/
theorem Sane.op_ne_flagCond (h : f.Sane e) (hflags : e.type.isFlags = true) :
  e.op ≠ .flagCond := by
  intro hop
  have hok := h.nodeOk
  simp only [Expr.nodeOk, Bool.and_eq_true, Expr.resultRuleOk, hop, ExprOp.info] at hok
  have hbool := hok.1.1.2.1
  simp only [Ty.isBoolean, Ty.isFlags, Bool.and_eq_true, beq_iff_eq] at hbool hflags
  rw [hflags] at hbool
  cases hbool.1

/-- What a test reads is a bundle. -/
theorem Sane.flags_operand (h : f.Sane e) (hop : e.op = .flagCond) (hx : x ∈ e.operands) :
  x.type.isFlags = true :=
  isFlags_of_readsFlags (Expr.nodeVerified_of_nodeOk h.nodeOk) (by rw [hop]; rfl) hx

theorem Sane.flagCond_type (h : f.Sane e) (hop : e.op = .flagCond) : e.type = Ty.boolean := by
  have hok := h.nodeOk
  simp only [Expr.nodeOk, Bool.and_eq_true, Expr.resultRuleOk, hop, ExprOp.info] at hok
  exact (IntTyped.of_isBoolean h.wellTyped hok.1.1.2.1).type

/-! ## Testing what was replaced -/

theorem isSome_rewrite_congr (himm : r.immediate = e.immediate) :
  (FlagConditionRewrite.rewrite r code).isSome =
    (FlagConditionRewrite.rewrite e code).isSome := by
  unfold FlagConditionRewrite.rewrite
  rw [himm]
  cases flagDefOp e.immediate <;> cases code <;> rfl

theorem faithful_congr (h : FlagConditionRewrite.Faithful code e)
  (himm : r.immediate = e.immediate)
  (htypes : r.operands.map Expr.type = e.operands.map Expr.type) :
  FlagConditionRewrite.Faithful code r := by
  intro hsome
  rw [isSome_rewrite_congr himm] at hsome
  rcases h hsome with hcode | hcode | ⟨hw, hall, hls⟩
  · exact .inl hcode
  · exact .inr (.inl hcode)
  · refine .inr (.inr ⟨himm ▸ hw, ?_, himm ▸ hls⟩)
    intro x hx
    have hmem : x.type ∈ e.operands.map Expr.type := htypes ▸ List.mem_map_of_mem hx
    obtain ⟨y, hy, hyx⟩ := List.mem_map.mp hmem
    rw [← hyx, himm]
    exact hall y hy

theorem Testable.keeps (h : f.Testable code e) (hne : e.op ≠ .flagCond) (hk : f.Keeps cache e r) :
  f.Testable code r := by
  obtain ⟨hop, himm, htypes⟩ := hk.shape hne
  intro d hd
  cases hd with
  | self hdef => exact faithful_congr (h e (.self (hop ▸ hdef))) himm htypes
  | phi hvalue hphi hx hfeeds =>
    have hhandle : r.handle = e.handle := by rw [Expr.handle, himm, Expr.handle]
    exact h d (.phi (hop ▸ hvalue) (hhandle ▸ hphi) hx hfeeds)

theorem Testable.arm {op : PoolOp} (h : f.Testable code e) (hop : e.op = .value)
  (hphi : f.phiOf e.handle = some op) (hx : x ∈ op.operands) : f.Testable code x :=
  fun d hd => h d (.phi hop hphi hx hd)

/-! ## Reading -/

theorem Reads.refl : f.Reads cache e e := fun _ hv => .inl hv

theorem Reads.trans (h : f.Reads cache e r) (h' : f.Reads cache r q) : f.Reads cache e q := by
  intro v hv
  rcases h' v hv with hv | ⟨p, c, hmem, hp, hlt, hle⟩
  · exact h v hv
  · rcases h p hp with hp | ⟨_, _, _, _, _, hge⟩
    · exact .inr ⟨p, c, hmem, hp, hlt, hle⟩
    · omega

/-! ## Keeping a value -/

theorem Keeps.refl (h : f.Sane e) : f.Keeps cache e e :=
  ⟨h, rfl, fun _ => ⟨rfl, rfl, rfl⟩, .refl, fun _ _ _ hv => hv⟩

theorem Keeps.trans (h : f.Keeps cache e r) (h' : f.Keeps cache r q) : f.Keeps cache e q where
  sane := h'.sane
  type := h'.type.trans h.type
  shape hne := by
    obtain ⟨hop, himm, htypes⟩ := h.shape hne
    obtain ⟨hop', himm', htypes'⟩ := h'.shape (hop ▸ hne)
    exact ⟨hop'.trans hop, himm'.trans himm, htypes'.trans htypes⟩
  reads := h.reads.trans h'.reads
  den env ht v hv := h'.den env ht v (h.den env ht v hv)

variable {xs ys : List Expr} {env : Env} {v : U128}

theorem map_type_of_keeps (h : List.Forall₂ (f.Keeps cache) xs ys) :
  ys.map Expr.type = xs.map Expr.type := by
  induction h with
  | nil => rfl
  | cons h _ ih => rw [List.map_cons, List.map_cons, h.type, ih]

theorem mem_of_forall₂ {R : Expr → Expr → Prop} (h : List.Forall₂ R xs ys)
  {y : Expr} (hy : y ∈ ys) : ∃ x ∈ xs, R x y := by
  induction h with
  | nil => cases hy
  | @cons a b as bs hr _ ih =>
    rcases List.mem_cons.mp hy with rfl | hy
    · exact ⟨a, List.mem_cons_self .., hr⟩
    · obtain ⟨x, hx, hr⟩ := ih hy
      exact ⟨x, List.mem_cons_of_mem _ hx, hr⟩

theorem den_of_keeps (ht : f.Tracks cache env) {args : List U128}
  (h : List.Forall₂ (f.Keeps cache) xs ys)
  (hargs : List.Forall₂ (fun x u => Xdec.den env x = some u) xs args) :
  List.Forall₂ (fun x u => Xdec.den env x = some u) ys args := by
  induction h generalizing args with
  | nil => exact hargs
  | cons hk _ ih =>
    obtain ⟨u, us, hu, hus, rfl⟩ := List.forall₂_cons_left_iff.mp hargs
    exact .cons (hk.den env ht u hu) (ih hus)

theorem Keeps.node {e' : Expr} (h : f.Sane e) (ho : e'.op = e.op) (ht : e'.type = e.type)
  (hi : e'.immediate = e.immediate) (hops : List.Forall₂ (f.Keeps cache) e.operands e'.operands) :
  f.Keeps cache e e' := by
  have htypes := map_type_of_keeps hops
  have hflip : ∀ y ∈ e'.operands, ∃ x ∈ e.operands, f.Keeps cache x y := by
    exact fun y hy => mem_of_forall₂ hops hy
  refine ⟨?_, ht, fun _ => ⟨ho, hi, htypes⟩, ?_, ?_⟩
  · refine .of_operands ((nodeOk_congr ho ht hi htypes).trans h.nodeOk) ?_ ?_
    · intro hop y hy hvalue
      obtain ⟨x, hx, hk⟩ := hflip y hy
      have hop : e.op = .flagCond := ho ▸ hop
      have hne := (h.operand hx).op_ne_flagCond (h.flags_operand hop hx)
      rw [hi]
      exact (h.node hop x hx ((hk.shape hne).1 ▸ hvalue)).keeps hne hk
    · intro y hy
      obtain ⟨x, -, hk⟩ := hflip y hy
      exact hk.sane
  · intro v hv
    by_cases hop : e.op = .value
    · rw [Expr.leaves_of_eq (ho.trans hop)] at hv
      rw [Expr.leaves_of_eq hop]
      rw [Expr.handle, hi] at hv
      exact .inl hv
    · obtain ⟨y, hy, hvy⟩ := (Expr.mem_leaves_of_ne (ho ▸ hop)).mp hv
      obtain ⟨x, hx, hk⟩ := hflip y hy
      have hsub : ∀ u ∈ x.leaves .value, u ∈ e.leaves .value :=
        fun u hu => (Expr.mem_leaves_of_ne hop).mpr ⟨x, hx, hu⟩
      rcases hk.reads v hvy with hvx | ⟨p, c, hmem, hp, hlt⟩
      · exact .inl (hsub v hvx)
      · exact .inr ⟨p, c, hmem, hsub p hp, hlt⟩
  · intro env htracks v hv
    obtain ⟨hwide, args, hargs, happ⟩ := den_some_iff.mp hv
    refine den_some_iff.mpr ⟨?_, args, ?_, ?_⟩
    · rw [Expr.bits, ht]
      exact hwide
    · exact den_of_keeps htracks hops hargs
    · rw [ho, applyOp_congr ho ht hi htypes]
      exact happ

/-! ## Testing flags -/

/-- A test of a kept bundle is a test of the bundle. -/
theorem Tests.of_keeps (hk : f.Keeps cache e r) (h : f.Tests cache code r q) :
  f.Tests cache code e q :=
  ⟨h.sane, h.type, hk.reads.trans h.reads,
    fun env ht v hv => h.den env ht v (hk.den env ht v hv)⟩

theorem Tests.keeps (h : f.Tests cache code e r) (hk : f.Keeps cache r q) :
  f.Tests cache code e q :=
  ⟨hk.sane, hk.type.trans h.type, h.reads.trans hk.reads,
    fun env ht v hv => hk.den env ht _ (h.den env ht v hv)⟩

theorem conditionOf_index (code : ConditionCode) :
  conditionOf (BitVec.ofNat 64 code.index) = code := by
  cases code <;> rfl

/-- What a test of one bundle computes. -/
theorem den_flagCond (hop : e.op = .flagCond) (hops : e.operands = [x])
  (hbits : e.bits ≤ 128) :
  Xdec.den env e = some v ↔
    ∃ u, Xdec.den env x = some u ∧ v = conditionValue (conditionOf e.immediate) u := by
  have happly : ∀ u, applyOp env e ([u].map (readArg e.op)) =
      .ok (conditionValue (conditionOf e.immediate) u) := by
    intro u
    have hread : (readArg e.op u).lo &&& 0xf#64 = u.lo &&& 0xf#64 := by
      have hreads : e.op.readsFlags = true := by
        rw [hop]
        rfl
      rw [readArg, if_pos hreads, word, BitVec.and_assoc, BitVec.and_self]
    rw [List.map_cons, List.map_nil]
    simp only [applyOp, hop, List.getD_cons_zero]
    rw [← hop, hread]
    rfl
  rw [den_some_iff, hops]
  constructor
  · rintro ⟨-, args, hargs, happ⟩
    obtain ⟨u, us, hu, hus, rfl⟩ := List.forall₂_cons_left_iff.mp hargs
    cases hus
    rw [happly] at happ
    exact ⟨u, hu, (Except.ok.inj happ).symm⟩
  · rintro ⟨u, hu, rfl⟩
    exact ⟨fun h => absurd h.1 (by omega), [u], .cons hu .nil, happly u⟩

theorem Tests.flagCondition (h : f.Sane e) (hflags : e.type.isFlags = true)
  (ht : f.Testable code e) : f.Tests cache code e (Expr.flagCondition e code) where
  sane := by
    refine .of_operands ?_ ?_ ?_
    · have hvalid : Ty.boolean.valid = true := by decide
      have hbool : Ty.boolean.isBoolean = true := by decide
      simp [Expr.flagCondition, Expr.nodeOk, Expr.operandCount, ExprOp.info, Expr.resultRuleOk,
        Expr.opRuleOk, ExprOp.yieldsFloat, hvalid, hbool, hflags]
    · intro _ y hy _
      obtain rfl := List.mem_singleton.mp hy
      exact (conditionOf_index code).symm ▸ ht
    · intro y hy
      obtain rfl := List.mem_singleton.mp hy
      exact h
  type := rfl
  reads := by
    intro v hv
    have hop : (Expr.flagCondition e code).op ≠ .value := by rintro ⟨⟩
    obtain ⟨y, hy, hvy⟩ := (Expr.mem_leaves_of_ne hop).mp hv
    obtain rfl := List.mem_singleton.mp hy
    exact .inl hvy
  den env _ v hv := by
    have hbits : Ty.boolean.bits ≤ 128 := by decide
    refine (den_flagCond (e := Expr.flagCondition e code) rfl rfl hbits).mpr ⟨v, hv, ?_⟩
    exact congrArg (fun c => conditionValue c v) (conditionOf_index code).symm

theorem Tests.rewrite (h : f.Sane d) (hop : d.op = .flagDef) (ht : f.Testable code d)
  (hr : FlagConditionRewrite.rewrite d code = some r) : f.Tests cache code d r := by
  have hfaithful := ht d (.self hop)
  have htyped := FlagConditionRewrite.rewrite_typed h.wellTyped hop hfaithful hr
  have hcombines := FlagConditionRewrite.rewrite_combines h.wellTyped hop hr
  refine ⟨⟨htyped.wellTyped, ?_⟩, htyped.type, ?_, ?_⟩
  · intro s hs
    rcases hcombines.subExpr hs with ⟨-, hne⟩ | ⟨x, hx, hs⟩
    · exact fun hcond => absurd hcond hne
    · exact (h.operand hx).tests s hs
  · intro v hv
    obtain ⟨x, hx, hvx⟩ := hcombines.leaves hv
    have hne : d.op ≠ .value := by
      rw [hop]
      decide
    exact .inl ((Expr.mem_leaves_of_ne hne).mpr ⟨x, hx, hvx⟩)
  · exact fun env htracks v hv =>
      FlagConditionRewrite.rewrite_den htracks.fits h.wellTyped hop hfaithful hr hv

/-- A value node has what the state holds for it. -/
theorem den_value_iff {t : Ty} {i : U64} (hbits : t.bits ≤ 128) :
  Xdec.den env (.leaf .value t i) = some v ↔
    env.value (i.toNat % 2 ^ 32) = some v := by
  rw [den_leaf_iff]
  simp only [applyOp, Expr.op_leaf, Expr.immediate_leaf]
  constructor
  · rintro ⟨-, h⟩
    split at h
    · rename_i hv
      rw [hv, Except.ok.inj h]
    · cases h
  · intro h
    exact ⟨fun hwide => absurd hwide.1 (by omega), by rw [h]⟩

theorem value_of_den (hop : e.op = .value)
  (hv : Xdec.den env e = some v) : env.value e.handle = some v := by
  obtain ⟨-, args, -, happ⟩ := den_some_iff.mp hv
  simp only [applyOp, hop] at happ
  unfold Expr.handle
  split at happ
  · rename_i hread
    rw [hread, Except.ok.inj happ]
  · cases happ

theorem Tests.valueRef {n : Nat} (hop : e.op = .value) (hmem : ((e.handle, code), n) ∈ cache)
  (hlt : e.handle < f.values.length) (hle : f.values.length ≤ n) (hn : n < 2 ^ 32) :
  f.Tests cache code e (Expr.valueRef Ty.boolean n) := by
  have hhandle := LoadProp.handle_valueRef Ty.boolean hn
  refine ⟨.of_operands ?_ (by rintro ⟨⟩) (by rintro _ ⟨⟩), rfl, ?_, ?_⟩
  · have hvalid : Ty.boolean.valid = true := by decide
    have htype : f.wide.valueType n = some Ty.boolean := if_neg (by omega)
    have hmod : n % 4294967296 = n := Nat.mod_eq_of_lt hn
    simp [Expr.valueRef, Expr.nodeOk, Expr.operandCount, ExprOp.info, Expr.resultRuleOk,
      Expr.opRuleOk, ExprOp.yieldsFloat, hvalid, hmod, htype]
  · intro v hv
    rw [LoadProp.leaves_valueRef Ty.boolean hn, List.mem_singleton] at hv
    subst hv
    refine .inr ⟨e.handle, code, hmem, ?_, hlt, hle⟩
    rw [Expr.leaves_of_eq hop]
    exact List.mem_singleton_self _
  · intro env ht v hv
    refine (den_value_iff (by decide)).mpr ?_
    have hread : (BitVec.ofNat 64 n).toNat % 2 ^ 32 = n := hhandle
    rw [hread]
    exact ht.tests _ _ _ hmem v (value_of_den hop hv)

/-- What tests the operand of a test may stand for the test. -/
theorem Keeps.flagCond (h : f.Sane e) (hop : e.op = .flagCond) (hops : e.operands = [x])
  (ht : f.Tests cache (conditionOf e.immediate) x r) : f.Keeps cache e r := by
  have htype := h.flagCond_type hop
  refine ⟨ht.sane, ht.type.trans htype.symm, fun hne => absurd hop hne, ?_, ?_⟩
  · have hne : e.op ≠ .value := by
      rw [hop]
      decide
    have hsub : ∀ u ∈ x.leaves .value, u ∈ e.leaves .value :=
      fun u hu => (Expr.mem_leaves_of_ne hne).mpr ⟨x, by rw [hops]; exact List.mem_singleton_self _, hu⟩
    intro v hv
    rcases ht.reads v hv with hvx | ⟨p, c, hmem, hp, hlt⟩
    · exact .inl (hsub v hvx)
    · exact .inr ⟨p, c, hmem, hsub p hp, hlt⟩
  · intro env htracks v hv
    have hbits : e.bits ≤ 128 := by
      rw [Expr.bits, htype]
      decide
    obtain ⟨u, hu, rfl⟩ := (den_flagCond hop hops hbits).mp hv
    exact ht.den env htracks u hu

end Judgements

end IlFunction

end Xdec

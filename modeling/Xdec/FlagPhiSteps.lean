import Xdec.FlagPhiInvariant

/-!
# Distributing keeps the invariant

Creating a boolean phi, setting the operands of an operation, and from them the
recursion over a flags phi and the walk over the operands of the function.
-/

namespace Xdec

open IlFunction

section Steps

variable {f : IlFunction} {final cache : FlagCache} {pending : List Nat} {g : SsaGraph}
  {b id k n p v : Nat} {block : IlBlock} {code : ConditionCode} {op phi : PoolOp}
  {flags e r : Expr} {operands arms : List Expr}

/-! ## Reading the graph -/

theorem Inv.lt_of_op (h : Inv f final pending g cache) (hop : f.ops[id]? = some op) :
  id < g.ops.length := by
  have hlt := (List.getElem?_eq_some_iff.mp hop).1
  have hlen := h.ops_length
  omega

theorem Inv.isPhi_op (h : Inv f final pending g cache) (hop : f.ops[id]? = some op) :
  g.isPhi id = f.isPhi id := by
  obtain ⟨operands, hget, -⟩ := h.ops id op hop
  rw [SsaGraph.isPhi, IlFunction.isPhi, hget, hop]
  rfl

theorem Inv.isPhi_made (h : Inv f final pending g cache) (hid : id ∈ f.made cache b) :
  g.isPhi id = true := by
  obtain ⟨entry, hmem, hid⟩ := List.mem_filterMap.mp hid
  obtain ⟨⟨p, code⟩, n⟩ := entry
  obtain ⟨k, hk⟩ := List.mem_iff_getElem?.mp hmem
  obtain ⟨hn, phi, arms, -, hget, -⟩ := h.entries k p code n hk
  split at hid
  · have hmade : f.madeId n = f.ops.length + k := by
      rw [madeId, hn, Nat.add_sub_cancel_left]
    rw [← Option.some.inj hid, SsaGraph.isPhi, hmade, hget]
    rfl
  · cases hid

/-- The phis of a block come first. -/
theorem Inv.split_ops (h : Inv f final pending g cache) (hverify : verify f .ssa = true)
  (hblock : f.blocks[b]? = some block) :
  (f.phiIds block ++ f.made cache b ++ f.bodyIds block).takeWhile g.isPhi =
      f.phiIds block ++ f.made cache b ∧
    (f.phiIds block ++ f.made cache b ++ f.bodyIds block).dropWhile g.isPhi =
      f.bodyIds block := by
  have hphis : ∀ id ∈ f.phiIds block ++ f.made cache b, g.isPhi id = true := by
    intro id hid
    rcases List.mem_append.mp hid with hid | hid
    · have hphi : f.isPhi id = true := List.all_eq_true.mp List.all_takeWhile id hid
      obtain ⟨op, hop, -⟩ :=
        exists_op_of_verify hverify hblock ((List.takeWhile_prefix _).subset hid)
      exact (h.isPhi_op hop).trans hphi
    · exact h.isPhi_made hid
  have hbody : ∀ id ∈ f.bodyIds block, g.isPhi id = false := by
    intro id hid
    obtain ⟨op, hop, -⟩ :=
      exists_op_of_verify hverify hblock ((List.dropWhile_suffix _).subset hid)
    exact (h.isPhi_op hop).trans (not_isPhi_of_verify hverify hblock id hid)
  rw [List.takeWhile_append_of_pos hphis, List.dropWhile_append_of_pos hphis]
  cases hids : f.bodyIds block with
  | nil => simp
  | cons first rest =>
    have hfirst : ¬ g.isPhi first = true := by
      rw [hbody first (hids ▸ List.mem_cons_self ..)]
      exact Bool.false_ne_true
    rw [List.takeWhile_cons_of_neg hfirst, List.dropWhile_cons_of_neg hfirst]
    exact ⟨List.append_nil _, rfl⟩

theorem IlFunction.Sane.handle_lt (h : f.Sane flags) (hflags : flags.type.isFlags = true)
  (hop : flags.op = .value) : flags.handle < f.values.length := by
  have hok := h.nodeOk
  simp only [Expr.nodeOk, Bool.and_eq_true, Expr.opRuleOk, hop, beq_iff_eq] at hok
  have htype : f.wide.valueType flags.handle = some flags.type := hok.1.2
  by_contra hge
  have hwide : f.wide.valueType flags.handle = some Ty.boolean := if_neg hge
  rw [hwide] at htype
  rw [← Option.some.inj htype] at hflags
  cases hflags

/-- The flags phi that is found. -/
structure Found (f : IlFunction) (final : FlagCache) (flags : Expr) (block : Nat) (op phi : PoolOp) :
    Prop where
  value : flags.op = .value
  block : f.blockOf flags.handle = some block
  type : op.type = flags.type
  va : phi.va = op.va
  operands : List.Forall₂ (f.Keeps final) op.operands phi.operands
  found : f.phiOf flags.handle = some op

theorem Inv.found (h : Inv f final pending g cache) (hverify : verify f .ssa = true)
  (hsane : f.Sane flags) (hflags : flags.type.isFlags = true)
  (hphi : g.phiOf flags = some (v, b, phi)) :
  v = flags.handle ∧ ∃ op, Found f final flags b op phi := by
  unfold SsaGraph.phiOf at hphi
  split at hphi
  · rename_i hop
    have hlt := hsane.handle_lt hflags hop
    simp only [Option.bind_eq_bind, Option.bind_eq_some_iff] at hphi
    obtain ⟨info, hinfo, id, hid, phi', hget, block, hblock, hphi⟩ := hphi
    split at hphi
    · rename_i hcode
      obtain ⟨rfl, rfl, rfl⟩ : flags.handle = v ∧ block = b ∧ phi' = phi := by
        simpa using hphi
      rw [h.values _ hlt] at hinfo
      obtain ⟨op, -, -, hget', -, htype, -⟩ := defined_of_verify hverify hinfo hid
      obtain ⟨operands, hset, hkeeps⟩ := h.ops id op hget'
      obtain rfl := Option.some.inj (hset.symm.trans hget)
      refine ⟨rfl, op, hop, ?_, ?_, rfl, hkeeps,
        phiOf_eq_some.mpr ⟨info, id, hinfo, hid, hget', hcode⟩⟩
      · rw [blockOf, hinfo]
        exact hblock
      · have hok := hsane.nodeOk
        simp only [Expr.nodeOk, Bool.and_eq_true, Expr.opRuleOk, hop, beq_iff_eq] at hok
        have hvalue : f.wide.valueType flags.handle = some flags.type := hok.1.2
        have hwide : f.wide.valueType flags.handle = f.ctx.valueType flags.handle := if_pos hlt
        rw [hwide] at hvalue
        have hvalue : f.values[flags.handle]?.map ValueInfo.type = some flags.type := hvalue
        rw [hinfo] at hvalue
        exact htype.symm.trans (Option.some.inj hvalue)
    · cases hphi
  · cases hphi

/-! ## Changing the graph -/

/-- The operands of an operation of the function. -/
theorem Inv.set_op (h : Inv f final pending g cache) (hop : f.ops[id]? = some op)
  (hkeeps : List.Forall₂ (f.Keeps final) op.operands operands) :
  Inv f final pending (g.setOperands id operands) cache where
  values_length := h.values_length
  ops_length := (List.length_modify ..).trans h.ops_length
  blocks_length := h.blocks_length
  values := h.values
  ops id' op' hop' := by
    obtain ⟨operands', hget, hkeeps'⟩ := h.ops id' op' hop'
    by_cases heq : id = id'
    · subst heq
      obtain rfl := Option.some.inj (hop.symm.trans hop')
      refine ⟨operands, ?_, hkeeps⟩
      simp only [SsaGraph.setOperands, List.getElem?_modify, if_true, hget]
      rfl
    · refine ⟨operands', ?_, hkeeps'⟩
      simp only [SsaGraph.setOperands, List.getElem?_modify, heq, if_false, hget]
      rfl
  blocks := h.blocks
  entries k p code n hk := by
    obtain ⟨hn, phi, arms, hphi, hget, harms⟩ := h.entries k p code n hk
    refine ⟨hn, phi, arms, hphi, ?_, harms⟩
    have hlt := (List.getElem?_eq_some_iff.mp hop).1
    have hne : id ≠ f.ops.length + k := by omega
    simp only [SsaGraph.setOperands, List.getElem?_modify, hne, if_false, hget]
    rfl

/-- The operands of a boolean phi. -/
theorem Inv.set_made (h : Inv f final (n :: pending) g cache)
  (hk : cache[k]? = some ((p, code), n)) (hphi : f.phiOf p = some phi)
  (harms : List.Forall₂ (f.Tests final code) phi.operands arms) :
  Inv f final pending (g.setOperands (f.ops.length + k) arms) cache where
  values_length := h.values_length
  ops_length := (List.length_modify ..).trans h.ops_length
  blocks_length := h.blocks_length
  values := h.values
  ops id op hop := by
    obtain ⟨operands, hget, hkeeps⟩ := h.ops id op hop
    refine ⟨operands, ?_, hkeeps⟩
    have hlt := (List.getElem?_eq_some_iff.mp hop).1
    have hne : f.ops.length + k ≠ id := by omega
    simp only [SsaGraph.setOperands, List.getElem?_modify, hne, if_false, hget]
    rfl
  blocks := h.blocks
  entries k' p' code' n' hk' := by
    obtain ⟨hn, phi', arms', hphi', hget, harms'⟩ := h.entries k' p' code' n' hk'
    refine ⟨hn, phi', ?_⟩
    by_cases heq : k = k'
    · subst heq
      obtain ⟨⟨rfl, rfl⟩, rfl⟩ : (p = p' ∧ code = code') ∧ n = n' := by
        simpa using hk.symm.trans hk'
      obtain rfl := Option.some.inj (hphi.symm.trans hphi')
      refine ⟨arms, hphi, ?_, .inr harms⟩
      simp only [SsaGraph.setOperands, List.getElem?_modify, if_true, hget]
      rfl
    · refine ⟨arms', hphi', ?_, ?_⟩
      · have hne : ¬ f.ops.length + k = f.ops.length + k' := by omega
        simp only [SsaGraph.setOperands, List.getElem?_modify, hne, if_false, hget]
        rfl
      · refine harms'.imp_left fun hmem => ?_
        rcases List.mem_cons.mp hmem with hmem | hmem
        · have hn₀ := (h.entries k p code n hk).1
          omega
        · exact hmem

theorem Inv.pending_cons (h : Inv f final pending g cache) (n : Nat) :
  Inv f final (n :: pending) g cache where
  values_length := h.values_length
  ops_length := h.ops_length
  blocks_length := h.blocks_length
  values := h.values
  ops := h.ops
  blocks := h.blocks
  entries k p code n' hk := by
    obtain ⟨hn, phi, arms, hphi, hget, harms⟩ := h.entries k p code n' hk
    exact ⟨hn, phi, arms, hphi, hget, harms.imp_left (List.mem_cons_of_mem _)⟩

theorem made_append : f.made (cache ++ [((p, code), n)]) b =
  f.made cache b ++ if f.blockOf p = some b then [f.madeId n] else [] := by
  unfold made
  rw [List.filterMap_append]
  by_cases h : f.blockOf p = some b <;> simp [h]

/-- A new boolean phi. -/
theorem Inv.prepend (h : Inv f final pending g cache) (code : ConditionCode) (hverify : verify f .ssa = true)
  (hphi : f.phiOf p = some phi) (hblock : f.blockOf p = some b) :
  Inv f final (g.values.length :: pending) (g.prependPhi b phi.va Ty.boolean).2
    (cache ++ [((p, code), g.values.length)]) where
  values_length := by
    simp only [SsaGraph.prependPhi, List.length_append, List.length_singleton, h.values_length]
    omega
  ops_length := by
    simp only [SsaGraph.prependPhi, List.length_append, List.length_singleton, h.ops_length]
    omega
  blocks_length := (List.length_modify ..).trans h.blocks_length
  values v hv := by
    have hlen := h.values_length
    have hlt : v < g.values.length := by omega
    simp only [SsaGraph.prependPhi, List.getElem?_append_left hlt]
    exact h.values v hv
  ops id op hop := by
    obtain ⟨operands, hget, hkeeps⟩ := h.ops id op hop
    refine ⟨operands, ?_, hkeeps⟩
    simp only [SsaGraph.prependPhi, List.getElem?_append_left (h.lt_of_op hop)]
    exact hget
  blocks b' block hb := by
    have hget := h.blocks b' block hb
    have hmadeId : f.madeId g.values.length = g.ops.length := by
      rw [madeId, h.values_length, h.ops_length, Nat.add_sub_cancel_left]
    simp only [SsaGraph.prependPhi, List.getElem?_modify, hget, made_append, hblock,
      Option.some.injEq]
    by_cases heq : b = b'
    · obtain ⟨htake, hdrop⟩ := h.split_ops hverify hb
      simp only [heq, if_true, Option.map_eq_map, Option.map_some, IlBlock.withOps, htake, hdrop,
        hmadeId]
      simp only [List.append_assoc, List.singleton_append]
    · simp only [heq, if_false, List.append_nil]
      rfl
  entries k p' code' n hk := by
    rcases Nat.lt_or_ge k cache.length with hlt | hge
    · rw [List.getElem?_append_left hlt] at hk
      obtain ⟨hn, phi', arms, hphi', hget, harms⟩ := h.entries k p' code' n hk
      refine ⟨hn, phi', arms, hphi', ?_, harms.imp_left (List.mem_cons_of_mem _)⟩
      have hlen := h.ops_length
      have hid : f.ops.length + k < g.ops.length := by omega
      simp only [SsaGraph.prependPhi, List.getElem?_append_left hid]
      exact hget
    · rw [List.getElem?_append_right hge] at hk
      have hzero : k - cache.length = 0 := by
        have hlt := (List.getElem?_eq_some_iff.mp hk).1
        simpa using hlt
      rw [hzero] at hk
      obtain ⟨⟨rfl, rfl⟩, rfl⟩ : (p = p' ∧ code = code') ∧ g.values.length = n := by
        simpa using hk
      have hk : k = cache.length := by omega
      refine ⟨h.values_length.trans (by rw [hk]), phi, [], hphi, ?_, .inl (List.mem_cons_self ..)⟩
      have hid : f.ops.length + k = g.ops.length := by rw [h.ops_length, hk]
      simp only [SsaGraph.prependPhi, hid, List.getElem?_concat_length]
      rfl

end Steps

/-! ## The recursion over flags phis -/

namespace FlagPhiDistributor

section Recursion

variable {f : IlFunction} {final : FlagCache} {pending : List Nat} {code : ConditionCode}
  {remaining : Nat} {flags r : Expr} {incoming : List Expr} {d : FlagPhiDistributor}
  {resolve : Expr → FlagPhiDistributor → Option Expr × FlagPhiDistributor}

/-- The cache grows by the values that are added. -/
structure Grows (d d' : FlagPhiDistributor) : Prop where
  cache : d.cache <+: d'.cache
  values : d'.function.values.length + d.cache.length =
    d.function.values.length + d'.cache.length

theorem Grows.refl (d : FlagPhiDistributor) : Grows d d := ⟨List.prefix_refl _, rfl⟩

theorem Grows.trans {d₁ d₂ d₃ : FlagPhiDistributor} (h : Grows d₁ d₂) (h' : Grows d₂ d₃) :
  Grows d₁ d₃ := by
  refine ⟨h.cache.trans h'.cache, ?_⟩
  have hvalues := h.values
  have hvalues' := h'.values
  omega

theorem resolveArms_grows (code : ConditionCode) (h : ∀ flags d, Grows d (resolve flags d).2)
  (incoming : List Expr) (d : FlagPhiDistributor) :
  Grows d (resolveArms resolve code incoming d).2 := by
  induction incoming generalizing d with
  | nil => exact .refl _
  | cons flags incoming ih => exact (h flags d).trans (ih _)

/-- The new phi of a flags phi, and the operands made for it. -/
def madeArms (code : ConditionCode) (remaining : Nat) (d : FlagPhiDistributor) (v b : Nat)
    (phi : PoolOp) : List Expr × FlagPhiDistributor :=
  resolveArms (resolveRec code remaining) code phi.operands
    ⟨(d.function.prependPhi b phi.va Ty.boolean).2,
      d.cache ++ [((v, code), d.function.values.length)]⟩

/-- What one call does. -/
inductive Resolves (code : ConditionCode) (flags : Expr) (d : FlagPhiDistributor) :
    Nat → Option Expr × FlagPhiDistributor → Prop where
  | table {remaining : Nat} (hop : flags.op = .flagDef) :
      Resolves code flags d remaining (FlagConditionRewrite.rewrite flags code, d)
  | kept {remaining : Nat} : Resolves code flags d remaining (none, d)
  | cached {remaining v b n : Nat} {phi : PoolOp}
      (hphi : d.function.phiOf flags = some (v, b, phi)) (hn : d.cache.lookup (v, code) = some n) :
      Resolves code flags d remaining (some (Expr.valueRef Ty.boolean n), d)
  | made {remaining v b : Nat} {phi : PoolOp} (hphi : d.function.phiOf flags = some (v, b, phi)) :
      Resolves code flags d (remaining + 1)
        (some (Expr.valueRef Ty.boolean d.function.values.length),
          { (madeArms code remaining d v b phi).2 with
            function := (madeArms code remaining d v b phi).2.function.setOperands
              d.function.ops.length (madeArms code remaining d v b phi).1 })

theorem resolveRec_resolves (code : ConditionCode) (remaining : Nat) (flags : Expr)
  (d : FlagPhiDistributor) :
  Resolves code flags d remaining (resolveRec code remaining flags d) := by
  unfold resolveRec
  split
  · rename_i hop
    exact .table hop
  · cases remaining with
    | zero => exact .kept
    | succ remaining =>
      cases hphi : d.function.phiOf flags with
      | none => exact .kept
      | some found =>
        obtain ⟨v, b, phi⟩ := found
        dsimp only
        cases hn : d.cache.lookup (v, code) with
        | some n => exact .cached hphi hn
        | none =>
          dsimp only
          split
          · exact .kept
          · exact .made hphi

theorem resolveRec_grows (code : ConditionCode) (remaining : Nat) (flags : Expr)
  (d : FlagPhiDistributor) : Grows d (resolveRec code remaining flags d).2 := by
  induction remaining using Nat.strong_induction_on generalizing flags d with
  | _ remaining ih =>
    have hcase := resolveRec_resolves code remaining flags d
    generalize resolveRec code remaining flags d = r at hcase ⊢
    cases hcase with
    | table _ | kept | cached _ _ => exact .refl _
    | @made remaining v b phi hphi =>
      have harms := resolveArms_grows code (ih remaining (Nat.lt_succ_self _)) phi.operands
        ⟨(d.function.prependPhi b phi.va Ty.boolean).2,
          d.cache ++ [((v, code), d.function.values.length)]⟩
      have hnew : Grows d ⟨(d.function.prependPhi b phi.va Ty.boolean).2,
          d.cache ++ [((v, code), d.function.values.length)]⟩ := by
        refine ⟨List.prefix_append .., ?_⟩
        simp only [SsaGraph.prependPhi, List.length_append, List.length_singleton]
        omega
      exact ⟨(hnew.trans harms).cache, (hnew.trans harms).values⟩

/-- A bundle whose test may be distributed. -/
structure Flags (f : IlFunction) (code : ConditionCode) (flags : Expr) : Prop where
  sane : f.Sane flags
  type : flags.type.isFlags = true
  testable : f.Testable code flags

/-- What the distributor has made is in order, and the answer tests the flags. -/
structure Resolved (f : IlFunction) (final : FlagCache) (pending : List Nat)
    (code : ConditionCode) (flags : Expr) (r : Option Expr × FlagPhiDistributor) : Prop where
  inv : Inv f final pending r.2.function r.2.cache
  tests : ∀ q, r.1 = some q → f.Tests final code flags q

theorem resolveArms_spec
  (hgrows : ∀ flags d, Grows d (resolve flags d).2)
  (h : ∀ flags d, Flags f code flags → Inv f final pending d.function d.cache →
    (resolve flags d).2.cache <+: final → Resolved f final pending code flags (resolve flags d))
  (hflags : ∀ x ∈ incoming, Flags f code x) (hinv : Inv f final pending d.function d.cache)
  (hfinal : (resolveArms resolve code incoming d).2.cache <+: final) :
  Inv f final pending (resolveArms resolve code incoming d).2.function
      (resolveArms resolve code incoming d).2.cache ∧
    List.Forall₂ (f.Tests final code) incoming (resolveArms resolve code incoming d).1 := by
  induction incoming generalizing d with
  | nil => exact ⟨hinv, .nil⟩
  | cons flags incoming ih =>
    have hflag := hflags flags (List.mem_cons_self ..)
    have hrest := (resolveArms_grows code hgrows incoming (resolve flags d).2).cache
    have hone := h flags d hflag hinv (hrest.trans hfinal)
    obtain ⟨hinv', harms⟩ := ih (fun x hx => hflags x (List.mem_cons_of_mem _ hx)) hone.inv hfinal
    refine ⟨hinv', .cons ?_ harms⟩
    -- What cannot be resolved keeps its own condition.
    cases hq : (resolve flags d).1 with
    | none => exact .flagCondition hflag.sane hflag.type hflag.testable
    | some q => exact hone.tests q hq

theorem mem_of_lookup {cache : FlagCache} {key : Nat × ConditionCode} {n : Nat}
  (h : cache.lookup key = some n) : (key, n) ∈ cache := by
  induction cache with
  | nil => cases h
  | cons entry cache ih =>
    rw [List.lookup_cons] at h
    split at h
    · rename_i heq
      rw [← Option.some.inj h, eq_of_beq heq]
      exact List.mem_cons_self ..
    · exact List.mem_cons_of_mem _ (ih h)

/-- The arms of a flags phi are bundles that may be tested. -/
theorem flags_of_found {b : Nat} {op phi : PoolOp} (hverify : verify f .ssa = true)
  (hoperands : ∀ op ∈ f.ops, ∀ x ∈ op.operands, f.Sane x) (h : Flags f code flags)
  (hfound : Found f final flags b op phi) : ∀ x ∈ phi.operands, Flags f code x := by
  intro x hx
  obtain ⟨y, hy, hk⟩ := mem_of_forall₂ hfound.operands hx
  obtain ⟨info, id, hinfo, hid, hget, hcode⟩ := phiOf_eq_some.mp hfound.found
  obtain ⟨op', b', block, hget', -, -, -, hblock, hmem⟩ := defined_of_verify hverify hinfo hid
  have htypes := (phi_of_verify hverify hblock hmem hget hcode).2
  have hytype : y.type.isFlags = true := by
    rw [htypes y hy, hfound.type]
    exact h.type
  have hsane := hoperands op (List.mem_of_getElem? hget) y hy
  refine ⟨hk.sane, hk.type ▸ hytype, ?_⟩
  exact (h.testable.arm hfound.value hfound.found hy).keeps (hsane.op_ne_flagCond hytype) hk

theorem tests_of_keeps {xs ys zs : List Expr} (h : List.Forall₂ (f.Keeps final) xs ys)
  (h' : List.Forall₂ (f.Tests final code) ys zs) : List.Forall₂ (f.Tests final code) xs zs := by
  induction h generalizing zs with
  | nil => exact h'
  | cons hk _ ih =>
    cases h' with
    | cons ht h' => exact .cons (ht.of_keeps hk) (ih h')

/-- The value of an entry of the cache names the condition. -/
theorem tests_entry {k n : Nat} (hflags : Flags f code flags) (hop : flags.op = .value)
  (hhandles : f.values.length + final.length ≤ 2 ^ 32)
  (hk : final[k]? = some ((flags.handle, code), n)) (hn : n = f.values.length + k) :
  f.Tests final code flags (Expr.valueRef Ty.boolean n) := by
  have hlt := (List.getElem?_eq_some_iff.mp hk).1
  exact .valueRef hop (List.mem_of_getElem? hk) (hflags.sane.handle_lt hflags.type hop) (by omega)
    (by omega)

theorem getElem?_extend {cache : FlagCache} {k : Nat} {entry : (Nat × ConditionCode) × Nat}
  (h : cache <+: final) (hk : cache[k]? = some entry) : final[k]? = some entry := by
  obtain ⟨rest, rfl⟩ := h
  rw [List.getElem?_append_left (List.getElem?_eq_some_iff.mp hk).1]
  exact hk

/-- **The recursion.** -/
theorem resolveRec_spec (hverify : verify f .ssa = true)
  (hoperands : ∀ op ∈ f.ops, ∀ x ∈ op.operands, f.Sane x)
  (hhandles : f.values.length + final.length ≤ 2 ^ 32) (hflags : Flags f code flags)
  (hinv : Inv f final pending d.function d.cache)
  (hfinal : (resolveRec code remaining flags d).2.cache <+: final) :
  Resolved f final pending code flags (resolveRec code remaining flags d) := by
  induction remaining using Nat.strong_induction_on generalizing flags d pending with
  | _ remaining ih =>
    have hcase := resolveRec_resolves code remaining flags d
    generalize resolveRec code remaining flags d = r at hcase hfinal ⊢
    cases hcase with
    | table hop => exact ⟨hinv, fun q hq => .rewrite hflags.sane hop hflags.testable hq⟩
    | kept => exact ⟨hinv, fun q hq => nomatch hq⟩
    | @cached _ v b n phi hphi hn =>
      refine ⟨hinv, fun q hq => ?_⟩
      obtain rfl := Option.some.inj hq
      obtain ⟨rfl, op, hfound⟩ := hinv.found hverify hflags.sane hflags.type hphi
      obtain ⟨k, hk⟩ := List.mem_iff_getElem?.mp (mem_of_lookup hn)
      have hentry := (hinv.entries k _ _ n hk).1
      exact tests_entry hflags hfound.value hhandles (getElem?_extend hfinal hk) hentry
    | @made remaining v b phi hphi =>
      obtain ⟨rfl, op, hfound⟩ := hinv.found hverify hflags.sane hflags.type hphi
      have harms := flags_of_found hverify hoperands hflags hfound
      have hprepend := hinv.prepend code hverify hfound.found hfound.block
      rw [← hfound.va] at hprepend
      obtain ⟨hinv', htests⟩ := resolveArms_spec (resolveRec_grows code remaining)
        (fun flags d hflags hinv hfinal => ih remaining (Nat.lt_succ_self _) hflags hinv hfinal)
        harms hprepend hfinal
      have hgrows := resolveArms_grows code (resolveRec_grows code remaining)
        phi.operands ⟨(d.function.prependPhi b phi.va Ty.boolean).2,
          d.cache ++ [((flags.handle, code), d.function.values.length)]⟩
      have hk : (madeArms code remaining d flags.handle b phi).2.cache[d.cache.length]? =
          some ((flags.handle, code), d.function.values.length) :=
        getElem?_extend hgrows.cache List.getElem?_concat_length
      have hset := hinv'.set_made hk hfound.found (tests_of_keeps hfound.operands htests)
      rw [← hinv.ops_length] at hset
      refine ⟨hset, fun q hq => ?_⟩
      obtain rfl := Option.some.inj hq
      exact tests_entry hflags hfound.value hhandles (getElem?_extend hfinal hk)
        hinv.values_length

end Recursion

end FlagPhiDistributor

/-! ## The walk -/

namespace DistributeWalk

section Walk

open FlagPhiDistributor

variable {f : IlFunction} {final : FlagCache} {e rebuilt : Expr} {es : List Expr}
  {s : DistributeWalk} {id block : Nat}

/-- The walk with `result` for `e`. -/
def remember (s : DistributeWalk) (d : FlagPhiDistributor) (e result : Expr) : DistributeWalk :=
  { s with
    distributor := d
    memo := fun x => if x = e then some result else s.memo x }

/-- What follows the operands of a node. -/
inductive Finishes (e rebuilt : Expr) (s : DistributeWalk) : Expr × DistributeWalk → Prop where
  | kept : Finishes e rebuilt s (rebuilt, s.remember s.distributor e rebuilt)
  | test {flags : Expr} {rest : List Expr} (hop : e.op = .flagCond)
      (hflags : rebuilt.operands = flags :: rest) (hdef : flags.op ≠ .flagDef) :
      Finishes e rebuilt s
        ((resolve flags (conditionOf rebuilt.immediate) s.distributor).1.getD rebuilt,
          s.remember (resolve flags (conditionOf rebuilt.immediate) s.distributor).2 e
            ((resolve flags (conditionOf rebuilt.immediate) s.distributor).1.getD rebuilt))

theorem finish_finishes (e rebuilt : Expr) (s : DistributeWalk) :
  Finishes e rebuilt s (finish e rebuilt s) := by
  unfold finish
  by_cases hop : e.op = .flagCond
  · simp only [hop, if_true]
    cases hflags : rebuilt.operands with
    | nil => exact .kept
    | cons flags rest =>
      dsimp only
      by_cases hdef : flags.op = .flagDef
      · simp only [hdef, if_true]
        exact .kept
      · simp only [hdef, if_false]
        exact .test hop hflags hdef
  · simp only [hop, if_false]
    exact .kept

theorem finish_grows (e rebuilt : Expr) (s : DistributeWalk) :
  Grows s.distributor (finish e rebuilt s).2.distributor := by
  have hcase := finish_finishes e rebuilt s
  generalize finish e rebuilt s = r at hcase ⊢
  cases hcase with
  | kept => exact .refl _
  | test _ _ _ => exact resolveRec_grows ..

theorem distributeFlagCondRec_grows (e : Expr) (s : DistributeWalk) :
  Grows s.distributor (distributeFlagCondRec e s).2.distributor := by
  induction e generalizing s with
  | leaf o t i =>
    unfold distributeFlagCondRec
    split
    · exact .refl _
    · exact finish_grows ..
  | unary o t i a iha =>
    unfold distributeFlagCondRec
    split
    · exact .refl _
    · exact (iha s).trans (finish_grows ..)
  | binary o t i a b iha ihb =>
    unfold distributeFlagCondRec
    split
    · exact .refl _
    · exact ((iha s).trans (ihb _)).trans (finish_grows ..)
  | ternary o t i a b c iha ihb ihc =>
    unfold distributeFlagCondRec
    split
    · exact .refl _
    · exact (((iha s).trans (ihb _)).trans (ihc _)).trans (finish_grows ..)

theorem distributeOperands_grows (es : List Expr) (s : DistributeWalk) :
  Grows s.distributor (distributeOperands es s).2.distributor := by
  induction es generalizing s with
  | nil => exact .refl _
  | cons e es ih => exact (distributeFlagCondRec_grows e s).trans (ih _)

theorem visitOp_grows (s : DistributeWalk) (id : Nat) :
  Grows s.distributor (visitOp s id).distributor := by
  have hgrows := distributeOperands_grows (s.distributor.function.operands id) s
  unfold visitOp
  dsimp only
  split
  · exact hgrows
  · exact ⟨hgrows.cache, hgrows.values⟩

theorem foldl_visitOp_grows (ids : List Nat) (s : DistributeWalk) :
  Grows s.distributor (ids.foldl visitOp s).distributor := by
  induction ids generalizing s with
  | nil => exact .refl _
  | cons id ids ih => exact (visitOp_grows s id).trans (ih _)

theorem foldl_visitBlock_grows (blocks : List Nat) (s : DistributeWalk) :
  Grows s.distributor (blocks.foldl visitBlock s).distributor := by
  induction blocks generalizing s with
  | nil => exact .refl _
  | cons block blocks ih => exact (foldl_visitOp_grows ..).trans (ih _)

/-- The walk so far. -/
structure Walked (f : IlFunction) (final : FlagCache) (s : DistributeWalk) : Prop where
  inv : Inv f final [] s.distributor.function s.distributor.cache
  memo : ∀ e r, s.memo e = some r → f.Sane e → f.Keeps final e r

/-- The function is one the pass may be run on. -/
structure Distributable (f : IlFunction) (final : FlagCache) : Prop where
  verified : verify f .ssa = true
  operands : ∀ op ∈ f.ops, ∀ x ∈ op.operands, f.Sane x
  handles : f.values.length + final.length ≤ 2 ^ 32

theorem Walked.remember {d : FlagPhiDistributor} {result : Expr} (hs : Walked f final s)
  (hinv : Inv f final [] d.function d.cache) (hk : f.Sane e → f.Keeps final e result) :
  Walked f final (s.remember d e result) := by
  refine ⟨hinv, fun x r hr hx => ?_⟩
  by_cases heq : x = e
  · have hr : some result = some r := by simpa [DistributeWalk.remember, heq] using hr
    rw [← Option.some.inj hr, heq]
    exact hk (heq ▸ hx)
  · exact hs.memo x r (by simpa [DistributeWalk.remember, heq] using hr) hx

/-- A bundle that is no definition may be tested when the test may be distributed. -/
theorem flags_of_test {flags : Expr} {rest : List Expr} (hsane : f.Sane rebuilt)
  (hop : rebuilt.op = .flagCond) (hflags : rebuilt.operands = flags :: rest)
  (hdef : flags.op ≠ .flagDef) : Flags f (conditionOf rebuilt.immediate) flags := by
  have hmem : flags ∈ rebuilt.operands := hflags ▸ List.mem_cons_self ..
  refine ⟨hsane.operand hmem, hsane.flags_operand hop hmem, ?_⟩
  intro d hd
  by_cases hvalue : flags.op = .value
  · exact hsane.node hop flags hmem hvalue d hd
  · cases hd with
    | self hop => exact absurd hop hdef
    | phi hop _ _ _ => exact absurd hop hvalue

theorem operands_of_test {flags : Expr} {rest : List Expr} (hsane : f.Sane rebuilt)
  (hop : rebuilt.op = .flagCond) (hflags : rebuilt.operands = flags :: rest) :
  rebuilt.operands = [flags] := by
  have hok := hsane.nodeOk
  simp only [Expr.nodeOk, Bool.and_eq_true, decide_eq_true_eq, hop, Expr.operandCount, hflags,
    ExprOp.info, List.length_cons] at hok
  have hlen : rest.length = 0 := by omega
  rw [hflags, List.length_eq_zero_iff.mp hlen]

theorem finish_spec (hf : Distributable f final) (hs : Walked f final s)
  (hk : f.Keeps final e rebuilt) (hop : rebuilt.op = e.op)
  (hfinal : (finish e rebuilt s).2.distributor.cache <+: final) :
  Walked f final (finish e rebuilt s).2 ∧ f.Keeps final e (finish e rebuilt s).1 := by
  have hcase := finish_finishes e rebuilt s
  generalize finish e rebuilt s = r at hcase hfinal ⊢
  cases hcase with
  | kept => exact ⟨hs.remember hs.inv fun _ => hk, hk⟩
  | @test flags rest hcond hflags hdef =>
    have hcond' := hop.trans hcond
    have hresolved : Resolved f final [] (conditionOf rebuilt.immediate) flags
        (resolve flags (conditionOf rebuilt.immediate) s.distributor) :=
      resolveRec_spec hf.verified hf.operands hf.handles
        (flags_of_test hk.sane hcond' hflags hdef) hs.inv hfinal
    have hkeeps : f.Keeps final e
        ((resolve flags (conditionOf rebuilt.immediate) s.distributor).1.getD rebuilt) := by
      cases hq : (resolve flags (conditionOf rebuilt.immediate) s.distributor).1 with
      | none => exact hk
      | some q =>
        exact hk.trans (.flagCond hk.sane hcond' (operands_of_test hk.sane hcond' hflags)
          (hresolved.tests q hq))
    exact ⟨hs.remember hresolved.inv fun _ => hkeeps, hkeeps⟩

/-- **An expression.** -/
theorem distributeFlagCondRec_spec (hf : Distributable f final) (hs : Walked f final s)
  (hsane : f.Sane e)
  (hfinal : (distributeFlagCondRec e s).2.distributor.cache <+: final) :
  Walked f final (distributeFlagCondRec e s).2 ∧
    f.Keeps final e (distributeFlagCondRec e s).1 := by
  induction e generalizing s with
  | leaf o t i =>
    unfold distributeFlagCondRec at hfinal ⊢
    split at hfinal
    · rename_i r hr
      exact ⟨hs, hs.memo _ r hr hsane⟩
    · exact finish_spec hf hs (.refl hsane) rfl hfinal
  | unary o t i a iha =>
    unfold distributeFlagCondRec at hfinal ⊢
    split at hfinal
    · rename_i r hr
      exact ⟨hs, hs.memo _ r hr hsane⟩
    · obtain ⟨hs', hk⟩ := iha hs (hsane.operand (List.mem_singleton_self _))
        ((finish_grows ..).cache.trans hfinal)
      exact finish_spec hf hs' (.node hsane rfl rfl rfl (.cons hk .nil)) rfl hfinal
  | binary o t i a b iha ihb =>
    unfold distributeFlagCondRec at hfinal ⊢
    split at hfinal
    · rename_i r hr
      exact ⟨hs, hs.memo _ r hr hsane⟩
    · have hb := (finish_grows ..).cache.trans hfinal
      obtain ⟨hs₁, hka⟩ := iha hs (hsane.operand (by simp [Expr.operands]))
        ((distributeFlagCondRec_grows ..).cache.trans hb)
      obtain ⟨hs₂, hkb⟩ := ihb hs₁ (hsane.operand (by simp [Expr.operands])) hb
      exact finish_spec hf hs₂ (.node hsane rfl rfl rfl (.cons hka (.cons hkb .nil))) rfl hfinal
  | ternary o t i a b c iha ihb ihc =>
    unfold distributeFlagCondRec at hfinal ⊢
    split at hfinal
    · rename_i r hr
      exact ⟨hs, hs.memo _ r hr hsane⟩
    · have hc := (finish_grows ..).cache.trans hfinal
      have hb := (distributeFlagCondRec_grows ..).cache.trans hc
      obtain ⟨hs₁, hka⟩ := iha hs (hsane.operand (by simp [Expr.operands]))
        ((distributeFlagCondRec_grows ..).cache.trans hb)
      obtain ⟨hs₂, hkb⟩ := ihb hs₁ (hsane.operand (by simp [Expr.operands])) hb
      obtain ⟨hs₃, hkc⟩ := ihc hs₂ (hsane.operand (by simp [Expr.operands])) hc
      exact finish_spec hf hs₃
        (.node hsane rfl rfl rfl (.cons hka (.cons hkb (.cons hkc .nil)))) rfl hfinal

theorem distributeOperands_spec (hf : Distributable f final) (hs : Walked f final s)
  (hsane : ∀ e ∈ es, f.Sane e)
  (hfinal : (distributeOperands es s).2.distributor.cache <+: final) :
  Walked f final (distributeOperands es s).2 ∧
    List.Forall₂ (f.Keeps final) es (distributeOperands es s).1 := by
  induction es generalizing s with
  | nil => exact ⟨hs, .nil⟩
  | cons e es ih =>
    obtain ⟨hs₁, hk⟩ := distributeFlagCondRec_spec hf hs (hsane e (List.mem_cons_self ..))
      ((distributeOperands_grows ..).cache.trans hfinal)
    obtain ⟨hs₂, hks⟩ := ih hs₁ (fun x hx => hsane x (List.mem_cons_of_mem _ hx)) hfinal
    exact ⟨hs₂, .cons hk hks⟩

theorem keeps_trans {xs ys zs : List Expr} (h : List.Forall₂ (f.Keeps final) xs ys)
  (h' : List.Forall₂ (f.Keeps final) ys zs) : List.Forall₂ (f.Keeps final) xs zs := by
  induction h generalizing zs with
  | nil => exact h'
  | cons hk _ ih =>
    cases h' with
    | cons hk' h' => exact .cons (hk.trans hk') (ih h')

theorem tests_trans {code : ConditionCode} {xs ys zs : List Expr}
  (h : List.Forall₂ (f.Tests final code) xs ys)
  (h' : List.Forall₂ (f.Keeps final) ys zs) : List.Forall₂ (f.Tests final code) xs zs := by
  induction h generalizing zs with
  | nil =>
    cases h'
    exact .nil
  | cons ht _ ih =>
    cases h' with
    | cons hk h' => exact .cons (ht.keeps hk) (ih h')

/-- Where an operation of the graph comes from. -/
theorem Walked.op_cases (hs : Walked f final s) (id : Nat) :
  (∃ op operands, f.ops[id]? = some op ∧ s.distributor.function.operands id = operands ∧
    List.Forall₂ (f.Keeps final) op.operands operands) ∨
  (∃ k p code n phi arms, id = f.ops.length + k ∧
    s.distributor.cache[k]? = some ((p, code), n) ∧ f.phiOf p = some phi ∧
    s.distributor.function.operands id = arms ∧
    List.Forall₂ (f.Tests final code) phi.operands arms) ∨
  s.distributor.function.operands id = [] := by
  have hlen := hs.inv.ops_length
  rcases Nat.lt_or_ge id f.ops.length with hlt | hge
  · obtain ⟨operands, hget, hkeeps⟩ := hs.inv.ops id _ (List.getElem?_eq_getElem hlt)
    refine .inl ⟨_, operands, List.getElem?_eq_getElem hlt, ?_, hkeeps⟩
    rw [SsaGraph.operands, hget]
    rfl
  · rcases Nat.lt_or_ge id s.distributor.function.ops.length with hlt | hout
    · have hk : id - f.ops.length < s.distributor.cache.length := by omega
      obtain ⟨⟨⟨p, code⟩, n⟩, hentry⟩ :
          ∃ entry, s.distributor.cache[id - f.ops.length]? = some entry :=
        ⟨_, List.getElem?_eq_getElem hk⟩
      obtain ⟨-, phi, arms, hphi, hget, harms⟩ := hs.inv.entries _ p code n hentry
      have hid : id = f.ops.length + (id - f.ops.length) := by omega
      refine .inr (.inl ⟨_, p, code, n, phi, arms, hid, hentry, hphi, ?_,
        harms.resolve_left (fun hmem => nomatch hmem)⟩)
      rw [SsaGraph.operands, hid, hget]
      rfl
    · refine .inr (.inr ?_)
      rw [SsaGraph.operands, List.getElem?_eq_none hout]
      rfl

theorem Walked.set {operands : List Expr} {changed : Bool} (hs : Walked f final s)
  (hinv : Inv f final [] (s.distributor.function.setOperands id operands) s.distributor.cache) :
  Walked f final { s with
    distributor := { s.distributor with
      function := s.distributor.function.setOperands id operands }
    changed := changed } :=
  ⟨hinv, hs.memo⟩

/-- **An operation**, of the function or made for it. -/
theorem visitOp_spec (hf : Distributable f final) (hs : Walked f final s)
  (hfinal : (visitOp s id).distributor.cache <+: final) : Walked f final (visitOp s id) := by
  have hsane : ∀ x ∈ s.distributor.function.operands id, f.Sane x := by
    intro x hx
    rcases hs.op_cases id with ⟨op, operands, -, hops, hkeeps⟩ |
      ⟨k, p, code, n, phi, arms, -, -, -, hops, htests⟩ | hops
    · rw [hops] at hx
      obtain ⟨y, -, hk⟩ := mem_of_forall₂ hkeeps hx
      exact hk.sane
    · rw [hops] at hx
      obtain ⟨y, -, hk⟩ := mem_of_forall₂ htests hx
      exact hk.sane
    · rw [hops] at hx
      cases hx
  unfold visitOp at hfinal ⊢
  dsimp only at hfinal ⊢
  have hcache : (distributeOperands (s.distributor.function.operands id) s).2.distributor.cache
      <+: final := by
    split at hfinal
    · exact hfinal
    · exact hfinal
  obtain ⟨hs', hkeeps'⟩ := distributeOperands_spec hf hs hsane hcache
  have hgrows := distributeOperands_grows (s.distributor.function.operands id) s
  generalize distributeOperands (s.distributor.function.operands id) s = r at hs' hkeeps' hgrows ⊢
  split
  · exact hs'
  · rename_i hchanged
    refine hs'.set ?_
    rcases hs.op_cases id with ⟨op, operands, hop, hops, hkeeps⟩ |
      ⟨k, p, code, n, phi, arms, hid, hk, hphi, hops, htests⟩ | hops
    · rw [hops] at hkeeps'
      exact hs'.inv.set_op hop (keeps_trans hkeeps hkeeps')
    · rw [hops] at hkeeps'
      rw [hid]
      exact (hs'.inv.pending_cons n).set_made (getElem?_extend hgrows.cache hk) hphi
        (tests_trans htests hkeeps')
    · rw [hops] at hkeeps'
      have hnil := List.forall₂_nil_left_iff.mp hkeeps'
      exact absurd (hnil.trans hops.symm) hchanged

theorem visitBlock_spec (hf : Distributable f final) (hs : Walked f final s)
  (hfinal : (visitBlock s block).distributor.cache <+: final) :
  Walked f final (visitBlock s block) := by
  unfold visitBlock at hfinal ⊢
  generalize ((s.distributor.function.blocks[block]?.map IlBlock.ops).getD []) = ids at hfinal ⊢
  induction ids generalizing s with
  | nil => exact hs
  | cons id ids ih =>
    exact ih (visitOp_spec hf hs ((foldl_visitOp_grows ids _).cache.trans hfinal)) hfinal

theorem inv_graph (f : IlFunction) (final : FlagCache) (currentPass : Nat)
  (hoperands : ∀ op ∈ f.ops, ∀ x ∈ op.operands, f.Sane x) :
  Inv f final [] (f.graph currentPass) [] where
  values_length := rfl
  ops_length := rfl
  blocks_length := rfl
  values _ _ := rfl
  ops id op hop := by
    refine ⟨op.operands, hop, ?_⟩
    rw [List.forall₂_same]
    exact fun x hx => .refl (hoperands op (List.mem_of_getElem? hop) x hx)
  blocks b block hblock := by
    have hops : block.withOps (f.phiIds block ++ f.made [] b ++ f.bodyIds block) = block := by
      simp only [IlBlock.withOps, made, List.filterMap_nil, List.append_nil, phiIds, bodyIds,
        List.takeWhile_append_dropWhile]
    rw [hops]
    exact hblock
  entries _ _ _ _ hk := nomatch hk

/-- **The pass.**  It ends with the cache all judgements are about. -/
theorem distributeFlagCondThroughPhi_spec (currentPass : Nat)
  (hf : Distributable f (distributeFlagCondThroughPhi f currentPass).distributor.cache) :
  Walked f (distributeFlagCondThroughPhi f currentPass).distributor.cache
    (distributeFlagCondThroughPhi f currentPass) := by
  have hwalk : ∀ (blocks : List Nat) (s : DistributeWalk) (final : FlagCache),
      Distributable f final → Walked f final s →
        (blocks.foldl visitBlock s).distributor.cache <+: final →
          Walked f final (blocks.foldl visitBlock s) := by
    intro blocks
    induction blocks with
    | nil => exact fun s final _ hs _ => hs
    | cons block blocks ih =>
      intro s final hf hs hfinal
      exact ih _ final hf
        (visitBlock_spec hf hs ((foldl_visitBlock_grows blocks _).cache.trans hfinal)) hfinal
  refine hwalk _ _ _ hf ⟨inv_graph f _ currentPass hf.operands, ?_⟩ (List.prefix_refl _)
  exact fun e r hr => nomatch hr

/-- The pass adds one value for each entry of the cache. -/
theorem length_distributed (f : IlFunction) (currentPass : Nat) :
  (distributeFlagCondThroughPhi f currentPass).distributor.function.values.length =
    f.values.length + (distributeFlagCondThroughPhi f currentPass).distributor.cache.length :=
  (foldl_visitBlock_grows (List.range f.blocks.length)
    ⟨⟨f.graph currentPass, []⟩, fun _ => none, false⟩).values

end Walk

end DistributeWalk

end Xdec

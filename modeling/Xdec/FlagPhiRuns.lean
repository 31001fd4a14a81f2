import Xdec.FlagPhiSteps

/-!
# Runs of the function before and after

The two functions are run side by side.  The run of the function before the pass
has one of the function after it beside it, in which every operand has the value
it had and every boolean phi of a block holds, from the entry of the block on,
the condition of the flags phi it was made for (`distributeFlagCond_keeps_runs`).
-/

namespace Xdec

open IlFunction DistributeWalk FlagPhiDistributor

/-- `g` is what the pass makes of `f`. -/
structure DistributedTo (f g : IlFunction) (currentPass : Nat) : Prop where
  file : g.file = f.file
  nameOf : g.nameOf = f.nameOf
  entryBlock : g.entryBlock = f.entryBlock
  graph : g.graph currentPass =
    (distributeFlagCondThroughPhi f currentPass).distributor.function

/-- The operation with other operands that keep the values of its own. -/
def SameOp (f : IlFunction) (final : FlagCache) (op op' : Op) : Prop :=
  ∃ operands, op' = { op with operands := operands } ∧
    List.Forall₂ (f.Keeps final) op.operands operands

section Blocks

variable {f g : IlFunction} {final : FlagCache} {pending : List Nat} {pass b id v p n k : Nat}
  {block : IlBlock} {code : ConditionCode} {op : PoolOp} {phi : PoolOp} {ids : List Nat}

/-! ## The operations of a block -/

def opsAt (f : IlFunction) (ids : List Nat) : List Op :=
  (ids.filterMap fun id => f.ops[id]?).map PoolOp.toOp

theorem opsAt_append (xs ys : List Nat) : opsAt f (xs ++ ys) = opsAt f xs ++ opsAt f ys := by
  simp only [opsAt, List.filterMap_append, List.map_append]

theorem opsAt_cons (hop : f.ops[id]? = some op) : opsAt f (id :: ids) = op.toOp :: opsAt f ids := by
  simp only [opsAt, List.filterMap_cons, hop, List.map_cons]

variable {o : Op}

theorem mem_opsAt (h : o ∈ opsAt f ids) :
  ∃ id op, id ∈ ids ∧ f.ops[id]? = some op ∧ op.toOp = o := by
  obtain ⟨op, hop, rfl⟩ := List.mem_map.mp h
  obtain ⟨id, hid, hget⟩ := List.mem_filterMap.mp hop
  exact ⟨id, op, hid, hget, rfl⟩

theorem all_phi (h : ∀ id ∈ ids, f.isPhi id = true) : ∀ o ∈ opsAt f ids, (o.code == .phi) = true := by
  intro o ho
  obtain ⟨id, op, hid, hget, rfl⟩ := mem_opsAt ho
  have hphi := h id hid
  rw [isPhi, hget] at hphi
  exact hphi

theorem none_phi (h : ∀ id ∈ ids, f.isPhi id = false) :
  ∀ o ∈ opsAt f ids, (o.code == .phi) = false := by
  intro o ho
  obtain ⟨id, op, hid, hget, rfl⟩ := mem_opsAt ho
  have hphi := h id hid
  rw [isPhi, hget] at hphi
  exact hphi

theorem split_block (f : IlFunction) (block : IlBlock) {phis body : List Nat} (hops : block.ops = phis ++ body)
  (hphis : ∀ id ∈ phis, f.isPhi id = true) (hbody : ∀ id ∈ body, f.isPhi id = false) :
  f.phisOf block = opsAt f phis ∧ f.bodyOf block = opsAt f body := by
  have hall : f.blockOps block = opsAt f phis ++ opsAt f body := by
    rw [← opsAt_append, ← hops]
    rfl
  rw [phisOf, bodyOf, hall, List.takeWhile_append_of_pos (all_phi hphis),
    List.dropWhile_append_of_pos (all_phi hphis)]
  cases hrest : opsAt f body with
  | nil => simp
  | cons first rest =>
    have hfirst : ¬ (first.code == .phi) = true := by
      rw [none_phi hbody first (hrest ▸ List.mem_cons_self ..)]
      exact Bool.false_ne_true
    rw [List.takeWhile_cons_of_neg (p := fun o : Op => o.code == .phi) hfirst,
      List.dropWhile_cons_of_neg (p := fun o : Op => o.code == .phi) hfirst]
    exact ⟨List.append_nil _, rfl⟩

/-- The function after the pass, as the invariant has it. -/
structure After (f g : IlFunction) (final : FlagCache) (pass : Nat) : Prop where
  file : g.file = f.file
  nameOf : g.nameOf = f.nameOf
  entryBlock : g.entryBlock = f.entryBlock
  can : Distributable f final
  inv : Inv f final [] (g.graph pass) final

theorem sameOp_opsAt (h : After f g final pass) (hids : ∀ id ∈ ids, ∃ op, f.ops[id]? = some op) :
  List.Forall₂ (SameOp f final) (opsAt f ids) (opsAt g ids) := by
  induction ids with
  | nil => exact .nil
  | cons id ids ih =>
    obtain ⟨op, hop⟩ := hids id (List.mem_cons_self ..)
    obtain ⟨operands, hget, hkeeps⟩ := h.inv.ops id op hop
    have hget : g.ops[id]? = some (op.withOperands operands) := hget
    rw [opsAt_cons hop, opsAt_cons hget]
    exact .cons ⟨operands, rfl, hkeeps⟩ (ih fun id hid => hids id (List.mem_cons_of_mem _ hid))

/-- A block after the pass: its phis, the boolean phis made for them, the rest. -/
structure BlockAfter (f g : IlFunction) (final : FlagCache) (b : Nat) (block block' : IlBlock) :
    Prop where
  va : block'.va = block.va
  predecessors : block'.predecessors = block.predecessors
  context : ∀ host, g.blockContext host block' = f.blockContext host block
  phis : ∃ phis, g.phisOf block' = phis ++ opsAt g (f.made final b) ∧
    List.Forall₂ (SameOp f final) (f.phisOf block) phis
  body : List.Forall₂ (SameOp f final) (f.bodyOf block) (g.bodyOf block')

theorem blockVa_eq (h : After f g final pass) (b : Nat) :
  g.blocks[b]?.map IlBlock.va = f.blocks[b]?.map IlBlock.va := by
  cases hblock : f.blocks[b]? with
  | none =>
    have hlen : g.blocks.length = f.blocks.length := h.inv.blocks_length
    rw [List.getElem?_eq_none (hlen ▸ List.getElem?_eq_none_iff.mp hblock)]
  | some block =>
    have hget : g.blocks[b]? = some (block.withOps _) := h.inv.blocks b block hblock
    rw [hget]
    rfl

theorem block_after (h : After f g final pass) (hblock : f.blocks[b]? = some block) :
  ∃ block', g.blocks[b]? = some block' ∧ BlockAfter f g final b block block' := by
  have hget : g.blocks[b]? =
      some (block.withOps (f.phiIds block ++ f.made final b ++ f.bodyIds block)) :=
    h.inv.blocks b block hblock
  have hexists : ∀ id ∈ block.ops, ∃ op, f.ops[id]? = some op := by
    intro id hid
    obtain ⟨op, hop, -⟩ := exists_op_of_verify h.can.verified hblock hid
    exact ⟨op, hop⟩
  have hphiIds : ∀ id ∈ f.phiIds block, id ∈ block.ops := (List.takeWhile_prefix _).subset
  have hbodyIds : ∀ id ∈ f.bodyIds block, id ∈ block.ops := (List.dropWhile_suffix _).subset
  have hphi : ∀ id ∈ f.phiIds block, f.isPhi id = true :=
    fun id hid => List.all_eq_true.mp List.all_takeWhile id hid
  have hbody := not_isPhi_of_verify h.can.verified hblock
  have hisPhi : ∀ id ∈ block.ops, g.isPhi id = f.isPhi id := by
    intro id hid
    obtain ⟨op, hop⟩ := hexists id hid
    exact h.inv.isPhi_op hop
  obtain ⟨hphis, hrest⟩ := split_block f block
    (List.takeWhile_append_dropWhile).symm hphi hbody
  have hmade : ∀ id ∈ f.phiIds block ++ f.made final b, g.isPhi id = true := by
    intro id hid
    rcases List.mem_append.mp hid with hid | hid
    · exact (hisPhi id (hphiIds id hid)).trans (hphi id hid)
    · exact h.inv.isPhi_made hid
  obtain ⟨hphis', hrest'⟩ := split_block g
    (block.withOps (f.phiIds block ++ f.made final b ++ f.bodyIds block)) rfl hmade
    (fun id hid => (hisPhi id (hbodyIds id hid)).trans (hbody id hid))
  refine ⟨_, hget, rfl, rfl, fun host => ?_, ?_, ?_⟩
  · simp only [blockContext, h.file, h.nameOf, blockVa_eq h]
    rfl
  · refine ⟨opsAt g (f.phiIds block), hphis'.trans (opsAt_append _ _), ?_⟩
    rw [hphis]
    exact sameOp_opsAt h fun id hid => hexists id (hphiIds id hid)
  · rw [hrest, hrest']
    exact sameOp_opsAt h fun id hid => hexists id (hbodyIds id hid)

/-! ## Definitions -/

theorem result_lt (h : After f g final pass) (hblock : f.blocks[b]? = some block)
  (ho : o ∈ f.blockOps block) (hresult : o.result = some v) : v < f.values.length := by
  obtain ⟨info, -, -, hinfo, -⟩ := definition_of_verify h.can.verified hblock ho hresult
  exact (List.getElem?_eq_some_iff.mp hinfo).1

theorem eq_of_phiOf (h : After f g final pass) (hblock : f.blocks[b]? = some block)
  (ho : o ∈ f.blockOps block) (hresult : o.result = some p) (hphi : f.phiOf p = some phi) :
  phi.toOp = o := by
  obtain ⟨info, id, pool, hinfo, hid, hpool, rfl, -⟩ :=
    definition_of_verify h.can.verified hblock ho hresult
  obtain ⟨info', id', hinfo', hid', hget, -⟩ := phiOf_eq_some.mp hphi
  obtain rfl := Option.some.inj (hinfo.symm.trans hinfo')
  obtain rfl := Option.some.inj (hid.symm.trans hid')
  obtain rfl := Option.some.inj (hpool.symm.trans hget)
  rfl

theorem blockOf_result (h : After f g final pass) (hblock : f.blocks[b]? = some block)
  (ho : o ∈ f.blockOps block) (hresult : o.result = some v) : f.blockOf v = some b := by
  obtain ⟨op, hop, rfl⟩ := List.mem_map.mp ho
  obtain ⟨id, hid, hget⟩ := List.mem_filterMap.mp hop
  obtain ⟨info, hinfo, -, hb, -⟩ := recorded_of_verify h.can.verified hblock hid hget hresult
  rw [blockOf, hinfo]
  exact hb

theorem phi_mem (h : After f g final pass) (hblock : f.blocks[b]? = some block)
  (hphi : f.phiOf p = some phi) (hb : f.blockOf p = some b) :
  phi.toOp ∈ f.phisOf block ∧ phi.result = some p := by
  obtain ⟨info, id, hinfo, hid, hget, hcode⟩ := phiOf_eq_some.mp hphi
  obtain ⟨op, b', block', hget', hresult, -, hinfoBlock, hblock', hmem⟩ :=
    defined_of_verify h.can.verified hinfo hid
  obtain rfl := Option.some.inj (hget.symm.trans hget')
  have hb' : info.block = some b := by
    rw [blockOf, hinfo] at hb
    exact hb
  obtain rfl := Option.some.inj (hinfoBlock.symm.trans hb')
  obtain rfl := Option.some.inj (hblock.symm.trans hblock')
  have hisPhi : f.isPhi id = true := by
    rw [isPhi, hget, Option.any_some, hcode]
    rfl
  have hids : id ∈ f.phiIds block := by
    have hsplit : f.phiIds block ++ f.bodyIds block = block.ops := List.takeWhile_append_dropWhile
    rw [← hsplit] at hmem
    rcases List.mem_append.mp hmem with hmem | hmem
    · exact hmem
    · have hnot := not_isPhi_of_verify h.can.verified hblock id hmem
      rw [hisPhi] at hnot
      cases hnot
  have hphis := (split_block f block (List.takeWhile_append_dropWhile).symm
    (fun id hid => List.all_eq_true.mp List.all_takeWhile id hid)
    (not_isPhi_of_verify h.can.verified hblock)).1
  rw [hphis]
  exact ⟨List.mem_map.mpr ⟨phi, List.mem_filterMap.mpr ⟨id, hids, hget⟩, rfl⟩, hresult⟩

theorem entry_unique (h : After f g final pass) {entry entry' : (Nat × ConditionCode) × Nat}
  (hmem : entry ∈ final) (hmem' : entry' ∈ final) (heq : entry.2 = entry'.2) :
  entry = entry' := by
  obtain ⟨k, hk⟩ := List.mem_iff_getElem?.mp hmem
  obtain ⟨k', hk'⟩ := List.mem_iff_getElem?.mp hmem'
  have hn := (h.inv.entries k _ _ _ hk).1
  have hn' := (h.inv.entries k' _ _ _ hk').1
  obtain rfl : k = k' := by omega
  exact Option.some.inj (hk.symm.trans hk')

structure Entry (f g : IlFunction) (final : FlagCache) (pass p : Nat) (code : ConditionCode)
    (n : Nat) (phi : PoolOp) (arms : List Expr) : Prop where
  phiOf : f.phiOf p = some phi
  get : g.ops[f.madeId n]? = some (booleanPhi phi.va pass n arms)
  tests : List.Forall₂ (f.Tests final code) phi.operands arms
  old : p < f.values.length
  new : f.values.length ≤ n

theorem entry_of_mem (h : After f g final pass) (hmem : ((p, code), n) ∈ final) :
  ∃ phi arms, Entry f g final pass p code n phi arms := by
  obtain ⟨k, hk⟩ := List.mem_iff_getElem?.mp hmem
  obtain ⟨hn, phi, arms, hphi, hget, harms⟩ := h.inv.entries k p code n hk
  have hmade : f.madeId n = f.ops.length + k := by
    rw [madeId, hn, Nat.add_sub_cancel_left]
  obtain ⟨info, id, hinfo, -⟩ := phiOf_eq_some.mp hphi
  exact ⟨phi, arms, hphi, hmade ▸ hget, harms.resolve_left (by rintro ⟨⟩),
    (List.getElem?_eq_some_iff.mp hinfo).1, by omega⟩

/-- The boolean phis of a block. -/
theorem mem_made (h : After f g final pass) (ho : o ∈ opsAt g (f.made final b)) :
  ∃ p code n phi arms, ((p, code), n) ∈ final ∧ f.blockOf p = some b ∧
    Entry f g final pass p code n phi arms ∧ o = (booleanPhi phi.va pass n arms).toOp := by
  obtain ⟨id, op, hid, hget, rfl⟩ := mem_opsAt ho
  obtain ⟨⟨⟨p, code⟩, n⟩, hmem, hid⟩ := List.mem_filterMap.mp hid
  obtain ⟨phi, arms, hentry⟩ := entry_of_mem h hmem
  split at hid
  · rename_i hb
    rw [← Option.some.inj hid] at hget
    exact ⟨p, code, n, phi, arms, hmem, hb, hentry,
      congrArg PoolOp.toOp (Option.some.inj (hget.symm.trans hentry.get))⟩
  · cases hid

end Blocks

/-! ## Values -/

/-- The values of the function, and the conditions of its flags phis. -/
def trackedValues (f : IlFunction) (final : FlagCache) (values : Nat → Option U128) (v : Nat) :
    Option U128 :=
  if v < f.values.length then values v
  else
    (final.find? fun entry => entry.2 == v).bind fun entry =>
      (values entry.1.1).map (conditionValue entry.1.2)

def Shallow (g : IlFunction) : Prop :=
  ∀ op ∈ g.ops, ∀ r ∈ op.operands, need r false ≤ kMaxInterpDepth

section Values

variable {f g : IlFunction} {final : FlagCache} {pass b v p n : Nat} {block : IlBlock}
  {code : ConditionCode} {values values' : Nat → Option U128} {x u : U128} {env env' : Env}
  {e r : Expr}

theorem tracked_test (h : After f g final pass) (hmem : ((p, code), n) ∈ final) :
  trackedValues f final values n = (values p).map (conditionValue code) := by
  obtain ⟨phi, arms, hentry⟩ := entry_of_mem h hmem
  have hnot : ¬ n < f.values.length := Nat.not_lt.mpr hentry.new
  rw [trackedValues, if_neg hnot]
  cases hfind : final.find? fun entry => entry.2 == n with
  | none =>
    have hne := List.find?_eq_none.mp hfind _ hmem
    simp at hne
  | some entry =>
    have heq : entry.2 = n := by simpa using List.find?_some hfind
    obtain rfl := entry_unique h (List.mem_of_find?_eq_some hfind) hmem heq
    rfl

theorem tracked_cases (hv : trackedValues f final values v = some x) :
  v < f.values.length ∧ values v = some x ∨
    ∃ p code y, ((p, code), v) ∈ final ∧ values p = some y ∧ x = conditionValue code y := by
  unfold trackedValues at hv
  split at hv
  · rename_i hlt
    exact .inl ⟨hlt, hv⟩
  · obtain ⟨⟨⟨p, code⟩, n⟩, hfind, hv⟩ := Option.bind_eq_some_iff.mp hv
    obtain ⟨y, hy, rfl⟩ := Option.map_eq_some_iff.mp hv
    have heq : n = v := by simpa using List.find?_some hfind
    exact .inr ⟨p, code, y, heq ▸ List.mem_of_find?_eq_some hfind, hy, rfl⟩

theorem conditionValue_lt (code : ConditionCode) (x : U128) : (conditionValue code x).toNat < 2 := by
  unfold conditionValue boolValue
  split <;> decide

/-- The conditions of the phis of the function hold in the tracked values. -/
theorem tracks_tracked (h : After f g final pass) (hfits : env.Fits f.ctx.integers) :
  f.Tracks final { env with value := trackedValues f final env.value } where
  fits := by
    refine ⟨?_, fun ht => hfits.reg ht⟩
    intro v t x ht hx
    rcases tracked_cases hx with ⟨hlt, hx⟩ | ⟨p, code, y, hmem, -, rfl⟩
    · refine hfits.value ?_ hx
      have hwide : f.wide.valueType v = f.ctx.valueType v := if_pos hlt
      have ht : (f.wide.valueType v).filter Ty.isInteger = some t := ht
      rw [hwide] at ht
      exact ht
    · obtain ⟨phi, arms, hentry⟩ := entry_of_mem h hmem
      have hwide : f.wide.valueType v = some Ty.boolean := if_neg (Nat.not_lt.mpr hentry.new)
      have ht : (f.wide.valueType v).filter Ty.isInteger = some t := ht
      rw [hwide] at ht
      obtain rfl : Ty.boolean = t := by
        have := Option.eq_some_of_filter_eq_some ht
        exact Option.some.inj this
      exact conditionValue_lt code y
  tests p code n hmem y hy := by
    obtain ⟨phi, arms, hentry⟩ := entry_of_mem h hmem
    have hy : trackedValues f final env.value p = some y := hy
    have hp : trackedValues f final env.value p = env.value p := if_pos hentry.old
    show trackedValues f final env.value n = _
    rw [tracked_test h hmem, ← hp, hy]
    rfl

/-- The second state holds what the first does, and the conditions of its phis. -/
structure EnvBeside (f : IlFunction) (final : FlagCache) (env env' : Env) : Prop where
  host : env'.host = env.host
  registers : env'.readRegister = env.readRegister
  fits : env.Fits f.ctx.integers
  fresh : ∀ v x, env.value v = some x → v < f.values.length
  values : ∀ v x, trackedValues f final env.value v = some x → env'.value v = some x

theorem EnvBeside.den_tracked (h : EnvBeside f final env env') (hsane : f.Sane e)
  (hden : den env e = some u) :
  den { env with value := trackedValues f final env.value } e = some u := by
  have hhost : ({ env with value := trackedValues f final env.value } : Env).host = env.host := rfl
  refine den_mono hsane.shaped hhost (fun v _ x hx => ?_) (fun _ _ => rfl) hden
  exact (if_pos (h.fresh v x hx)).trans hx

theorem EnvBeside.den_second (h : EnvBeside f final env env') (hsane : f.Sane r)
  (hden : den { env with value := trackedValues f final env.value } r = some u) :
  den env' r = some u := by
  have hhost : env'.host = ({ env with value := trackedValues f final env.value } : Env).host :=
    h.host
  exact den_mono hsane.shaped hhost (fun v _ x hx => h.values v x hx)
    (fun _ _ => congrFun h.registers _) hden

theorem EnvBeside.eval_keeps (h : EnvBeside f final env env') (hafter : After f g final pass)
  (hsane : f.Sane e) (hk : f.Keeps final e r) (hneed : need r false ≤ kMaxInterpDepth)
  (he : eval env e 0 = .ok u) : eval env' r 0 = .ok u := by
  have hden := h.den_tracked hsane ((eval_ok_iff hsane.wellTyped).mp he).1
  have hkept := hk.den _ (tracks_tracked hafter h.fits) u hden
  exact (eval_ok_iff hk.sane.wellTyped).mpr ⟨h.den_second hk.sane hkept, by rwa [Nat.zero_add]⟩

theorem EnvBeside.eval_tests (h : EnvBeside f final env env') (hafter : After f g final pass)
  (hsane : f.Sane e) (ht : f.Tests final code e r) (hneed : need r false ≤ kMaxInterpDepth)
  (he : eval env e 0 = .ok u) : eval env' r 0 = .ok (conditionValue code u) := by
  have hden := h.den_tracked hsane ((eval_ok_iff hsane.wellTyped).mp he).1
  have htested := ht.den _ (tracks_tracked hafter h.fits) u hden
  exact (eval_ok_iff ht.sane.wellTyped).mpr ⟨h.den_second ht.sane htested, by rwa [Nat.zero_add]⟩

end Values

/-! ## Entering a block -/

section Entering

variable {f g : IlFunction} {final : FlagCache} {pass b i v p n : Nat} {block block' : IlBlock}
  {code : ConditionCode} {x : U128} {env env' : Env} {e r : Expr} {o o' : Op} {phis : List Op}

theorem SameOp.result (h : SameOp f final o o') : o'.result = o.result := by
  obtain ⟨operands, rfl, -⟩ := h
  rfl

theorem find_same {ops ops' : List Op} (h : List.Forall₂ (SameOp f final) ops ops') (v : Nat) :
  (ops.find? (fun o => o.result == some v) = none ∧
    ops'.find? (fun o => o.result == some v) = none) ∨
  ∃ o o', ops.find? (fun o => o.result == some v) = some o ∧
    ops'.find? (fun o => o.result == some v) = some o' ∧ SameOp f final o o' := by
  induction h with
  | nil => exact .inl ⟨rfl, rfl⟩
  | @cons o o' ops ops' ho _ ih =>
    by_cases hv : o.result = some v
    · have hv' : o'.result = some v := ho.result.trans hv
      exact .inr ⟨o, o', by simp [hv], by simp [hv'], ho⟩
    · have hv' : ¬ o'.result = some v := fun h => hv (ho.result.symm.trans h)
      simpa [hv, hv'] using ih

theorem sane_operand (h : After f g final pass) (ho : o ∈ f.blockOps block) (he : e ∈ o.operands) :
  f.Sane e := by
  obtain ⟨op, hop, rfl⟩ := List.mem_map.mp ho
  obtain ⟨id, -, hget⟩ := List.mem_filterMap.mp hop
  exact h.can.operands op (List.mem_of_getElem? hget) e he

theorem need_operand (h : Shallow g) (ho : o ∈ g.blockOps block) (hr : r ∈ o.operands) :
  need r false ≤ kMaxInterpDepth := by
  obtain ⟨op, hop, rfl⟩ := List.mem_map.mp ho
  obtain ⟨id, -, hget⟩ := List.mem_filterMap.mp hop
  exact h op (List.mem_of_getElem? hget) r hr

theorem getElem?_forall₂ {R : Expr → Expr → Prop} {es rs : List Expr} (h : List.Forall₂ R es rs)
  (he : es[i]? = some e) : ∃ r, rs[i]? = some r ∧ R e r := by
  obtain ⟨hi, rfl⟩ := List.getElem?_eq_some_iff.mp he
  have hi' : i < rs.length := h.length_eq ▸ hi
  exact ⟨rs[i], List.getElem?_eq_getElem hi', h.get hi hi'⟩

theorem mem_phisOf (ho : o ∈ f.phisOf block) : o ∈ f.blockOps block :=
  (List.takeWhile_prefix _).subset ho

theorem toOption_eq_some {a : Except Diag U128} (h : a.toOption = some x) : a = .ok x := by
  cases a with
  | error d => cases h
  | ok y => exact congrArg Except.ok (Option.some.inj h)

/-- What a phi takes on an edge. -/
theorem arm_of_enter (hfind : phis.find? (fun o => o.result == some v) = some o)
  (hx : enterPhis env phis i v = some x) :
  ∃ e, o.operands[i]? = some e ∧ eval env e 0 = .ok x := by
  rw [enterPhis, hfind] at hx
  obtain ⟨e, he, hx⟩ := Option.bind_eq_some_iff.mp hx
  exact ⟨e, he, toOption_eq_some hx⟩

theorem enter_of_arm (hfind : phis.find? (fun o => o.result == some v) = some o)
  (he : o.operands[i]? = some e) (hx : eval env e 0 = .ok x) :
  enterPhis env phis i v = some x := by
  rw [enterPhis, hfind]
  dsimp only
  rw [he, Option.bind_some, hx]
  rfl

/-- A value of the function. -/
theorem enter_kept (h : EnvBeside f final env env') (hafter : After f g final pass)
  (hshallow : Shallow g) (hb : BlockAfter f g final b block block') (hlt : v < f.values.length)
  (hx : enterPhis env (f.phisOf block) i v = some x) :
  enterPhis env' (g.phisOf block') i v = some x := by
  obtain ⟨phis, hphis, hsame⟩ := hb.phis
  have hmade : (opsAt g (f.made final b)).find? (fun o => o.result == some v) = none := by
    refine List.find?_eq_none.mpr fun o ho hv => ?_
    obtain ⟨p, code, n, phi, arms, -, -, hentry, rfl⟩ := mem_made hafter ho
    have hn : n = v := by simpa [booleanPhi] using hv
    have hnew := hentry.new
    omega
  rcases find_same hsame v with ⟨hnone, hnone'⟩ | ⟨o, o', hfind, hfind', ho⟩
  · have hall : (g.phisOf block').find? (fun o => o.result == some v) = none := by
      rw [hphis, List.find?_append, hnone', hmade]
      rfl
    rw [enterPhis, hnone] at hx
    rw [enterPhis, hall]
    exact h.values v x ((if_pos hlt).trans hx)
  · have hall : (g.phisOf block').find? (fun o => o.result == some v) = some o' := by
      rw [hphis, List.find?_append, hfind']
      rfl
    obtain ⟨e, he, heval⟩ := arm_of_enter hfind hx
    obtain ⟨operands, rfl, hkeeps⟩ := ho
    obtain ⟨r, hr, hk⟩ := getElem?_forall₂ hkeeps he
    have hmem := mem_phisOf (List.mem_of_find?_eq_some hfind)
    have hmem' := mem_phisOf (List.mem_of_find?_eq_some hall)
    exact enter_of_arm hall hr (h.eval_keeps hafter
      (sane_operand hafter hmem (List.mem_of_getElem? he)) hk
      (need_operand hshallow hmem' (List.mem_of_getElem? hr)) heval)

/-- A boolean phi of the block and its flags phi. -/
theorem enter_test (h : EnvBeside f final env env') (hafter : After f g final pass)
  (hshallow : Shallow g) (hblock : f.blocks[b]? = some block)
  (hb : BlockAfter f g final b block block') (hmem : ((p, code), n) ∈ final)
  (hx : enterPhis env (f.phisOf block) i p = some x) :
  enterPhis env' (g.phisOf block') i n = some (conditionValue code x) := by
  obtain ⟨phi, arms, hentry⟩ := entry_of_mem hafter hmem
  obtain ⟨phis, hphis, hsame⟩ := hb.phis
  have hold : phis.find? (fun o => o.result == some n) = none := by
    rcases find_same hsame n with ⟨-, hnone⟩ | ⟨o, o', hfind, -, -⟩
    · exact hnone
    · have hresult : o.result = some n := by simpa using List.find?_some hfind
      have hlt := result_lt hafter hblock (mem_phisOf (List.mem_of_find?_eq_some hfind)) hresult
      have hnew := hentry.new
      omega
  have hunique : ∀ o ∈ opsAt g (f.made final b), o.result = some n →
      f.blockOf p = some b ∧ o = (booleanPhi phi.va pass n arms).toOp := by
    intro o ho hv
    obtain ⟨p', code', n', phi', arms', hmem', hblockOf, hentry', rfl⟩ := mem_made hafter ho
    obtain rfl : n' = n := Option.some.inj hv
    obtain ⟨⟨rfl, rfl⟩, -⟩ : (p' = p ∧ code' = code) ∧ n' = n' := by
      simpa using entry_unique hafter hmem' hmem rfl
    have hget := hentry'.get.symm.trans hentry.get
    exact ⟨hblockOf, congrArg PoolOp.toOp (Option.some.inj hget)⟩
  by_cases hp : f.blockOf p = some b
  · obtain ⟨hphi, hresult⟩ := phi_mem hafter hblock hentry.phiOf hp
    obtain ⟨o, hfind⟩ : ∃ o, (f.phisOf block).find? (fun o => o.result == some p) = some o := by
      refine Option.isSome_iff_exists.mp (List.find?_isSome.mpr ⟨_, hphi, ?_⟩)
      exact beq_iff_eq.mpr hresult
    have hfound : o.result = some p := by simpa using List.find?_some hfind
    have hmemOp := mem_phisOf (List.mem_of_find?_eq_some hfind)
    obtain rfl := eq_of_phiOf hafter hblock hmemOp hfound hentry.phiOf
    obtain ⟨e, he, heval⟩ := arm_of_enter hfind hx
    obtain ⟨r, hr, ht⟩ := getElem?_forall₂ hentry.tests he
    have hmadeMem : (booleanPhi phi.va pass n arms).toOp ∈ opsAt g (f.made final b) := by
      refine List.mem_map.mpr ⟨_, List.mem_filterMap.mpr ⟨f.madeId n, ?_, hentry.get⟩, rfl⟩
      refine List.mem_filterMap.mpr ⟨_, hmem, ?_⟩
      rw [if_pos hp]
    obtain ⟨o', hfind'⟩ :
        ∃ o', (opsAt g (f.made final b)).find? (fun o => o.result == some n) = some o' := by
      refine Option.isSome_iff_exists.mp (List.find?_isSome.mpr ⟨_, hmadeMem, ?_⟩)
      exact beq_iff_eq.mpr rfl
    have hresult' : o'.result = some n := by simpa using List.find?_some hfind'
    obtain ⟨-, rfl⟩ := hunique o' (List.mem_of_find?_eq_some hfind') hresult'
    have hall : (g.phisOf block').find? (fun o => o.result == some n) =
        some (booleanPhi phi.va pass n arms).toOp := by
      rw [hphis, List.find?_append, hold, hfind']
      rfl
    have hmem' := mem_phisOf (List.mem_of_find?_eq_some hall)
    exact enter_of_arm hall hr (h.eval_tests hafter
      (sane_operand hafter hmemOp (List.mem_of_getElem? he)) ht
      (need_operand hshallow hmem' (List.mem_of_getElem? hr)) heval)
  · have hnone : (f.phisOf block).find? (fun o => o.result == some p) = none := by
      refine List.find?_eq_none.mpr fun o ho hv => hp ?_
      exact blockOf_result hafter hblock (mem_phisOf ho) (by simpa using hv)
    have hmade : (opsAt g (f.made final b)).find? (fun o => o.result == some n) = none := by
      refine List.find?_eq_none.mpr fun o ho hv => hp ?_
      exact (hunique o ho (by simpa using hv)).1
    have hall : (g.phisOf block').find? (fun o => o.result == some n) = none := by
      rw [hphis, List.find?_append, hold, hmade]
      rfl
    rw [enterPhis, hnone] at hx
    rw [enterPhis, hall]
    refine h.values n _ ?_
    have hx : env.value p = some x := hx
    rw [tracked_test hafter hmem, hx]
    rfl

end Entering

/-! ## One step of both -/

section Steps

variable {W : Type} {f g : IlFunction} {final : FlagCache} {pass v : Nat} {host : HostFloat}
  {b : Backend W} {s s' t : SsaState W} {op op' : Op} {rest rest' : List Op}
  {m m' : Machine W} {code : ConditionCode}

/-- The state of the function after the pass beside the one before. -/
structure Beside (f : IlFunction) (final : FlagCache) (s s' : SsaState W) : Prop where
  block : s'.block = s.block
  rest : List.Forall₂ (SameOp f final) s.rest s'.rest
  registers : s'.machine.registers = s.machine.registers
  world : s'.machine.world = s.machine.world
  fresh : ∀ v x, s.machine.values v = some x → v < f.values.length
  values : ∀ v x, trackedValues f final s.machine.values v = some x →
    s'.machine.values v = some x

theorem Beside.env_beside (h : Beside f final s s') (hafter : After f g final pass)
  (hfits : (s.env f host).Fits f.ctx.integers) :
  EnvBeside f final (s.env f host) (s'.env g host) := by
  refine ⟨rfl, ?_, hfits, h.fresh, h.values⟩
  simp only [SsaState.env, hafter.file, h.registers]

variable {i : Nat} {block : IlBlock}

/-- An operation that is no phi defines no flags phi. -/
theorem not_tracked (hafter : After f g final pass)
  (hblock : f.blocks[i]? = some block) (hop : op ∈ f.blockOps block) (hcode : op.code ≠ .phi)
  (hresult : op.result = some v) (code : ConditionCode) (n : Nat) : ((v, code), n) ∉ final := by
  intro hmem
  obtain ⟨phi, arms, hentry⟩ := entry_of_mem hafter hmem
  obtain rfl := eq_of_phiOf hafter hblock hop hresult hentry.phiOf
  obtain ⟨-, -, -, -, -, hphi⟩ := phiOf_eq_some.mp hentry.phiOf
  exact hcode hphi

/-- Both give a value of the function the same contents. -/
theorem tracked_define (hafter : After f g final pass) {values values' : Nat → Option U128}
  (h : ∀ v x, trackedValues f final values v = some x → values' v = some x)
  (hlt : v < f.values.length) (hnot : ∀ code n, ((v, code), n) ∉ final) (contents : U128) :
  ∀ w x, trackedValues f final (Function.update values v (some contents)) w = some x →
    Function.update values' v (some contents) w = some x := by
  intro w x hx
  rcases tracked_cases hx with ⟨hw, hx⟩ | ⟨p, code, y, hmem, hy, rfl⟩
  · by_cases hwv : w = v
    · subst hwv
      rwa [Function.update_self] at hx ⊢
    · rw [Function.update_of_ne hwv] at hx ⊢
      exact h w x ((if_pos hw).trans hx)
  · obtain ⟨phi, arms, hentry⟩ := entry_of_mem hafter hmem
    have hp : p ≠ v := by
      rintro rfl
      exact hnot code w hmem
    have hwv : w ≠ v := by
      have hnew := hentry.new
      omega
    rw [Function.update_of_ne hp] at hy
    rw [Function.update_of_ne hwv]
    refine h w _ ?_
    rw [tracked_test hafter hmem, hy]
    rfl

/-- The same contents for the result of an operation. -/
theorem Beside.define (h : Beside f final s s') (hafter : After f g final pass) (hblock : f.blocks[i]? = some block) (hop : op ∈ f.blockOps block)
  (hcode : op.code ≠ .phi) (hrest : List.Forall₂ (SameOp f final) rest rest') (w : W)
  (contents : U128) :
  Beside f final ⟨s.block, rest, { s.machine with world := w }.define op.result contents⟩
    ⟨s'.block, rest', { s'.machine with world := w }.define op.result contents⟩ := by
  refine ⟨h.block, hrest, by simpa using h.registers, by simp, ?_, ?_⟩
  · intro v x hx
    rcases define_values hx with hold | ⟨hresult, -⟩
    · exact h.fresh v x hold
    · exact result_lt hafter hblock hop hresult
  · cases hresult : op.result with
    | none => exact h.values
    | some r =>
      exact tracked_define hafter h.values (result_lt hafter hblock hop hresult)
        (fun code n => not_tracked hafter hblock hop hcode hresult code n) contents

theorem Beside.perform (h : Beside f final s s') (hafter : After f g final pass) (hblock : f.blocks[i]? = some block) (hop : op ∈ f.blockOps block)
  (hphi : op.code ≠ .phi) (hrest : List.Forall₂ (SameOp f final) rest rest')
  {c : BlockContext} {eff : Effect} {w : W} (heff : Machine.Has c b s.machine op eff w) :
  Beside f final ⟨s.block, rest, s.machine.perform c w eff⟩
    ⟨s'.block, rest', s'.machine.perform c w eff⟩ := by
  cases heff with
  | snapshot _ =>
    have hread : Interpreter.readRegister c.file s'.machine.registers op.reg =
        Interpreter.readRegister c.file s.machine.registers op.reg := by rw [h.registers]
    rw [Machine.perform, Machine.perform, hread]
    exact h.define hafter hblock hop hphi hrest _ _
  | write _ _ =>
    refine ⟨h.block, hrest, ?_, rfl, h.fresh, h.values⟩
    simp only [Machine.perform, h.registers]
  | load _ _ _ | intrinsic _ => exact h.define hafter hblock hop hphi hrest _ _
  | stopped _ | none _ => exact ⟨h.block, hrest, h.registers, rfl, h.fresh, h.values⟩

theorem Beside.operands (h : Beside f final s s') (hafter : After f g final pass)
  (hshallow : Shallow g) (hfits : (s.env f host).Fits f.ctx.integers) (hin : s.Within f)
  (hin' : s'.Within g) (hrest : s.rest = op :: rest) :
  ∃ operands rest', s'.rest = { op with operands := operands } :: rest' ∧
    List.Forall₂ (SameOp f final) rest rest' ∧
    List.Forall₂ (fun e r => ∀ u, eval (s.env f host) e 0 = .ok u →
      eval (s'.env g host) r 0 = .ok u) op.operands operands := by
  obtain ⟨block, hblock, hsub⟩ := hin
  obtain ⟨block', hblock', hsub'⟩ := hin'
  have hall := h.rest
  rw [hrest, List.forall₂_cons_left_iff] at hall
  obtain ⟨op', rest', ⟨operands, rfl, hkeeps⟩, hrests, hrest'⟩ := hall
  refine ⟨operands, rest', hrest', hrests, ?_⟩
  have hop : op ∈ f.blockOps block := hsub (hrest ▸ List.mem_cons_self ..)
  have hop' : { op with operands := operands } ∈ g.blockOps block' :=
    hsub' (hrest' ▸ List.mem_cons_self ..)
  have henv := h.env_beside hafter hfits
  have hsane : ∀ e ∈ op.operands, f.Sane e := fun e he => sane_operand hafter hop he
  have hneed : ∀ r ∈ operands, need r false ≤ kMaxInterpDepth :=
    fun r hr => need_operand hshallow hop' hr
  clear hrest' hop' hop hrest hsub' hsub
  generalize op.operands = es at hkeeps hsane
  induction hkeeps with
  | nil => exact .nil
  | cons hk _ ih =>
    obtain ⟨he, hes⟩ := List.forall_mem_cons.mp hsane
    obtain ⟨hr, hrs⟩ := List.forall_mem_cons.mp hneed
    exact .cons (fun u hu => henv.eval_keeps hafter he hk hr hu) (ih hrs hes)

theorem operand_of_forall₂ {R : Expr → Expr → Prop} {operands : List Expr} {e : Expr}
  (h : List.Forall₂ R op.operands operands) (he : op.operands[i]? = some e) :
  R e (({ op with operands := operands } : Op).operand i) := by
  obtain ⟨r, hr, hR⟩ := getElem?_forall₂ h he
  rw [Op.operand, List.getD_eq_getElem?_getD, hr]
  exact hR

theorem eval_operand {operands : List Expr} {env env' : Env} {u : U128}
  (h : List.Forall₂ (fun e r => ∀ u, eval env e 0 = .ok u → eval env' r 0 = .ok u)
    op.operands operands) (hu : eval env (op.operand i) 0 = .ok u) :
  eval env' (({ op with operands := operands } : Op).operand i) 0 = .ok u := by
  cases he : op.operands[i]? with
  | none =>
    rw [Op.operand, List.getD_eq_getElem?_getD, he] at hu
    cases hu
  | some e =>
    rw [Op.operand, List.getD_eq_getElem?_getD, he] at hu
    exact operand_of_forall₂ h he u hu

/-- **One step.**  The function after the pass takes it too. -/
theorem Beside.step (h : Beside f final s s') (hafter : After f g final pass)
  (hshallow : Shallow g) (hfits : (s.env f host).Fits f.ctx.integers) (hin : s.Within f)
  (hin' : s'.Within g) (hstep : SsaStep f host b s t) :
  ∃ t', SsaStep g host b s' t' ∧ Beside f final t t' := by
  have hwithin := hin
  obtain ⟨within, hwithinBlock, hsub⟩ := hwithin
  have henv := h.env_beside hafter hfits
  cases hstep with
  | @op block op rest m hblock hrest hrun =>
    obtain ⟨operands, rest', hrest', hrests, hevals⟩ :=
      h.operands hafter hshallow hfits hin hin' hrest
    have hphi : op.code ≠ .phi := by
      intro hcode
      rw [Machine.runOp, hcode] at hrun
      cases hrun
    obtain ⟨eff, w, hhas, rfl, hsecond⟩ :=
      (Machine.runOp_succeeds hrun (by rintro _ ⟨⟩)).effect
    obtain ⟨block', hblock', hb⟩ := block_after hafter hblock
    have hagree : List.Forall₂ (Machine.Agrees (f.blockContext host block) s.machine s'.machine)
        op.operands operands := by
      refine hevals.imp fun e r her u hu => ?_
      have hu : eval (s'.env g host) r 0 = .ok u := her u (eval_of_machine_eval hu)
      have hsame : s'.machine.env (f.blockContext host block) = s'.env g host := by
        rw [← hb.context host]
        rfl
      rw [Machine.eval, hsame, hu]
    have hrun' := hsecond s'.machine operands h.world hagree
    rw [← hb.context host] at hrun'
    refine ⟨_, .op (h.block ▸ hblock') hrest' hrun', ?_⟩
    rw [hb.context host]
    exact h.perform hafter hblock
      (Option.some.inj (hblock.symm.trans hwithinBlock) ▸ hsub (hrest ▸ List.mem_cons_self ..))
      hphi hrests hhas
  | @call op rest target result w hrest hcode htarget =>
    obtain ⟨operands, rest', hrest', hrests, hevals⟩ :=
      h.operands hafter hshallow hfits hin hin' hrest
    refine ⟨_, .call result w hrest' hcode (eval_operand hevals htarget), ?_⟩
    exact h.define hafter hwithinBlock (hsub (hrest ▸ List.mem_cons_self ..))
      (by rw [hcode]; decide) hrests w result
  | @edge op t i target hrest htakes htarget hfrom =>
    obtain ⟨operands, rest', hrest', hrests, hevals⟩ :=
      h.operands hafter hshallow hfits hin hin' hrest
    obtain rfl := List.forall₂_nil_left_iff.mp hrests
    obtain ⟨target', htarget', hb⟩ := block_after hafter htarget
    have htakes' : Takes g (s'.env g host) { op with operands := operands } t := by
      cases htakes with
      | branch hcode ht => exact .branch hcode ht
      | condBranch hcode hcondition ht =>
        exact .condBranch hcode (eval_operand hevals hcondition) ht
      | indirectBranch hcode hto ht hblock hva =>
        obtain ⟨block', hblock', hb'⟩ := block_after hafter hblock
        exact .indirectBranch hcode (eval_operand hevals hto) ht hblock' (hb'.va.trans hva)
    have hfrom' : target'.predecessors[i]? = some s'.block := by
      rw [hb.predecessors, h.block]
      exact hfrom
    refine ⟨_, .edge hrest' htakes' htarget' hfrom', rfl, hb.body, h.registers, h.world, ?_, ?_⟩
    · intro v x hx
      cases hfind : (f.phisOf target).find? fun o => o.result == some v with
      | none =>
        have hx : enterPhis (s.env f host) (f.phisOf target) i v = some x := hx
        rw [enterPhis, hfind] at hx
        exact h.fresh v x hx
      | some o =>
        exact result_lt hafter htarget (mem_phisOf (List.mem_of_find?_eq_some hfind))
          (by simpa using List.find?_some hfind)
    · intro v x hx
      rcases tracked_cases hx with ⟨hlt, hx⟩ | ⟨p, code, y, hmem, hy, rfl⟩
      · exact enter_kept henv hafter hshallow hb hlt hx
      · exact enter_test henv hafter hshallow htarget hb hmem hy

end Steps

/-! ## Runs -/

/-- `n` is the value of a phi made for the flags phi of `p`: in the block of that
phi, with an operand for each of its predecessors in their order, which tests the
operand the flags phi has there. -/
structure MadeFrom (f g : IlFunction) (final : FlagCache) (p : Nat) (code : ConditionCode)
    (n : Nat) : Prop where
  phis : ∃ (b : Nat) (block block' : IlBlock) (phi : PoolOp) (made : Op),
    f.phiOf p = some phi ∧ f.blocks[b]? = some block ∧
    phi.toOp ∈ f.phisOf block ∧ g.blocks[b]? = some block' ∧ made ∈ g.phisOf block' ∧
    made.result = some n ∧ made.type = Ty.boolean ∧
    made.operands.length = block'.predecessors.length ∧
    block'.predecessors = block.predecessors ∧
    List.Forall₂ (f.Tests final code) phi.operands made.operands

section Runs

variable {W : Type} {f g : IlFunction} {final : FlagCache} {pass p n : Nat} {host : HostFloat}
  {b : Backend W} {s s' : SsaState W} {run : List (SsaState W)} {code : ConditionCode}

/-- The states are side by side and the operands of the next operation have in the
second the values they have in the first. -/
structure Mirrors (f g : IlFunction) (final : FlagCache) (host : HostFloat) (s s' : SsaState W) :
    Prop extends Beside f final s s' where
  operands : ∀ op rest, s.rest = op :: rest → ∃ operands rest',
    s'.rest = { op with operands := operands } :: rest' ∧
      List.Forall₂ (fun e r => ∀ u, eval (s.env f host) e 0 = .ok u →
        eval (s'.env g host) r 0 = .ok u) op.operands operands
  tests : ∀ p code n, ((p, code), n) ∈ final → ∀ x, s.machine.values p = some x →
    s'.machine.values n = some (conditionValue code x)

theorem Beside.mirrors (h : Beside f final s s') (hafter : After f g final pass)
  (hshallow : Shallow g) (hfits : (s.env f host).Fits f.ctx.integers) (hin : s.Within f)
  (hin' : s'.Within g) : Mirrors f g final host s s' := by
  refine ⟨h, fun op rest hrest => ?_, fun p code n hmem x hx => ?_⟩
  · obtain ⟨operands, rest', hrest', -, hevals⟩ :=
      h.operands hafter hshallow hfits hin hin' hrest
    exact ⟨operands, rest', hrest', hevals⟩
  · refine h.values n _ ?_
    rw [tracked_test hafter hmem, hx]
    rfl

theorem made_from (hafter : After f g final pass) (hmem : ((p, code), n) ∈ final) :
  MadeFrom f g final p code n := by
  obtain ⟨phi, arms, hentry⟩ := entry_of_mem hafter hmem
  obtain ⟨info, id, hinfo, hid, hget, hcode⟩ := phiOf_eq_some.mp hentry.phiOf
  obtain ⟨op, i, block, hget', hresult, -, hi, hblock, hidMem⟩ :=
    defined_of_verify hafter.can.verified hinfo hid
  obtain rfl := Option.some.inj (hget.symm.trans hget')
  have hblockOf : f.blockOf p = some i := by
    rw [blockOf, hinfo]
    exact hi
  obtain ⟨block', hblock', hb⟩ := block_after hafter hblock
  obtain ⟨phis, hphis, -⟩ := hb.phis
  have hlength := (phi_of_verify hafter.can.verified hblock hidMem hget hcode).1
  refine ⟨i, block, block', phi, (booleanPhi phi.va pass n arms).toOp, hentry.phiOf, hblock,
    (phi_mem hafter hblock hentry.phiOf hblockOf).1, hblock', ?_, rfl, rfl, ?_, hb.predecessors,
    hentry.tests⟩
  · rw [hphis]
    refine List.mem_append_right _ (List.mem_map.mpr ⟨_, List.mem_filterMap.mpr
      ⟨f.madeId n, ?_, hentry.get⟩, rfl⟩)
    refine List.mem_filterMap.mpr ⟨_, hmem, ?_⟩
    rw [if_pos hblockOf]
  · rw [hb.predecessors, ← hlength]
    exact hentry.tests.length_eq.symm

theorem run_beside (hafter : After f g final pass) (hshallow : Shallow g)
  (hrun : SsaRun f host b run) (hfits : ∀ s ∈ run, (s.env f host).Fits f.ctx.integers) :
  ∃ run', SsaRun g host b run' ∧ List.Forall₂ (Mirrors f g final host) run run' := by
  induction hrun with
  | @start entry block registers world hentry hblock =>
    obtain ⟨block', hblock', hb⟩ := block_after hafter hblock
    have hrun' : SsaRun g host b [⟨entry, g.bodyOf block', ⟨registers, fun _ => none, world⟩⟩] :=
      .start registers world (hafter.entryBlock ▸ hentry) hblock'
    have hbeside : Beside f final ⟨entry, f.bodyOf block, ⟨registers, fun _ => none, world⟩⟩
        ⟨entry, g.bodyOf block', ⟨registers, fun _ => none, world⟩⟩ := by
      refine ⟨rfl, hb.body, rfl, rfl, (by rintro v x ⟨⟩), fun v x hx => ?_⟩
      rcases tracked_cases hx with ⟨-, hx⟩ | ⟨p, code, y, -, hy, -⟩
      · cases hx
      · cases hy
    exact ⟨_, hrun', .cons (hbeside.mirrors hafter hshallow
      (hfits _ (List.mem_singleton_self _)) (within_body hblock) (within_body hblock')) .nil⟩
  | @step s t past hrun hstep ih =>
    obtain ⟨run', hrun', hall⟩ := ih fun s hs => hfits s (List.mem_cons_of_mem _ hs)
    cases hall with
    | @cons _ s' _ past' hhead htail =>
      have hmem : s ∈ t :: s :: past := List.mem_cons_of_mem _ (List.mem_cons_self ..)
      have hin := hrun.within s (List.mem_cons_self ..)
      have hin' := hrun'.within s' (List.mem_cons_self ..)
      obtain ⟨t', hstep', hbeside⟩ :=
        hhead.toBeside.step hafter hshallow (hfits s hmem) hin hin' hstep
      have hmirrors := hbeside.mirrors hafter hshallow (hfits t (List.mem_cons_self ..))
        (hstep.within hin) (hstep'.within hin')
      exact ⟨_, .step hrun' hstep', .cons hmirrors (.cons hhead htail)⟩

end Runs

/-! ## A condition the tables get wrong -/

def mergedArgument : Expr := .leaf .entryReg (Ty.integer 64) 0#64

/-- The flags of the logical operation on `x0`. -/
def mergedFlags : Expr := .unary .flagDef Ty.flags 0x4004#64 mergedArgument

def mergedValue : Expr := .leaf .value Ty.flags 0#64

def mergedTest (code : ConditionCode) : Expr := Expr.flagCondition mergedValue code

theorem merged_viewOk : ViewOk RegisterFile.empty.registers
  RegisterFile.empty.registers.length ⟨"x0", 64, .general, none, 0, false⟩ := by
  intro p hp
  cases hp

def mergedFile : RegisterFile :=
  RegisterFile.empty.push ⟨"x0", 64, .general, none, 0, false⟩ merged_viewOk

def mergedOps (code : ConditionCode) : List PoolOp :=
  [{ code := .branch, type := Ty.voidType, va := 0x1000#64, result := none, payload := 0
     operands := [], targets := [1], origin := 0 },
   { code := .phi, type := Ty.flags, va := 0x1004#64, result := some 0, payload := 0
     operands := [mergedFlags], targets := [], origin := 0 },
   { code := .ret, type := Ty.voidType, va := 0x1004#64, result := none, payload := 0
     operands := [mergedTest code], targets := [], origin := 0 }]

/-- A function that returns a condition of merged flags. -/
def mergedFunction (code : ConditionCode) : IlFunction where
  file := mergedFile
  nameOf _ := ""
  passCount := 1
  entryBlock := some 0
  blocks :=
    [⟨0x1000#64, 0x1004#64, [0], [1], [], false⟩, ⟨0x1004#64, 0x1008#64, [1, 2], [], [0], false⟩]
  ops := mergedOps code
  values := [⟨Ty.flags, some 1, some 1⟩]
  exprs := [mergedArgument, mergedFlags, mergedValue, mergedTest code]
  values_le := by
    show 1 ≤ 2 ^ 32
    decide
  operands_mem := by simp [mergedOps]
  closed := by simp [mergedArgument, mergedFlags, mergedValue, mergedTest, Expr.flagCondition,
    Expr.operands]

/-- The boolean phi's operand: whether `x0` is zero. -/
def mergedZero : Expr := Expr.mkBinary .cmpEq mergedArgument (Expr.constant (Ty.integer 64) 0#64)

/-- The function after the pass, for the conditions `eq` and `ls`. -/
def mergedDistributed : IlFunction where
  file := mergedFile
  nameOf _ := ""
  passCount := 1
  entryBlock := some 0
  blocks :=
    [⟨0x1000#64, 0x1004#64, [0], [1], [], false⟩,
     ⟨0x1004#64, 0x1008#64, [1, 3, 2], [], [0], false⟩]
  ops :=
    [{ code := .branch, type := Ty.voidType, va := 0x1000#64, result := none, payload := 0
       operands := [], targets := [1], origin := 0 },
     { code := .phi, type := Ty.flags, va := 0x1004#64, result := some 0, payload := 0
       operands := [mergedFlags], targets := [], origin := 0 },
     { code := .ret, type := Ty.voidType, va := 0x1004#64, result := none, payload := 0
       operands := [Expr.valueRef Ty.boolean 1], targets := [], origin := 0 },
     booleanPhi 0x1004#64 0 1 [mergedZero]]
  values := [⟨Ty.flags, some 1, some 1⟩, ⟨Ty.boolean, some 3, some 1⟩]
  exprs :=
    [mergedArgument, mergedFlags, Expr.valueRef Ty.boolean 1, mergedZero,
      Expr.constant (Ty.integer 64) 0#64]
  values_le := by
    show 2 ≤ 2 ^ 32
    decide
  operands_mem := by decide
  closed := by decide

def mergedStart (f : IlFunction) : SsaState Unit :=
  ⟨0, f.bodyOf (f.blocks.getD 0 default), ⟨fun _ => word 1#64, fun _ => none, ()⟩⟩

/-- The state at the return. -/
def mergedEnd (f : IlFunction) : SsaState Unit :=
  ⟨1, f.bodyOf (f.blocks.getD 1 default),
    { (mergedStart f).machine with
      values := enterPhis ((mergedStart f).env f HostFloat.idle)
        (f.phisOf (f.blocks.getD 1 default)) 0 }⟩

def mergedRun (f : IlFunction) : List (SsaState Unit) := [mergedEnd f, mergedStart f]

/-- Memory that takes every store. -/
def idleMerge : Backend Unit :=
  ⟨fun _ _ _ => .ok U128.zero, fun w _ _ _ => (.ok (), w), fun w _ _ _ => (none, w)⟩

section Merged

variable {code : ConditionCode}

theorem merged_run : SsaRun (mergedFunction code) HostFloat.idle idleMerge
  (mergedRun (mergedFunction code)) := by
  have hstart : SsaRun (mergedFunction code) HostFloat.idle idleMerge
      [mergedStart (mergedFunction code)] := .start _ () rfl rfl
  exact hstart.step (.edge rfl (.branch rfl rfl) rfl rfl)

theorem merged_distributed_run :
  SsaRun mergedDistributed HostFloat.idle idleMerge (mergedRun mergedDistributed) := by
  have hstart : SsaRun mergedDistributed HostFloat.idle idleMerge
      [mergedStart mergedDistributed] := .start _ () rfl rfl
  exact hstart.step (.edge rfl (.branch rfl rfl) rfl rfl)

theorem merged_distributedTo (h : code = .equal ∨ code = .unsignedLessEqual) :
  DistributedTo (mergedFunction code) mergedDistributed 0 := by
  rcases h with rfl | rfl
  · exact ⟨rfl, rfl, rfl, rfl⟩
  · exact ⟨rfl, rfl, rfl, rfl⟩

theorem merged_shallow : Shallow mergedDistributed := by
  unfold Shallow
  decide

end Merged

/-- The tables are right for `eq`. -/
theorem merged_sane : ∀ op ∈ (mergedFunction .equal).ops, ∀ x ∈ op.operands,
  (mergedFunction .equal).Sane x := by
  have hfaithful : FlagConditionRewrite.Faithful .equal mergedFlags :=
    fun _ => .inr (.inr ⟨by decide, by decide, by decide⟩)
  have htyped : ∀ op ∈ (mergedFunction .equal).ops, ∀ x ∈ op.operands,
      x.wellTyped (mergedFunction .equal).wide = true := by decide
  have hphi : (mergedFunction .equal).phiOf 0 =
      some { code := .phi, type := Ty.flags, va := 0x1004#64, result := some 0, payload := 0
             operands := [mergedFlags], targets := [], origin := 0 } := rfl
  have hfeeds : (mergedFunction .equal).Testable .equal mergedValue := by
    intro d hd
    cases hd with
    | self hop => cases hop
    | phi _ hfound hx h =>
      obtain rfl := Option.some.inj (hphi.symm.trans hfound)
      obtain rfl := List.mem_singleton.mp hx
      cases h with
      | self _ => exact hfaithful
      | phi hop _ _ _ => cases hop
  have hdefinition : ∀ s, Expr.SubExpr s mergedFlags → s.op ≠ .flagCond := by
    intro s hs
    cases hs with
    | refl => rintro ⟨⟩
    | step hx h =>
      obtain rfl := List.mem_singleton.mp hx
      cases h with
      | refl => rintro ⟨⟩
      | step hx _ => cases hx
  have htest : ∀ s, Expr.SubExpr s (mergedTest .equal) → (mergedFunction .equal).TestsOk s := by
    intro s hs hop y hy _
    cases hs with
    | refl =>
      obtain rfl := List.mem_singleton.mp hy
      exact hfeeds
    | step hx h =>
      obtain rfl := List.mem_singleton.mp hx
      cases h with
      | refl => cases hop
      | step hx _ => cases hx
  intro op hop x hx
  refine ⟨htyped op hop x hx, fun s hs => ?_⟩
  have hops : x = mergedFlags ∨ x = mergedTest .equal := by
    simp only [mergedFunction, mergedOps, List.mem_cons, List.not_mem_nil, or_false] at hop
    rcases hop with rfl | rfl | rfl
    · cases hx
    · exact .inl (List.mem_singleton.mp hx)
    · exact .inr (List.mem_singleton.mp hx)
  rcases hops with rfl | rfl
  · exact fun hcond => absurd hcond (hdefinition s hs)
  · exact htest s hs

theorem merged_fits : ∀ s ∈ mergedRun (mergedFunction .equal),
  (s.env (mergedFunction .equal) HostFloat.idle).Fits (mergedFunction .equal).ctx.integers := by
  have hregisters : ∀ s ∈ mergedRun (mergedFunction .equal),
      s.machine.registers = fun _ => word 1#64 := by
    intro s hs
    rcases List.mem_cons.mp hs with rfl | hs
    · rfl
    · obtain rfl := List.mem_singleton.mp hs
      rfl
  have hvalues : ∀ i, (mergedFunction .equal).ctx.integers.valueType i = none := by
    intro i
    match i with
    | 0 => rfl
    | _ + 1 => rfl
  intro s hs
  refine ⟨fun {i t v} ht _ => ?_, fun {r t} ht => ?_⟩
  · rw [hvalues i] at ht
    cases ht
  · show (Interpreter.readRegister mergedFile s.machine.registers r).toNat < _
    rw [hregisters s hs]
    match r with
    | 0 =>
      obtain rfl : Ty.integer 64 = t := Option.some.inj ht
      decide
    | _ + 1 => cases ht

end Xdec

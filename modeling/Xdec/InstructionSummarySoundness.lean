import Xdec.InstructionSummaryNodes

/-!
# Complete summaries are exact

Operation by operation the summary keeps up with the machine: its values are those
of the nodes, its effects are the writes and stores so far, and the registers not
written yet are those the leaves stand for.
-/

namespace Xdec

/-! ## Visiting the operations -/

section Visits

open Summarizer

variable {W : Type} {c : BlockContext} {b : Backend W} {m m₁ : Machine W} {op : Op} {ops : List Op}
  {o : Option ExecOutcome} {leaves : Leaves} {ctx : Ctx} {available : List Nat} {s : Summarizer}
  {s' : Summarizer} {vs vs' : List (Nat × U128)} {performed : List Performed} {file : RegisterFile}

/-- A summary and a machine in the middle of an instruction. -/
structure Progress (c : BlockContext) (ctx : Ctx) (available : List Nat) (leaves : Leaves)
    (s : Summarizer) (vs : List (Nat × U128)) (m : Machine W) (performed : List Performed) :
    Prop where
  summarized : Summarized leaves ctx available s vs
  consistent : Consistent leaves s vs (m.env c)
  effects : s.effects.mapM (fun effect => effect.perform vs) = some performed
  registers : ∀ reg, c.file.rootOf reg ∉ s.written →
    Interpreter.readRegister c.file m.registers reg = leaves.register reg
  numbered : s.loads ≤ s.nodes.length

theorem perform_longer {effect : SemanticEffect} {p : Performed} (h : vs <+: vs')
  (hp : effect.perform vs = some p) : effect.perform vs' = some p := by
  cases effect with
  | writeReg reg k =>
    obtain ⟨x, hx, hp⟩ := Option.map_eq_some_iff.mp hp
    exact Option.map_eq_some_iff.mpr ⟨x, getElem?_longer h hx, hp⟩
  | store a width k =>
    simp only [SemanticEffect.perform, Option.bind_eq_bind, Option.bind_eq_some_iff] at hp ⊢
    obtain ⟨x, hx, y, hy, hp⟩ := hp
    exact ⟨x, getElem?_longer h hx, y, getElem?_longer h hy, hp⟩

theorem performs_longer {effects : List SemanticEffect} (h : vs <+: vs')
  (hp : effects.mapM (fun effect => effect.perform vs) = some performed) :
  effects.mapM (fun effect => effect.perform vs') = some performed := by
  induction effects generalizing performed with
  | nil => exact hp
  | cons effect effects ih =>
    simp only [List.mapM_cons, Option.bind_eq_bind, Option.bind_eq_some_iff] at hp ⊢
    obtain ⟨p, hfirst, ps, hrest, hp⟩ := hp
    exact ⟨p, perform_longer h hfirst, ps, ih hrest, hp⟩

theorem performs_snoc {effects : List SemanticEffect} {effect : SemanticEffect} {p : Performed}
  (h : effects.mapM (fun effect => effect.perform vs) = some performed)
  (hp : effect.perform vs = some p) :
  (effects ++ [effect]).mapM (fun effect => effect.perform vs) = some (performed ++ [p]) := by
  rw [List.mapM_append, h, List.mapM_cons, hp]
  rfl

theorem Progress.mono {available' : List Nat} (h : Progress c ctx available leaves s vs m performed)
  (hsub : available ⊆ available') : Progress c ctx available' leaves s vs m performed where
  summarized :=
    { eval := h.summarized.eval
      length := h.summarized.length
      byValue := fun v k hk => (h.summarized.byValue v k hk).imp_left fun hv => hsub hv
      byExpr := h.summarized.byExpr }
  consistent := h.consistent
  effects := h.effects
  registers := h.registers
  numbered := h.numbered

/-! ### Leaves -/

theorem packLeaf_toNat (kind : LeafKind) (index : Nat) :
  (packLeaf kind index).toNat = kind.index * 2 ^ 32 + index % 2 ^ 32 := by
  have hindex := Nat.mod_lt index (Nat.two_pow_pos 32)
  rw [packLeaf, BitVec.toNat_ofNat]
  refine Nat.mod_eq_of_lt ?_
  cases kind <;> simp only [LeafKind.index] <;> omega

theorem leafKind_packLeaf (kind : LeafKind) (index : Nat) :
  leafKind (packLeaf kind index) = kind := by
  have hindex := Nat.mod_lt index (Nat.two_pow_pos 32)
  rw [leafKind, packLeaf_toNat]
  cases kind with
  | register => exact if_pos (by simp only [LeafKind.index]; omega)
  | load => exact if_neg (by simp only [LeafKind.index]; omega)

theorem leafIndex_packLeaf (kind : LeafKind) {index : Nat} (h : index < 2 ^ 32) :
  leafIndex (packLeaf kind index) = index := by
  rw [leafIndex, packLeaf_toNat, Nat.mul_add_mod_self_right, Nat.mod_mod, Nat.mod_eq_of_lt h]

theorem value_register (leaves : Leaves) (width : Nat) {reg : RegId} (h : reg < 2 ^ 32)
  (vs : List (Nat × U128)) :
  SemanticNode.value leaves ⟨.value, width, [], packLeaf .register reg⟩ vs =
    some (leaves.register reg) := by
  simp only [SemanticNode.value, if_true, leafKind_packLeaf, leafIndex_packLeaf .register h]

theorem value_load (leaves : Leaves) (width : Nat) {index : Nat} (h : index < 2 ^ 32)
  (vs : List (Nat × U128)) :
  SemanticNode.value leaves ⟨.value, width, [], packLeaf .load index⟩ vs =
    leaves.loads[index]? := by
  simp only [SemanticNode.value, if_true, leafKind_packLeaf, leafIndex_packLeaf .load h]

variable {result : Option Nat} {k : Nat} {x u : U128} {f : IlFunction} {level : Maturity}

theorem clean_bind (h : Clean (s.bind result k)) : Clean s := by
  cases result with
  | none => exact h
  | some v => exact ⟨h.complete, h.fits⟩

theorem not_clean_cleared {op : ExprOp} {width : Nat} {operands : List Nat} {immediate : U64} :
  ¬ Clean ({ s with complete := false }.addNode op width operands immediate).2 := by
  intro h
  have hcomplete := (clean_addNode h).1.complete
  cases hcomplete

theorem Summarized.bind {t : Ty}
  (h : Summarized leaves ctx available s vs)
  (hresult : ∀ v, result = some v → v ∉ available ∧ ctx.valueType v = some t)
  (hk : vs[k]? = some (t.bits % 2 ^ 16, x)) :
  Summarized leaves ctx (result.toList ++ available) (s.bind result k) vs := by
  cases result with
  | none => exact h
  | some v =>
    obtain ⟨hnew, ht⟩ := hresult v rfl
    refine ⟨h.eval, h.length, fun w i hi => ?_, fun e i hi => ?_⟩
    · by_cases hw : w = v
      · subst hw
        have hi : some k = some i := by simpa [Summarizer.bind] using hi
        obtain rfl := Option.some.inj hi
        exact ⟨by simp, t, x, ht, hk⟩
      · have hi : s.byValue w = some i := by
          simpa [Summarizer.bind, Function.update_of_ne hw] using hi
        exact (h.byValue w i hi).imp_left fun hmem => List.mem_append_right _ hmem
    · obtain ⟨y, hy, hall⟩ := h.byExpr e i hi
      refine ⟨y, hy, fun env henv => hall env ⟨henv.host, fun w j hj => henv.values w j ?_⟩⟩
      -- The value bound now was not there before.
      have hw : w ≠ v := fun heq => hnew (heq ▸ (h.byValue w j hj).1)
      simpa [Summarizer.bind, Function.update_of_ne hw] using hj

theorem Consistent.define {width : Nat}
  (henv : Consistent leaves s vs (m.env c)) (hk : vs[k]? = some (width, x)) :
  Consistent leaves (s.bind result k) vs ((m.define result x).env c) := by
  cases result with
  | none => exact henv
  | some v =>
    refine ⟨henv.host, fun w i hi => ?_⟩
    by_cases hw : w = v
    · subst hw
      have hi : some k = some i := by simpa [Summarizer.bind] using hi
      obtain rfl := Option.some.inj hi
      simp [Machine.env, Machine.define, hk]
    · have hi : s.byValue w = some i := by
        simpa [Summarizer.bind, Function.update_of_ne hw] using hi
      rw [← henv.values w i hi]
      simp [Machine.env, Machine.define, Function.update_of_ne hw]

theorem Summarized.same (h : Summarized leaves ctx available s vs) (hnodes : s'.nodes = s.nodes)
  (hvalue : s'.byValue = s.byValue) (hexpr : s'.byExpr = s.byExpr) :
  Summarized leaves ctx available s' vs where
  eval := by rw [hnodes, h.eval]
  length := by rw [hnodes, h.length]
  byValue v k hk := h.byValue v k (hvalue ▸ hk)
  byExpr e k hk := by
    obtain ⟨x, hx, hall⟩ := h.byExpr e k (hexpr ▸ hk)
    exact ⟨x, hx, fun env henv => hall env ⟨henv.host, fun v i hi => henv.values v i (hvalue ▸ hi)⟩⟩

/-- A leaf for the result of an operation; it may be one more load. -/
theorem Progress.leaf {loads : Nat} {immediate : U64} {x : U128}
  (h : Progress c ctx available leaves s vs m performed) (hloads : loads ≤ s.nodes.length + 1)
  (hresult : ∀ v, op.result = some v → v < 2 ^ 32 ∧ v ∉ available ∧
    ctx.valueType v = some op.type)
  (hclean : Clean ({ s with loads := loads }.addNode .value op.type.bits [] immediate).2)
  (hx : SemanticNode.value leaves ⟨.value, op.type.bits % 2 ^ 16, [], immediate⟩ vs = some x) :
  ∃ vs', Progress c ctx (op.result.toList ++ available) leaves
    (({ s with loads := loads }.addNode .value op.type.bits [] immediate).2.bind op.result
      ({ s with loads := loads }.addNode .value op.type.bits [] immediate).1) vs'
    (m.define op.result x) performed ∧
    (({ s with loads := loads }.addNode .value op.type.bits [] immediate).2.bind op.result
      ({ s with loads := loads }.addNode .value op.type.bits [] immediate).1).loads = loads := by
  obtain ⟨-, -, hnode⟩ := clean_addNode hclean
  have hcounted : Summarized leaves ctx available { s with loads := loads } vs :=
    h.summarized.same rfl rfl rfl
  have hs := hcounted.append hx
  have hlast := hcounted.getElem?_last (op.type.bits % 2 ^ 16, x)
  have hlonger : vs <+: vs ++ [(op.type.bits % 2 ^ 16, x)] := List.prefix_append ..
  have henv : Consistent leaves
      { s with
        loads := loads
        nodes := s.nodes ++ [⟨.value, op.type.bits % 2 ^ 16, [], immediate⟩] }
      (vs ++ [(op.type.bits % 2 ^ 16, x)]) (m.env c) :=
    h.summarized.consistent_to hlonger rfl h.consistent
  rw [hnode]
  refine ⟨vs ++ [(op.type.bits % 2 ^ 16, x)], ⟨?_, ?_, ?_, ?_, ?_⟩, by cases op.result <;> rfl⟩
  · exact hs.bind (fun v hv => (hresult v hv).2) hlast
  · exact henv.define hlast
  · have heffects := performs_longer hlonger h.effects
    cases op.result <;> exact heffects
  · rw [Machine.registers_define]
    have hregisters := h.registers
    cases op.result <;> exact hregisters
  · have hnumbered : loads ≤ (s.nodes ++
        [(⟨.value, op.type.bits % 2 ^ 16, [], immediate⟩ : SemanticNode)]).length := by simpa
    cases op.result <;> exact hnumbered

/-! ### One operation -/

theorem readReg_spec (hop : OpVerified c.file ctx available op) (hreg : op.reg < 2 ^ 32)
  (h : Progress c ctx available leaves s vs m performed)
  (hclean : Clean (s.visitReadReg c.file op)) :
  ∃ vs', Progress c ctx (op.result.toList ++ available) leaves (s.visitReadReg c.file op) vs'
    (m.define op.result (Interpreter.readRegister c.file m.registers op.reg)) performed ∧
    (s.visitReadReg c.file op).loads = s.loads := by
  unfold visitReadReg at hclean ⊢
  by_cases hwritten : s.isWritten c.file op.reg = true
  · rw [if_pos hwritten] at hclean
    exact absurd (clean_bind hclean) not_clean_cleared
  · rw [if_neg hwritten] at hclean ⊢
    have hunwritten : c.file.rootOf op.reg ∉ s.written := by
      simpa [isWritten] using hwritten
    refine h.leaf (Nat.le_succ_of_le h.numbered) hop.result (clean_bind hclean) ?_
    rw [value_register leaves _ hreg, h.registers op.reg hunwritten]

theorem load_spec {w : W} (hop : OpVerified c.file ctx available op)
  (h : Progress c ctx available leaves s vs m performed) (hclean : Clean (s.visitLoad op))
  (hx : leaves.loads[s.loads]? = some x) :
  ∃ vs', Progress c ctx (op.result.toList ++ available) leaves (s.visitLoad op) vs'
    (({ m with world := w }).define op.result x) performed ∧
    (s.visitLoad op).loads = s.loads + 1 := by
  unfold visitLoad at hclean ⊢
  have hadd := clean_bind hclean
  obtain ⟨-, hfits, hnode⟩ := clean_addNode hadd
  have hindex : s.loads < 2 ^ 32 := by
    have := h.numbered
    have : s.nodes.length < 1024 := hfits
    omega
  have hworld : Progress c ctx available leaves s vs { m with world := w } performed :=
    ⟨h.summarized, h.consistent, h.effects, h.registers, h.numbered⟩
  refine hworld.leaf (Nat.succ_le_succ h.numbered) hop.result hadd ?_
  rw [value_load leaves _ hindex, hx]

theorem Progress.converted {e : Expr}
  (h : Progress c ctx available leaves s vs m performed) (hverified : e.verified ctx = true)
  (hu : m.eval c e = .ok u) (hclean : Clean (convert e s).2) :
  ∃ vs', Progress c ctx available leaves (convert e s).2 vs' m performed ∧
    vs'[(convert e s).1]? = some (e.bits, u) ∧ (convert e s).2.loads = s.loads ∧
    den (m.env c) e = some u ∧ vs <+: vs' := by
  have hden := ((Machine.eval_ok_iff_den (Expr.shaped_of_verified hverified)).mp hu).1
  obtain ⟨vs', hlonger, hs, hcarried, hnode, -⟩ :=
    convert_spec hverified hden h.summarized h.consistent hclean
  refine ⟨vs', ⟨hs, ?_, ?_, ?_, ?_⟩, hnode, hcarried.loads, hden, hlonger⟩
  · exact h.summarized.consistent_to hlonger hcarried.byValue h.consistent
  · rw [hcarried.effects]
    exact performs_longer hlonger h.effects
  · rw [hcarried.written]
    exact h.registers
  · rw [hcarried.loads, ← hs.length]
    have := h.numbered
    have := h.summarized.length
    have := hlonger.length_le
    omega

theorem writeReg_spec {value : Expr} (hoperands : op.operands = [value])
  (hverified : value.verified ctx = true) (hu : m.eval c value = .ok u)
  (h : Progress c ctx available leaves s vs m performed)
  (hclean : Clean (s.visitWriteReg c.file op)) :
  ∃ vs', Progress c ctx available leaves (s.visitWriteReg c.file op) vs'
    { m with registers := Interpreter.writeRegister c.file m.registers op.reg u }
    (performed ++ [.writeReg op.reg u]) ∧ (s.visitWriteReg c.file op).loads = s.loads := by
  unfold visitWriteReg at hclean ⊢
  simp only [hoperands] at hclean ⊢
  obtain ⟨hnodes, heffects, hvalue, hexpr, hfull, hcomplete, hloads⟩ := markWritten_nodes c.file
    { (convert value s).2 with
      effects := (convert value s).2.effects ++ [.writeReg op.reg (convert value s).1] } op.reg
  have hconvert : Clean (convert value s).2 :=
    ⟨hcomplete.symm.trans hclean.complete, hfull.symm.trans hclean.fits⟩
  obtain ⟨vs', h', hnode, hcount, -⟩ := h.converted hverified hu hconvert
  refine ⟨vs', ⟨h'.summarized.same hnodes hvalue hexpr, ?_, ?_, ?_, ?_⟩, hloads.trans hcount⟩
  · exact h'.summarized.consistent_to List.prefix_rfl hvalue
      ⟨h'.consistent.host, h'.consistent.values⟩
  · rw [heffects]
    refine performs_snoc h'.effects ?_
    rw [SemanticEffect.perform, hnode]
    rfl
  · intro reg hreg
    have hboth : c.file.rootOf reg ∉ (convert value s).2.written ∧
        c.file.rootOf reg ≠ c.file.rootOf op.reg := by
      unfold markWritten at hreg
      split at hreg
      · rename_i hmem
        exact ⟨hreg, fun heq => hreg (heq ▸ hmem)⟩
      · simpa using hreg
    exact (RegisterFile.other_root c.file m.registers op.reg u hboth.2).trans
      (h'.registers reg hboth.1)
  · rw [hloads, hnodes]
    exact h'.numbered

theorem store_spec {address value : Expr} {a : U128} {w : W}
  (hoperands : op.operands = [address, value]) (haddress : address.verified ctx = true)
  (hverified : value.verified ctx = true) (htype : value.type = op.type)
  (ha : m.eval c address = .ok a) (hu : m.eval c value = .ok u)
  (h : Progress c ctx available leaves s vs m performed) (hclean : Clean (s.visitStore op)) :
  ∃ vs', Progress c ctx available leaves (s.visitStore op) vs' { m with world := w }
    (performed ++ [.store a.lo op.type.bits u]) ∧ (s.visitStore op).loads = s.loads := by
  unfold visitStore at hclean ⊢
  simp only [hoperands] at hclean ⊢
  have hvalue : Clean (convert value (convert address s).2).2 := ⟨hclean.complete, hclean.fits⟩
  obtain ⟨vs₁, h₁, hnode₁, hcount₁, -, -⟩ := h.converted haddress ha (clean_convert hvalue)
  obtain ⟨vs₂, h₂, hnode₂, hcount₂, hden, hlonger⟩ := h₁.converted hverified hu hvalue
  have hwidth : op.type.bits % 2 ^ 16 = op.type.bits := by
    rw [← htype]
    exact width_of_den (Expr.verified_iff.mp hverified).1 hden
  refine ⟨vs₂, ⟨h₂.summarized.same rfl rfl rfl, ?_, ?_, h₂.registers, h₂.numbered⟩,
    hcount₂.trans hcount₁⟩
  · exact h₂.summarized.consistent_to List.prefix_rfl rfl ⟨h₂.consistent.host, h₂.consistent.values⟩
  · refine performs_snoc h₂.effects ?_
    rw [SemanticEffect.perform, getElem?_longer hlonger hnode₁, hnode₂, hwidth]
    rfl

/-- Only an operation that can be represented leaves the summary complete. -/
theorem clean_visit (h : Clean (s.visit file op)) : Clean s ∧
  (op.code = .readReg ∨ op.code = .load ∨ op.code = .writeReg ∨ op.code = .store ∨
    op.code = .branch ∨ op.code = .condBranch ∨ op.code = .indirectBranch ∨ op.code = .ret ∨
    op.code = .nop) := by
  unfold visit at h
  split at h
  · rename_i hcode
    refine ⟨?_, .inl hcode⟩
    unfold visitReadReg at h
    by_cases hwritten : s.isWritten file op.reg = true
    · rw [if_pos hwritten] at h
      exact absurd (clean_bind h) not_clean_cleared
    · rw [if_neg hwritten] at h
      exact (clean_addNode (clean_bind h)).1
  · rename_i hcode
    have hcounted := (clean_addNode (clean_bind h)).1
    exact ⟨⟨hcounted.complete, hcounted.fits⟩, by simp [hcode]⟩
  · rename_i hcode
    refine ⟨?_, by simp [hcode]⟩
    unfold visitWriteReg at h
    split at h
    · rename_i value _
      obtain ⟨-, -, -, -, hfull, hcomplete, -⟩ := markWritten_nodes file
        { (convert value s).2 with
          effects := (convert value s).2.effects ++ [.writeReg op.reg (convert value s).1] } op.reg
      exact clean_convert (e := value) ⟨hcomplete.symm.trans h.complete, hfull.symm.trans h.fits⟩
    · have hcomplete := h.complete
      cases hcomplete
  · rename_i hcode
    refine ⟨?_, by simp [hcode]⟩
    unfold visitStore at h
    split at h
    · rename_i address value _
      have hvalue : Clean (convert value (convert address s).2).2 := ⟨h.complete, h.fits⟩
      exact clean_convert (clean_convert hvalue)
    · have hcomplete := h.complete
      cases hcomplete
  · rename_i hcode
    exact ⟨h, by simp [hcode]⟩
  · rename_i hcode
    exact ⟨h, by simp [hcode]⟩
  · rename_i hcode
    exact ⟨h, by simp [hcode]⟩
  · rename_i hcode
    exact ⟨h, by simp [hcode]⟩
  · rename_i hcode
    exact ⟨h, by simp [hcode]⟩
  · simp only at h
    split at h
    · exact absurd (clean_bind h) not_clean_cleared
    · have hcomplete := h.complete
      cases hcomplete

theorem store_inversion (hcode : op.code = .store) (hrun : Machine.runOp c b.hooks m op = (m₁, o))
  (hok : ∀ x, o = some x → x.stop ≠ .error) :
  ∃ a u, m.eval c (op.operand 0) = .ok a ∧ m.eval c (op.operand 1) = .ok u ∧
    m₁ = { m with world := (b.write m.world a.lo (op.type.bits / 8) u).2 } := by
  have hfail : ∀ {message va}, some (ExecOutcome.fail message va) = o → False := by
    intro message va heq
    exact hok _ heq.symm rfl
  simp only [Machine.runOp, hcode] at hrun
  cases ha : m.eval c (op.operand 0) with
  | error message =>
    simp only [ha, Prod.mk.injEq] at hrun
    exact (hfail hrun.2).elim
  | ok a =>
    cases hu : m.eval c (op.operand 1) with
    | error message =>
      simp only [ha, hu, Prod.mk.injEq] at hrun
      exact (hfail hrun.2).elim
    | ok u =>
      simp only [ha, hu] at hrun
      split at hrun
      · exact (hfail (Prod.mk.inj hrun).2).elim
      · rename_i w hwrite
        have hw : b.write m.world a.lo (op.type.bits / 8) u = (.ok (), w) := hwrite
        refine ⟨a, u, rfl, rfl, ?_⟩
        rw [hw]
        exact (Prod.mk.inj hrun).1.symm

/-- What the operations that only steer leave. -/
theorem still_inversion (h : Machine.Succeeds c b m op m₁ o)
  (hcode : op.code = .branch ∨ op.code = .condBranch ∨ op.code = .indirectBranch ∨
    op.code = .ret ∨ op.code = .nop) : m₁ = m := by
  obtain ⟨⟨eff, w, heff, rfl, -⟩, -⟩ := h
  cases heff with
  | none => rfl
  | snapshot hother => simp [hother] at hcode
  | write hother => simp [hother] at hcode
  | load hother => simp [hother] at hcode
  | intrinsic hother => simp [hother] at hcode
  | stopped hother => rcases hother with hother | hother <;> simp [hother] at hcode

/-- What the verifier says of a store. -/
def StoreVerified (op : Op) : Prop :=
  op.code = .store → op.operands.length = 2 ∧ (op.operand 1).type = op.type

/-- **One operation.**  The summary keeps up with the machine. -/
theorem visit_spec {loads : List U128} (hop : OpVerified c.file ctx available op)
  (hstore : StoreVerified op) (hreg : op.reg < 2 ^ 32)
  (h : Progress c ctx available leaves s vs m performed) (hclean : Clean (s.visit c.file op))
  (hrun : Machine.runOp c b.hooks m op = (m₁, o)) (hok : ∀ x, o = some x → x.stop ≠ .error)
  (hloads : leaves.loads.drop s.loads = loadedBy c b m op ++ loads) :
  ∃ vs', Progress c ctx (op.result.toList ++ available) leaves (s.visit c.file op) vs' m₁
      (performed ++ performedBy c m op) ∧
    leaves.loads.drop (s.visit c.file op).loads = loads ∧
    (performedBy c m op).foldl (Performed.apply b c.file) (m.registers, m.world) =
      (m₁.registers, m₁.world) := by
  have hsucceeds := Machine.runOp_succeeds hrun hok
  have hsub : available ⊆ op.result.toList ++ available := List.subset_append_right _ _
  have hcode := (clean_visit hclean).2
  have hstill : op.code = .branch ∨ op.code = .condBranch ∨ op.code = .indirectBranch ∨
      op.code = .ret ∨ op.code = .nop →
      ∃ vs', Progress c ctx (op.result.toList ++ available) leaves (s.visit c.file op) vs' m₁
          (performed ++ performedBy c m op) ∧
        leaves.loads.drop (s.visit c.file op).loads = loads ∧
        (performedBy c m op).foldl (Performed.apply b c.file) (m.registers, m.world) =
          (m₁.registers, m₁.world) := by
    intro hcode
    obtain rfl := still_inversion hsucceeds hcode
    have hvisit : s.visit c.file op = s := by
      rcases hcode with hcode | hcode | hcode | hcode | hcode <;> simp only [visit, hcode]
    have hperformed : performedBy c m₁ op = [] := by
      rcases hcode with hcode | hcode | hcode | hcode | hcode <;> simp only [performedBy, hcode]
    have hloaded : loadedBy c b m₁ op = [] := by
      rcases hcode with hcode | hcode | hcode | hcode | hcode <;> simp only [loadedBy, hcode]
    rw [hvisit, hperformed, List.append_nil]
    rw [hloaded] at hloads
    exact ⟨vs, h.mono hsub, hloads, rfl⟩
  rcases hcode with hcode | hcode | hcode | hcode | hcode
  · have hvisit : s.visit c.file op = s.visitReadReg c.file op := by simp only [visit, hcode]
    have hperformed : performedBy c m op = [] := by simp only [performedBy, hcode]
    have hloaded : loadedBy c b m op = [] := by simp only [loadedBy, hcode]
    obtain ⟨⟨eff, w, heff, rfl, -⟩, -⟩ := hsucceeds
    obtain ⟨rfl, rfl⟩ := heff.of_readReg hcode
    rw [hvisit] at hclean ⊢
    rw [hloaded] at hloads
    obtain ⟨vs', h', hcount⟩ := readReg_spec hop hreg h hclean
    rw [hperformed, List.append_nil, hcount]
    refine ⟨vs', h', hloads, ?_⟩
    simp [Machine.perform]
  · have hvisit : s.visit c.file op = s.visitLoad op := by simp only [visit, hcode]
    have hperformed : performedBy c m op = [] := by simp only [performedBy, hcode]
    obtain ⟨⟨eff, w, heff, rfl, -⟩, -⟩ := hsucceeds
    obtain ⟨rfl, a, x, rfl, ha, hx⟩ := heff.of_load hcode
    have hloaded : loadedBy c b m op = [x] := by simp only [loadedBy, hcode, ha, hx]; rfl
    rw [hvisit] at hclean ⊢
    rw [hloaded] at hloads
    have hhead : leaves.loads[s.loads]? = some x := by
      rw [← List.head?_drop, hloads]
      rfl
    obtain ⟨vs', h', hcount⟩ := load_spec (w := m.world) hop h hclean hhead
    rw [hperformed, List.append_nil, hcount]
    refine ⟨vs', h', ?_, by simp [Machine.perform]⟩
    rw [← List.drop_drop, hloads]
    rfl
  · have hvisit : s.visit c.file op = s.visitWriteReg c.file op := by simp only [visit, hcode]
    have hloaded : loadedBy c b m op = [] := by simp only [loadedBy, hcode]
    obtain ⟨⟨eff, w, heff, rfl, -⟩, -⟩ := hsucceeds
    obtain ⟨rfl, u, rfl, hu⟩ := heff.of_writeReg hcode
    have hperformed : performedBy c m op = [.writeReg op.reg u] := by
      simp only [performedBy, hcode, hu]
    obtain ⟨-, value, hoperands, -⟩ := hop.writeReg hcode
    have hverified : value.verified ctx = true := hop.operands value (by simp [hoperands])
    have hu : m.eval c value = .ok u := by simpa [Op.operand, hoperands] using hu
    rw [hvisit] at hclean ⊢
    rw [hloaded] at hloads
    obtain ⟨vs', h', hcount⟩ := writeReg_spec hoperands hverified hu h hclean
    rw [hperformed, hcount]
    exact ⟨vs', h'.mono hsub, hloads, rfl⟩
  · have hvisit : s.visit c.file op = s.visitStore op := by simp only [visit, hcode]
    have hloaded : loadedBy c b m op = [] := by simp only [loadedBy, hcode]
    obtain ⟨hlength, htype⟩ := hstore hcode
    obtain ⟨address, value, hoperands⟩ := List.length_eq_two.mp hlength
    obtain ⟨a, u, ha, hu, rfl⟩ := store_inversion hcode hrun hok
    have hperformed : performedBy c m op = [.store a.lo op.type.bits u] := by
      simp only [performedBy, hcode, ha, hu]
    have haddress : address.verified ctx = true := hop.operands address (by simp [hoperands])
    have hverified : value.verified ctx = true := hop.operands value (by simp [hoperands])
    have htype : value.type = op.type := by simpa [Op.operand, hoperands] using htype
    have ha : m.eval c address = .ok a := by simpa [Op.operand, hoperands] using ha
    have hu : m.eval c value = .ok u := by simpa [Op.operand, hoperands] using hu
    rw [hvisit] at hclean ⊢
    rw [hloaded] at hloads
    obtain ⟨vs', h', hcount⟩ := store_spec hoperands haddress hverified htype ha hu h hclean
    rw [hperformed, hcount]
    exact ⟨vs', h'.mono hsub, hloads, rfl⟩
  · exact hstill hcode

theorem clean_of_run (hfits : s.overflowed = false) (h : (run file ops s).complete = true) :
  Clean s := by
  induction ops generalizing s with
  | nil => exact ⟨h, hfits⟩
  | cons op ops ih =>
    rw [run] at h
    split at h
    · cases h
    · rename_i hvisit
      exact (clean_visit (ih (Bool.eq_false_iff.mpr hvisit) h)).1

/-- **A whole instruction.** -/
theorem run_spec {loads : List U128} {done : List Performed}
  (hrun : InstructionRun c b ops m loads performed m₁)
  (hverified : BlockVerified c.file ctx available ops) (hstore : ∀ op ∈ ops, StoreVerified op)
  (hreg : ∀ op ∈ ops, op.reg < 2 ^ 32) (h : Progress c ctx available leaves s vs m done)
  (hloads : leaves.loads.drop s.loads = loads) (hfits : s.overflowed = false)
  (hcomplete : (run c.file ops s).complete = true) :
  ∃ vs', evalNodes leaves (run c.file ops s).nodes = some vs' ∧
    (run c.file ops s).effects.mapM (fun effect => effect.perform vs') =
      some (done ++ performed) ∧
    performed.foldl (Performed.apply b c.file) (m.registers, m.world) =
      (m₁.registers, m₁.world) := by
  induction hrun generalizing available s vs done with
  | done m =>
    rw [List.append_nil]
    exact ⟨vs, h.summarized.eval, h.effects, rfl⟩
  | @step op ops m m₁ m₂ loads performed hop hrest ih =>
    rw [run] at hcomplete ⊢
    split at hcomplete
    · cases hcomplete
    · rename_i hvisit
      rw [if_neg hvisit]
      have hvisit := Bool.eq_false_iff.mpr hvisit
      obtain ⟨vs₁, h₁, hloads₁, happly⟩ := visit_spec hverified.1
        (hstore op (List.mem_cons_self ..)) (hreg op (List.mem_cons_self ..)) h
        (clean_of_run hvisit hcomplete) hop (by rintro x ⟨⟩) hloads
      rw [← List.append_assoc, List.foldl_append, happly]
      exact ih hverified.2.2 (fun op hmem => hstore op (List.mem_cons_of_mem _ hmem))
        (fun op hmem => hreg op (List.mem_cons_of_mem _ hmem)) h₁ hloads₁ hvisit hcomplete
  | @stop op m m₁ o hop hok =>
    rw [run] at hcomplete ⊢
    split at hcomplete
    · cases hcomplete
    · rename_i hvisit
      rw [if_neg hvisit]
      have hvisit := Bool.eq_false_iff.mpr hvisit
      rw [← List.append_nil (loadedBy c b m op)] at hloads
      obtain ⟨vs₁, h₁, -, happly⟩ := visit_spec hverified.1 (hstore op (List.mem_cons_self ..))
        (hreg op (List.mem_cons_self ..)) h (clean_of_run hvisit hcomplete) hop
        (fun x hx => Option.some.inj hx ▸ hok) hloads
      exact ⟨vs₁, h₁.summarized.eval, h₁.effects, happly⟩

/-! ## Instructions of a verified block -/

theorem blockVerified_initial {after : List Op}
  (h : BlockAccepted f level available (ops ++ after)) :
  BlockVerified f.file f.ctx available ops := by
  induction ops generalizing available with
  | nil => trivial
  | cons op ops ih =>
    refine ⟨h.1.verified, fun hterm => ?_, ih h.2⟩
    exact (List.append_eq_nil_iff.mp (h.1.last hterm)).1

theorem blockAccepted_rest {before : List Op}
  (h : BlockAccepted f level available (before ++ ops)) :
  ∃ available', BlockAccepted f level available' ops := by
  induction before generalizing available with
  | nil => exact ⟨available, h⟩
  | cons op before ih => exact ih h.2

theorem checkOpCode_of_sequence {blockId : Nat}
  {seenPhiEnd : Bool} {ids : List Nat}
  (h : Verifier.checkSequence f level blockId seenPhiEnd ids = true) :
  ∀ op ∈ ids.filterMap fun id => f.ops[id]?,
    Verifier.checkOpCode f level blockId op.toOp = true := by
  induction ids generalizing seenPhiEnd with
  | nil => rintro op ⟨⟩
  | cons id ids ih =>
    intro op hop
    cases hid : f.ops[id]? with
    | none => simp [Verifier.checkSequence, hid] at h
    | some first =>
      simp only [Verifier.checkSequence, hid, Bool.and_eq_true] at h
      obtain ⟨⟨-, hcheck⟩, hrest⟩ := h
      rw [List.filterMap_cons, hid] at hop
      rcases List.mem_cons.mp hop with rfl | hop
      · simp only [Verifier.checkOp, Bool.and_eq_true] at hcheck
        exact hcheck.1.2
      · exact ih hrest op hop

theorem storeVerified_of_verify {blockId : Nat}
  {block : IlBlock} (hverify : verify f level = true) (hblock : f.blocks[blockId]? = some block) :
  ∀ op ∈ f.blockOps block, StoreVerified op := by
  simp only [verify, Verifier.checkBlocks, Bool.and_eq_true] at hverify
  obtain ⟨⟨⟨-, -, hblocks⟩, -⟩, -⟩ := hverify
  have hcheck := Verifier.of_blocks hblocks hblock
  intro op hop
  obtain ⟨pooled, hpool, rfl⟩ := List.mem_map.mp hop
  unfold IlFunction.opsOf at hpool
  unfold Verifier.checkBlock at hcheck
  split at hcheck
  · rename_i hempty
    rw [List.isEmpty_iff.mp hempty] at hpool
    cases hpool
  · intro hcode
    have hstore := checkOpCode_of_sequence hcheck pooled hpool
    simp only [Verifier.checkOpCode, hcode, Bool.and_eq_true, beq_iff_eq,
      Verifier.expectOperands] at hstore
    exact hstore

/-- What a summary says of a run: its nodes have values, and its effects are the
writes and stores of the run, which make the final registers and memory. -/
structure SummaryExact (f : IlFunction) (b : Backend W) (host : HostFloat) (ops : List Op)
    (m : Machine W) (loads : List U128) (performed : List Performed) (m₁ : Machine W) : Prop where
  effects : ∃ vs, evalNodes ⟨host, Interpreter.readRegister f.file m.registers, loads⟩
      (summarize f.file ops).nodes = some vs ∧
    (summarize f.file ops).effects.mapM (fun effect => effect.perform vs) = some performed
  state : performed.foldl (Performed.apply b f.file) (m.registers, m.world) =
    (m₁.registers, m₁.world)

/-- **Complete summaries are exact.**  The operands of a node come before it, and for
a run of an instruction of a verified block without error a complete summary has the
effects of the run.  Registers have 32-bit numbers. -/
theorem complete_summaries_exact {f : IlFunction} {level : Maturity}
    (hlevel : level.atLeast .ssa = false) (hverify : verify f level = true) {blockId : Nat}
    {block : IlBlock} (hblock : f.blocks[blockId]? = some block) {before ops after : List Op}
    (hops : f.blockOps block = before ++ ops ++ after) (hreg : ∀ op ∈ ops, op.reg < 2 ^ 32)
    (host : HostFloat) (b : Backend W) {m m₁ : Machine W} {loads : List U128}
    {performed : List Performed}
    (hrun : InstructionRun (f.blockContext host block) b ops m loads performed m₁) :
    (∀ (i : Nat) (n : SemanticNode), (summarize f.file ops).nodes[i]? = some n →
      ∀ k ∈ n.operands, k < i) ∧
    ((summarize f.file ops).complete = true → SummaryExact f b host ops m loads performed m₁) := by
  refine ⟨ordered_run f.file ops ordered_empty, fun hcomplete => ?_⟩
  obtain ⟨haccepted, -⟩ := Verifier.blockAccepted_of_verify hverify hlevel hblock
  have haccepted : BlockAccepted f level [] (before ++ (ops ++ after)) := by
    rw [← List.append_assoc, ← hops]
    exact haccepted
  obtain ⟨available, hsuffix⟩ := blockAccepted_rest haccepted
  have hstore : ∀ op ∈ ops, StoreVerified op := by
    intro op hop
    refine storeVerified_of_verify hverify hblock op ?_
    rw [hops]
    exact List.mem_append_left _ (List.mem_append_right _ hop)
  have hstart : Progress (f.blockContext host block) f.ctx available
      ⟨host, Interpreter.readRegister f.file m.registers, loads⟩ Summarizer.empty [] m [] := by
    have hempty : Summarized ⟨host, Interpreter.readRegister f.file m.registers, loads⟩ f.ctx
        available Summarizer.empty [] :=
      ⟨rfl, rfl, by rintro _ _ ⟨⟩, by rintro _ _ ⟨⟩⟩
    exact ⟨hempty, ⟨rfl, by rintro _ _ ⟨⟩⟩, rfl, fun _ _ => rfl, le_refl 0⟩
  obtain ⟨vs, hnodes, heffects, hstate⟩ := run_spec hrun (blockVerified_initial hsuffix) hstore hreg
    hstart rfl rfl hcomplete
  exact ⟨⟨vs, hnodes, heffects⟩, hstate⟩

end Visits

/-! ### A fetch and add -/

theorem fetch_viewOk : ViewOk RegisterFile.empty.registers
  RegisterFile.empty.registers.length ⟨"x0", 64, .general, none, 0, false⟩ := by
  intro p hp
  cases hp

def fetchFile : RegisterFile :=
  RegisterFile.empty.push ⟨"x0", 64, .general, none, 0, false⟩ fetch_viewOk

def fetchAddress : Expr := .leaf .value (Ty.integer 64) 0#64

def fetchValue : Expr := .leaf .value (Ty.integer 64) 1#64

def fetchStep : Expr := Expr.constant (Ty.integer 64) 8#64

def fetchSum : Expr := .binary .add (Ty.integer 64) 0#64 fetchValue fetchStep

/-- An instruction that adds 8 in memory at `x0` and leaves in `x0` what was there,
and a return. -/
def fetchOps : List PoolOp :=
  [{ code := .readReg, type := Ty.integer 64, va := 0x1000#64, result := some 0, payload := 0
     operands := [], targets := [], origin := 0 },
   { code := .load, type := Ty.integer 64, va := 0x1000#64, result := some 1, payload := 0
     operands := [fetchAddress], targets := [], origin := 0 },
   { code := .store, type := Ty.integer 64, va := 0x1000#64, result := none, payload := 0
     operands := [fetchAddress, fetchSum], targets := [], origin := 0 },
   { code := .writeReg, type := Ty.voidType, va := 0x1000#64, result := none, payload := 0
     operands := [fetchValue], targets := [], origin := 0 },
   { code := .ret, type := Ty.voidType, va := 0x1004#64, result := none, payload := 0
     operands := [], targets := [], origin := 0 }]

def fetchFunction : IlFunction where
  file := fetchFile
  nameOf _ := ""
  passCount := 1
  entryBlock := some 0
  blocks := [⟨0x1000#64, 0x1008#64, [0, 1, 2, 3, 4], [], [], false⟩]
  ops := fetchOps
  values := [⟨Ty.integer 64, some 0, some 0⟩, ⟨Ty.integer 64, some 1, some 0⟩]
  exprs := [fetchAddress, fetchValue, fetchStep, fetchSum]
  values_le := by
    show 2 ≤ 2 ^ 32
    decide
  operands_mem := by decide
  closed := by decide

/-- The operations of the instruction. -/
def fetchInstruction : List Op := (fetchOps.take 4).map PoolOp.toOp

/-- Memory that holds 5 everywhere. -/
def fetchMemory : Backend Unit :=
  ⟨fun _ _ _ => .ok (word 5#64), fun w _ _ _ => (.ok (), w), fun w _ _ _ => (none, w)⟩

def fetchContext : BlockContext :=
  fetchFunction.blockContext HostFloat.idle (fetchFunction.blocks.getD 0 default)

def fetchMachine : Machine Unit := ⟨fun _ => word 0x2000#64, fun _ => none, ()⟩

theorem fetch_run : ∃ m₁, InstructionRun fetchContext fetchMemory fetchInstruction fetchMachine
  [word 5#64] [.store 0x2000#64 64 (word 13#64), .writeReg 0 (word 5#64)] m₁ :=
  ⟨_, .step rfl (.step rfl (.step rfl (.step rfl (.done _))))⟩

theorem complete_summaries_exact_fetch :
    (summarize fetchFile fetchInstruction).complete = true ∧
      ∃ m₁, SummaryExact fetchFunction fetchMemory HostFloat.idle fetchInstruction fetchMachine
        [word 5#64] [.store 0x2000#64 64 (word 13#64), .writeReg 0 (word 5#64)] m₁ := by
  have hcomplete : (summarize fetchFile fetchInstruction).complete = true := by decide
  obtain ⟨m₁, hrun⟩ := fetch_run
  have hblock : fetchFunction.blocks[0]? = some (fetchFunction.blocks.getD 0 default) := rfl
  have hops : fetchFunction.blockOps (fetchFunction.blocks.getD 0 default) =
      [] ++ fetchInstruction ++ (fetchOps.drop 4).map PoolOp.toOp := rfl
  have hlevel : Maturity.lifted.atLeast .ssa = false := rfl
  have hexact := complete_summaries_exact hlevel (by decide) hblock hops
    (by decide) HostFloat.idle fetchMemory hrun
  exact ⟨hcomplete, m₁, hexact.2 hcomplete⟩

end Xdec

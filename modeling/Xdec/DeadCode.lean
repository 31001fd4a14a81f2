import Xdec.Demand
import Xdec.FlagPhiInvariant

/-!
# Dead code

`dce` removes phis and loads that nothing observed depends on, and `removeOrphanedLoads`
the loads behind a discarded target that nothing reads any more.  Both go round until
nothing is left to remove.

`Swept` is what a function looks like after some operations were removed, none of them
demanded.  Both keep it, and from it everything observable is still there
(`elimination_exact`).
-/

namespace Xdec

namespace IlFunction

/-- `Function::removeOp`; `none` is an assertion. -/
def removeOp (f : IlFunction) (blockId opId : Nat) : Option IlFunction :=
  match f.blocks[blockId]?, hop : f.ops[opId]? with
  | some block, some op =>
    if opId ∈ block.ops ∧ op.code.isTerminator = false then
      some { f with
        blocks := f.blocks.set blockId { block with ops := block.ops.erase opId }
        ops := f.ops.set opId { op with result := none }
        values :=
          match op.result with
          | none => f.values
          | some v => f.values.modify v fun info => { info with definition := none }
        values_le := by
          cases op.result with
          | none => exact f.values_le
          | some v => rw [List.length_modify]; exact f.values_le
        operands_mem := fun other hother e he => by
          rcases List.mem_or_eq_of_mem_set hother with hold | rfl
          · exact f.operands_mem other hold e he
          · exact f.operands_mem op (List.mem_of_getElem? hop) e he }
    else none
  | _, _ => none

/-! ## Elimination on demand -/

/-- A phi or a load whose result is not needed. -/
def isDead (f : IlFunction) (needed : List Nat) (opId : Nat) : Bool :=
  (f.ops[opId]?).any fun op =>
    (op.code == .phi || op.code == .load) && op.result.any fun v => !needed.contains v

def deadOps (f : IlFunction) (needed : List Nat) : List (Nat × Nat) :=
  f.blocks.zipIdx.flatMap fun block =>
    (block.1.ops.filter (f.isDead needed)).map fun opId => (block.2, opId)

def removeOps (f : IlFunction) (dead : List (Nat × Nat)) : Option IlFunction :=
  dead.foldlM (fun f op => f.removeOp op.1 op.2) f

/-- The function with the dead operations removed, and whether there were any.  Without
fuel the rounds have not ended. -/
def dce : Nat → IlFunction → Bool → Option (IlFunction × Bool)
  | 0, _, _ => none
  | fuel + 1, f, any =>
    match f.needed with
    | none => none
    | some needed =>
      let dead := f.deadOps needed
      if dead = [] then some (f, any)
      else
        match f.removeOps dead with
        | none => none
        | some f => dce fuel f true

/-! ## Orphaned loads -/

/-- The values that some operation reads. -/
def reached (f : IlFunction) : List Nat :=
  f.blocks.flatMap fun block => (f.opsOf block).flatMap fun op => op.reads

/-- One round over the candidates: what it leaves, the candidates of the next round, and
whether a load was removed. -/
def removeUnread (reached : List Nat) :
    List Nat → IlFunction × List Nat × Bool → Option (IlFunction × List Nat × Bool)
  | [], s => some s
  | v :: rest, (f, next, removed) =>
    if reached.contains v then removeUnread reached rest (f, next, removed)
    else
      match f.values[v]? with
      | none => removeUnread reached rest (f, next, removed)
      | some info =>
        match info.definition, f.definitionOf v with
        | some id, some op =>
          if op.code = .load then
            match info.block with
            | none => none
            | some block =>
              match f.removeOp block id with
              | none => none
              | some f => removeUnread reached rest (f, next ++ op.reads, true)
          else removeUnread reached rest (f, next, removed)
        | _, _ => removeUnread reached rest (f, next, removed)

/-- A set of values in ascending order. -/
def ascending (f : IlFunction) (candidates : List Nat) : List Nat :=
  (List.range f.values.length).filter fun v => candidates.contains v

def removeRounds : Nat → IlFunction → List Nat → Option IlFunction
  | 0, _, _ => none
  | fuel + 1, f, candidates =>
    if candidates = [] then some f
    else
      match removeUnread f.reached (f.ascending candidates) (f, [], false) with
      | none => none
      | some (f, next, removed) => if removed then removeRounds fuel f next else some f

def removeOrphanedLoads (fuel : Nat) (f : IlFunction) (discardedTargets : List Expr) :
    Option IlFunction :=
  removeRounds fuel f (discardedTargets.flatMap (Expr.leaves .value))

/-! ## What is kept -/

/-- A value that an operation depends on, in any number of steps. -/
inductive DependsOn (f : IlFunction) (op : PoolOp) : Nat → Prop
  | read {v : Nat} (hv : v ∈ op.reads) : DependsOn f op v
  | step {u v : Nat} {other : PoolOp} (hu : DependsOn f op u)
      (hop : f.definitionOf u = some other) (hv : v ∈ other.reads) : DependsOn f op v

/-- What an elimination leaves: everything observed, in order; the definition of every
value that what is left depends on; and it removes nothing that is demanded. -/
structure Eliminates (f g : IlFunction) : Prop where
  observed : ∀ b : Nat, g.blocks[b]?.map (fun block => (g.opsOf block).filter (·.code.observed)) =
    f.blocks[b]?.map fun block => (f.opsOf block).filter (·.code.observed)
  kept : ∀ (b : Nat) (after : IlBlock), g.blocks[b]? = some after →
    ∃ before, f.blocks[b]? = some before ∧ after.ops.Sublist before.ops
  defined : ∀ block ∈ g.blocks, ∀ op ∈ g.opsOf block, ∀ v, g.DependsOn op v →
    ∀ info id, f.values[v]? = some info → info.definition = some id →
      g.values[v]? = some info ∧ g.ops[id]? = f.ops[id]? ∧ ∃ block ∈ g.blocks, id ∈ block.ops
  removed : ∀ (b : Nat) (before : IlBlock), f.blocks[b]? = some before → ∀ id ∈ before.ops,
    (∃ after, g.blocks[b]? = some after ∧ id ∈ after.ops) ∨
      ∃ op v, f.ops[id]? = some op ∧ op.result = some v ∧ ¬ f.Demanded v

/-! ## What verification says -/

section Verified

open Verifier

variable {f : IlFunction} {b v id : Nat} {block : IlBlock} {op : PoolOp}

/-- All operations, block by block. -/
def placed (f : IlFunction) : List Nat := f.blocks.flatMap IlBlock.ops

theorem count_le_count_filterMap {α : Type} [BEq α] [LawfulBEq α] {g : Nat → Option α} {a : α}
  (hid : g id = some a) (l : List Nat) : l.count id ≤ (l.filterMap g).count a := by
  induction l with
  | nil => exact Nat.le_refl 0
  | cons x xs ih =>
    rw [List.count_cons]
    by_cases hx : x = id
    · rw [hx, List.filterMap_cons_some hid, List.count_cons_self, beq_self_eq_true, if_pos rfl]
      omega
    · rw [if_neg (by simpa using hx), Nat.add_zero]
      refine Nat.le_trans ih ?_
      cases hgx : g x with
      | none => rw [List.filterMap_cons_none hgx]
      | some y =>
        rw [List.filterMap_cons_some hgx, List.count_cons]
        exact Nat.le_add_right ..

theorem count_placed (hverify : verify f .ssa = true) (hblock : f.blocks[b]? = some block)
  (hid : id ∈ block.ops) (hop : f.ops[id]? = some op) (hresult : op.result = some v) :
  f.placed.count id ≤ 1 := by
  obtain ⟨info, hinfo, -⟩ := recorded_of_verify hverify hblock hid hop hresult
  simp only [verify, checkValues, Bool.and_eq_true] at hverify
  obtain ⟨⟨-, ⟨-, hcounts⟩, -⟩, -⟩ := hverify
  have hlt := (List.getElem?_eq_some_iff.mp hinfo).1
  have hcount := List.all_eq_true.mp hcounts v (List.mem_range.mpr hlt)
  have hdefinitions : definitions f =
      f.placed.filterMap fun id => f.ops[id]?.bind fun op => op.result := by
    rw [definitions, placed, List.filterMap_flatMap]
    refine List.flatMap_congr fun block _ => ?_
    rw [opsOf, List.filterMap_filterMap]
  have hle : f.placed.count id ≤ (definitions f).count v := by
    rw [hdefinitions]
    exact count_le_count_filterMap (by rw [hop, Option.bind_some, hresult]) _
  cases hn : (definitions f).count v with
  | zero => omega
  | succ n =>
    simp only [hn, beq_iff_eq] at hcount
    omega

/-- What is neither observed nor removable reads nothing. -/
theorem reads_of_verify (hverify : verify f .ssa = true) (hblock : f.blocks[b]? = some block)
  (hid : id ∈ block.ops) (hop : f.ops[id]? = some op) (hobserved : op.code.observed = false)
  (hphi : op.code ≠ .phi) (hload : op.code ≠ .load) : op.reads = [] := by
  obtain ⟨op', hop', hcheck⟩ := exists_op_of_verify hverify hblock hid
  obtain rfl := Option.some.inj (hop.symm.trans hop')
  have hoperands : op.operands = [] := by
    simp only [checkOp, Bool.and_eq_true] at hcheck
    have hcode := hcheck.1.2
    cases hc : op.code <;>
      simp_all [checkOpCode, expectOperands, OpCode.observed, OpCode.hasSideEffects,
        OpCode.isTerminator]
  rw [Op.reads, hoperands]
  rfl

theorem result_of_verify (hverify : verify f .ssa = true) (hblock : f.blocks[b]? = some block)
  (hid : id ∈ block.ops) (hop : f.ops[id]? = some op)
  (hcode : op.code = .phi ∨ op.code = .load) : ∃ v, op.result = some v := by
  obtain ⟨op', hop', hcheck⟩ := exists_op_of_verify hverify hblock hid
  obtain rfl := Option.some.inj (hop.symm.trans hop')
  simp only [checkOp, Bool.and_eq_true, beq_iff_eq] at hcheck
  have hdefines : shouldDefine op.toOp = true := by
    rcases hcode with hc | hc <;> simp [shouldDefine, hc, OpCode.definesValue]
  exact Option.isSome_iff_exists.mp (hcheck.2.symm.trans hdefines)

end Verified

/-! ## Removing -/

/-- A function with some operations removed. -/
structure Removed (f g : IlFunction) (gone : List Nat) : Prop where
  blocks : ∀ b : Nat, g.blocks[b]? = f.blocks[b]?.map fun block =>
    { block with ops := block.ops.filter fun id => !gone.contains id }
  ops : ∀ id : Nat, g.ops[id]? = f.ops[id]?.map fun op =>
    if gone.contains id then { op with result := none } else op
  values : ∀ v : Nat, g.values[v]? = f.values[v]?.map fun info =>
    if info.definition.any fun id => gone.contains id then { info with definition := none }
    else info

namespace Removed

variable {f g : IlFunction} {gone : List Nat}

theorem refl (f : IlFunction) : Removed f f [] := by
  refine ⟨fun b => ?_, fun id => ?_, fun v => ?_⟩
  · cases f.blocks[b]? <;> simp
  · cases f.ops[id]? <;> simp
  · cases f.values[v]? <;> simp

theorem op_of_kept (h : Removed f g gone) {id : Nat} (hid : id ∉ gone) :
  g.ops[id]? = f.ops[id]? := by
  rw [h.ops]
  cases f.ops[id]? <;> simp [hid]

/-- The operations of a block that are left. -/
theorem opsOf (h : Removed f g gone) (block : IlBlock) :
  g.opsOf { block with ops := block.ops.filter fun id => !gone.contains id } =
    (block.ops.filter fun id => !gone.contains id).filterMap fun id => f.ops[id]? := by
  refine List.filterMap_congr fun id hid => ?_
  have hkept := (List.mem_filter.mp hid).2
  exact h.op_of_kept (by simpa using hkept)

variable {b : Nat}

theorem mem_block (h : Removed f g gone) {before : IlBlock}
  (hbefore : f.blocks[b]? = some before) {id : Nat} (hid : id ∈ before.ops) (hkept : id ∉ gone) :
  ∃ after, g.blocks[b]? = some after ∧ id ∈ after.ops := by
  refine ⟨_, by rw [h.blocks, hbefore, Option.map_some], List.mem_filter.mpr ⟨hid, ?_⟩⟩
  simpa using hkept

theorem of_mem_block (h : Removed f g gone) {after : IlBlock}
  (hafter : g.blocks[b]? = some after) : ∃ before, f.blocks[b]? = some before ∧
    after.ops.Sublist before.ops ∧ ∀ id ∈ after.ops, id ∉ gone := by
  rw [h.blocks] at hafter
  obtain ⟨before, hbefore, rfl⟩ := Option.map_eq_some_iff.mp hafter
  refine ⟨before, hbefore, List.filter_sublist, fun id hid => ?_⟩
  simpa using (List.mem_filter.mp hid).2

theorem erase_eq_filter_of_count {a : Nat} {l : List Nat} (h : l.count a ≤ 1) :
  l.erase a = l.filter (· != a) := by
  induction l with
  | nil => rfl
  | cons x xs ih =>
    by_cases hx : x = a
    · subst hx
      rw [List.count_cons_self] at h
      have hnot : x ∉ xs := List.count_eq_zero.mp (by omega)
      rw [List.erase_cons_head, List.filter_cons_of_neg (by simp)]
      refine (List.filter_eq_self.mpr fun y hy => ?_).symm
      exact bne_iff_ne.mpr fun hyx => hnot (hyx ▸ hy)
    · rw [List.count_cons_of_ne hx] at h
      rw [List.erase_cons_tail (by simpa using hx), List.filter_cons_of_pos (by simpa using hx),
        ih h]

theorem ops_sublist_placed {block : IlBlock} (hblock : f.blocks[b]? = some block) :
  block.ops.Sublist f.placed := by
  rw [placed, List.flatMap_def]
  exact List.sublist_flatten_of_mem (List.mem_map_of_mem (List.mem_of_getElem? hblock))

theorem removeOp (hverify : verify f .ssa = true) (h : Removed f g gone) {b id v : Nat}
  {before : IlBlock} {op : PoolOp} (hbefore : f.blocks[b]? = some before)
  (hid : id ∈ before.ops) (hop : f.ops[id]? = some op) (hresult : op.result = some v)
  (hcode : op.code.isTerminator = false) (hkept : id ∉ gone) :
  ∃ g', g.removeOp b id = some g' ∧ Removed f g' (id :: gone) := by
  obtain ⟨info, hinfo, hdefinition, hblockOf, -⟩ :=
    recorded_of_verify hverify hbefore hid hop hresult
  have hopg : g.ops[id]? = some op := (h.op_of_kept hkept).trans hop
  obtain ⟨after, hafter, hidAfter⟩ := h.mem_block hbefore hid hkept
  have hafterEq : after = { before with ops := before.ops.filter fun id => !gone.contains id } := by
    rw [h.blocks, hbefore] at hafter
    exact (Option.some.inj hafter).symm
  have hguard : id ∈ after.ops ∧ op.code.isTerminator = false := ⟨hidAfter, hcode⟩
  have hremoved : ∃ g', g.removeOp b id = some g' ∧
      g'.blocks = g.blocks.set b { after with ops := after.ops.erase id } ∧
      g'.ops = g.ops.set id { op with result := none } ∧
      g'.values = g.values.modify v fun info => { info with definition := none } := by
    unfold IlFunction.removeOp
    split
    · rename_i block op' hblock hop'
      obtain rfl := Option.some.inj (hafter.symm.trans hblock)
      obtain rfl := Option.some.inj (hopg.symm.trans hop')
      rw [if_pos hguard]
      refine ⟨_, rfl, rfl, rfl, ?_⟩
      dsimp only
      rw [hresult]
    · rename_i hnone
      exact (hnone _ _ hafter hopg).elim
  obtain ⟨g', hg', hblocks, hops, hvalues⟩ := hremoved
  have hcontains : ∀ other, (id :: gone).contains other = (other == id || gone.contains other) :=
    fun other => List.contains_cons
  refine ⟨g', hg', fun b' => ?_, fun id' => ?_, fun v' => ?_⟩
  · rw [hblocks, List.getElem?_set]
    by_cases hb : b = b'
    · subst hb
      have hlt := (List.getElem?_eq_some_iff.mp hafter).1
      have hcount : after.ops.count id ≤ 1 := by
        have hsub : after.ops.Sublist before.ops := by
          rw [hafterEq]
          exact List.filter_sublist
        exact Nat.le_trans ((hsub.trans (ops_sublist_placed hbefore)).count_le id)
          (count_placed hverify hbefore hid hop hresult)
      rw [if_pos rfl, if_pos hlt, hbefore, Option.map_some, erase_eq_filter_of_count hcount,
        hafterEq, List.filter_filter]
      refine congrArg some (congrArg (fun ops => { before with ops := ops }) ?_)
      refine List.filter_congr fun other _ => ?_
      rw [hcontains, Bool.not_or]
      rfl
    · rw [if_neg hb, h.blocks]
      cases hother : f.blocks[b']? with
      | none => rfl
      | some other =>
        rw [Option.map_some, Option.map_some]
        refine congrArg some (congrArg (fun ops => { other with ops := ops }) ?_)
        refine List.filter_congr fun id' hid' => ?_
        -- The operation stands in one block only.
        have hne : (id' == id) = false := by
          refine beq_false_of_ne fun heq => hb ?_
          rw [heq] at hid'
          obtain ⟨info', hinfo', -, hblockOf', -⟩ :=
            recorded_of_verify hverify hother hid' hop hresult
          obtain rfl := Option.some.inj (hinfo.symm.trans hinfo')
          exact Option.some.inj (hblockOf.symm.trans hblockOf')
        rw [hcontains, hne, Bool.false_or]
  · rw [hops, List.getElem?_set]
    by_cases hsame : id = id'
    · subst hsame
      have hlt := (List.getElem?_eq_some_iff.mp hopg).1
      rw [if_pos rfl, if_pos hlt, hop, Option.map_some, hcontains, beq_self_eq_true,
        Bool.true_or, if_pos rfl]
    · rw [if_neg hsame, h.ops]
      have hne : (id' == id) = false := beq_false_of_ne (Ne.symm hsame)
      simp only [hcontains, hne, Bool.false_or]
  · rw [hvalues, List.getElem?_modify, h.values]
    by_cases hsame : v = v'
    · subst hsame
      have hin : ((some id : Option Nat).any fun other => (id :: gone).contains other) = true := by
        rw [Option.any_some, hcontains, beq_self_eq_true, Bool.true_or]
      have hout : ((some id : Option Nat).any fun other => gone.contains other) = false := by
        rw [Option.any_some]
        simpa using hkept
      rw [hinfo, Option.map_some, Option.map_some, hdefinition, hin, hout]
      simp
    · cases hinfo' : f.values[v']? with
      | none => rfl
      | some info' =>
        have hne : (info'.definition.any fun other => (id :: gone).contains other) =
            info'.definition.any fun other => gone.contains other := by
          cases hdef : info'.definition with
          | none => rfl
          | some id' =>
            have hother : (id' == id) = false := by
              refine beq_false_of_ne fun heq => hsame ?_
              rw [heq] at hdef
              obtain ⟨op', -, -, hop', hresult', -⟩ := defined_of_verify hverify hinfo' hdef
              obtain rfl := Option.some.inj (hop.symm.trans hop')
              exact Option.some.inj (hresult.symm.trans hresult')
            rw [Option.any_some, Option.any_some, hcontains, hother, Bool.false_or]
        simp only [Option.map_some, hne, if_neg hsame]
        rfl

end Removed

/-! ## Sweeping -/

/-- A phi or a load that has a result nothing demands. -/
structure Undemanded (f : IlFunction) (b id v : Nat) : Prop where
  block : ∃ block, f.blocks[b]? = some block ∧ id ∈ block.ops
  op : ∃ op, f.ops[id]? = some op ∧ op.result = some v ∧ (op.code = .phi ∨ op.code = .load)
  undemanded : ¬ f.Demanded v

/-- A function with some operations removed, none of them demanded. -/
structure Swept (f g : IlFunction) (gone : List Nat) : Prop extends Removed f g gone where
  nodup : gone.Nodup
  undemanded : ∀ id ∈ gone, ∃ b v, f.Undemanded b id v

namespace Swept

variable {f g : IlFunction} {gone : List Nat}

theorem refl (f : IlFunction) : Swept f f [] :=
  ⟨.refl f, List.nodup_nil, fun _ hid => nomatch hid⟩

/-- What was removed stood in the function once. -/
theorem length_le (h : Swept f g gone) : gone.length ≤ f.placed.length := by
  refine (List.subperm_of_subset h.nodup fun id hid => ?_).length_le
  obtain ⟨b, v, hdead⟩ := h.undemanded id hid
  obtain ⟨block, hblock, hid⟩ := hdead.block
  exact (Removed.ops_sublist_placed hblock).subset hid

theorem removeOp (hverify : verify f .ssa = true) (h : Swept f g gone) {b id v : Nat}
  (hdead : f.Undemanded b id v) (hkept : id ∉ gone) :
  ∃ g', g.removeOp b id = some g' ∧ Swept f g' (id :: gone) := by
  obtain ⟨block, hblock, hid⟩ := hdead.block
  obtain ⟨op, hop, hresult, hcode⟩ := hdead.op
  have hterminator : op.code.isTerminator = false := by
    rcases hcode with hcode | hcode <;> rw [hcode] <;> rfl
  obtain ⟨g', hg', hremoved⟩ :=
    h.toRemoved.removeOp hverify hblock hid hop hresult hterminator hkept
  refine ⟨g', hg', hremoved, List.nodup_cons.mpr ⟨hkept, h.nodup⟩, fun id' hid' => ?_⟩
  rcases List.mem_cons.mp hid' with rfl | hid'
  · exact ⟨b, v, hdead⟩
  · exact h.undemanded id' hid'

variable {id v : Nat} {op : PoolOp}

theorem not_gone_of_observed (h : Swept f g gone)
  (hop : f.ops[id]? = some op) (hobserved : op.code.observed = true) : id ∉ gone := by
  intro hid
  obtain ⟨b, v, hdead⟩ := h.undemanded id hid
  obtain ⟨op', hop', -, hcode⟩ := hdead.op
  obtain rfl := Option.some.inj (hop.symm.trans hop')
  rcases hcode with hcode | hcode <;> rw [hcode] at hobserved <;> cases hobserved

theorem not_gone_of_demanded (hverify : verify f .ssa = true) (h : Swept f g gone)
  {info : ValueInfo} (hinfo : f.values[v]? = some info) (hdefinition : info.definition = some id)
  (hv : f.Demanded v) : id ∉ gone := by
  intro hid
  obtain ⟨b, v', hdead⟩ := h.undemanded id hid
  obtain ⟨op', hop', hresult', -⟩ := hdead.op
  obtain ⟨op, -, -, hop, hresult, -⟩ := defined_of_verify hverify hinfo hdefinition
  obtain rfl := Option.some.inj (hop.symm.trans hop')
  obtain rfl := Option.some.inj (hresult.symm.trans hresult')
  exact hdead.undemanded hv

theorem definitionOf_of_demanded (hverify : verify f .ssa = true) (h : Swept f g gone)
  (hv : f.Demanded v) : g.definitionOf v = f.definitionOf v := by
  unfold definitionOf
  rw [h.values]
  cases hinfo : f.values[v]? with
  | none => rfl
  | some info =>
    rw [Option.map_some, Option.bind_some, Option.bind_some]
    cases hdefinition : info.definition with
    | none => simp [hdefinition]
    | some id =>
      have hkept := h.not_gone_of_demanded hverify hinfo hdefinition hv
      have hout : gone.contains id = false := by simpa using hkept
      rw [Option.any_some, hout, if_neg Bool.false_ne_true, hdefinition, Option.bind_some,
        Option.bind_some, h.op_of_kept hkept]

/-- An operation that is left stands where it stood. -/
theorem of_mem_opsOf (h : Swept f g gone) {after : IlBlock} (hafter : after ∈ g.blocks) (hop : op ∈ g.opsOf after) :
  ∃ (b id : Nat) (before : IlBlock), f.blocks[b]? = some before ∧ id ∈ before.ops ∧ id ∉ gone ∧
    f.ops[id]? = some op := by
  obtain ⟨b, hb⟩ := List.getElem?_of_mem hafter
  obtain ⟨before, hbefore, hsub, hkept⟩ := h.of_mem_block hb
  obtain ⟨id, hid, hop⟩ := List.mem_filterMap.mp hop
  exact ⟨b, id, before, hbefore, hsub.subset hid, hkept id hid,
    (h.op_of_kept (hkept id hid)).symm.trans hop⟩

theorem mem_opsOf (h : Swept f g gone) {b : Nat} {before : IlBlock}
  (hbefore : f.blocks[b]? = some before) (hid : id ∈ before.ops) (hkept : id ∉ gone) (hop : f.ops[id]? = some op) : ∃ after ∈ g.blocks, op ∈ g.opsOf after := by
  obtain ⟨after, hafter, hid⟩ := h.mem_block hbefore hid hkept
  exact ⟨after, List.mem_of_getElem? hafter,
    List.mem_filterMap.mpr ⟨id, hid, (h.op_of_kept hkept).trans hop⟩⟩

theorem demanded_iff (hverify : verify f .ssa = true) (h : Swept f g gone) :
  g.Demanded v ↔ f.Demanded v := by
  constructor
  · intro hv
    induction hv with
    | root hblock hop hobserved hreads =>
      obtain ⟨b, id, before, hbefore, hid, -, hop⟩ := h.of_mem_opsOf hblock hop
      exact .root (List.mem_of_getElem? hbefore) (List.mem_filterMap.mpr ⟨id, hid, hop⟩)
        hobserved hreads
    | step _ hop hreads ih =>
      rw [h.definitionOf_of_demanded hverify ih] at hop
      exact .step ih hop hreads
  · intro hv
    induction hv with
    | root hblock hop hobserved hreads =>
      obtain ⟨id, hid, hop⟩ := List.mem_filterMap.mp hop
      obtain ⟨b, hb⟩ := List.getElem?_of_mem hblock
      obtain ⟨after, hafter, hop⟩ :=
        h.mem_opsOf hb hid (h.not_gone_of_observed hop hobserved) hop
      exact .root hafter hop hobserved hreads
    | step hu hop hreads ih =>
      rw [← h.definitionOf_of_demanded hverify hu] at hop
      exact .step ih hop hreads

theorem mem_reached :
  v ∈ f.reached ↔ ∃ block ∈ f.blocks, ∃ op ∈ f.opsOf block, v ∈ op.reads := by
  unfold reached
  simp only [List.mem_flatMap]

theorem reached_of_demanded (hverify : verify f .ssa = true) (h : Swept f g gone)
  (hv : f.Demanded v) : v ∈ g.reached := by
  rw [mem_reached]
  cases hv with
  | root hblock hop hobserved hreads =>
    obtain ⟨id, hid, hop⟩ := List.mem_filterMap.mp hop
    obtain ⟨b, hb⟩ := List.getElem?_of_mem hblock
    obtain ⟨after, hafter, hop⟩ := h.mem_opsOf hb hid (h.not_gone_of_observed hop hobserved) hop
    exact ⟨after, hafter, _, hop, hreads⟩
  | step hu hop hreads =>
    obtain ⟨info, hinfo, hbind⟩ := Option.bind_eq_some_iff.mp hop
    obtain ⟨id, hdefinition, hop⟩ := Option.bind_eq_some_iff.mp hbind
    obtain ⟨_, b, block, -, -, -, -, hblock, hid⟩ :=
      defined_of_verify hverify hinfo hdefinition
    obtain ⟨after, hafter, hop⟩ :=
      h.mem_opsOf hblock hid (h.not_gone_of_demanded hverify hinfo hdefinition hu) hop
    exact ⟨after, hafter, _, hop, hreads⟩

theorem of_definitionOf (hverify : verify f .ssa = true) (h : Swept f g gone) (hop : g.definitionOf v = some op) : ∃ (b id : Nat) (block : IlBlock)
    (info : ValueInfo), f.values[v]? = some info ∧ g.values[v]? = some info ∧
    info.definition = some id ∧ info.block = some b ∧ f.blocks[b]? = some block ∧
    id ∈ block.ops ∧ id ∉ gone ∧ f.ops[id]? = some op ∧ op.result = some v := by
  obtain ⟨after, hafter, hbind⟩ := Option.bind_eq_some_iff.mp hop
  obtain ⟨id, hdefinition, hop⟩ := Option.bind_eq_some_iff.mp hbind
  have hmap := hafter
  rw [h.values] at hmap
  obtain ⟨info, hinfo, heq⟩ := Option.map_eq_some_iff.mp hmap
  by_cases hgone : (info.definition.any fun id => gone.contains id) = true
  · rw [if_pos hgone] at heq
    subst heq
    cases hdefinition
  · rw [if_neg hgone] at heq
    subst heq
    rw [hdefinition, Option.any_some] at hgone
    have hkept : id ∉ gone := by simpa using hgone
    obtain ⟨op', b, block, hop', hresult, -, hb, hblock, hid⟩ :=
      defined_of_verify hverify hinfo hdefinition
    rw [h.op_of_kept hkept] at hop
    obtain rfl := Option.some.inj (hop.symm.trans hop')
    exact ⟨b, id, block, info, hinfo, hafter, hdefinition, hb, hblock, hid, hkept, hop, hresult⟩

/-! ### Nothing dangles -/

/-- No operation that is left reads a value whose definition was removed. -/
def Unread (f g : IlFunction) (gone : List Nat) : Prop :=
  ∀ id ∈ gone, ∀ b v, f.Undemanded b id v → v ∉ g.reached

theorem filter_observed (h : Swept f g gone) (ops : List Nat) :
  ((ops.filter fun id => !gone.contains id).filterMap fun id => f.ops[id]?).filter
      (·.code.observed) =
    (ops.filterMap fun id => f.ops[id]?).filter (·.code.observed) := by
  induction ops with
  | nil => rfl
  | cons id ops ih =>
    cases hop : f.ops[id]? with
    | none =>
      rw [List.filter_cons, List.filterMap_cons_none hop]
      split
      · rw [List.filterMap_cons_none hop, ih]
      · exact ih
    | some op =>
      by_cases hid : id ∈ gone
      · have hobserved : ¬ op.code.observed = true := fun hobserved =>
          h.not_gone_of_observed hop hobserved hid
        have hin : ¬ (!gone.contains id) = true := by simpa using hid
        rw [List.filter_cons, if_neg hin, List.filterMap_cons_some hop, ih, List.filter_cons,
          if_neg hobserved]
      · rw [List.filter_cons_of_pos (by simpa using hid), List.filterMap_cons_some hop,
          List.filterMap_cons_some hop, List.filter_cons, List.filter_cons, ih]

theorem reached_of_dependsOn (hverify : verify f .ssa = true) (h : Swept f g gone)
  {block : IlBlock} (hblock : block ∈ g.blocks) (hop : op ∈ g.opsOf block) (hv : g.DependsOn op v) : v ∈ g.reached := by
  rw [mem_reached]
  cases hv with
  | read hreads => exact ⟨block, hblock, op, hop, hreads⟩
  | step hu hother hreads =>
    obtain ⟨b, id, before, info, -, -, -, -, hbefore, hid, hkept, hop', -⟩ :=
      h.of_definitionOf hverify hother
    obtain ⟨after, hafter, hop'⟩ := h.mem_opsOf hbefore hid hkept hop'
    exact ⟨after, hafter, _, hop', hreads⟩

theorem eliminates (hverify : verify f .ssa = true) (h : Swept f g gone)
  (hunread : Unread f g gone) : Eliminates f g := by
  refine ⟨fun b => ?_, fun b after hafter => ?_, fun block hblock op hop v hv info id => ?_,
    fun b before hbefore id hid => ?_⟩
  · rw [h.blocks]
    cases f.blocks[b]? with
    | none => rfl
    | some block =>
      rw [Option.map_some, Option.map_some, Option.map_some, h.opsOf, h.filter_observed]
      rfl
  · obtain ⟨before, hbefore, hsub, -⟩ := h.of_mem_block hafter
    exact ⟨before, hbefore, hsub⟩
  · intro hinfo hdef
    have hreached := h.reached_of_dependsOn hverify hblock hop hv
    obtain ⟨def_, b, before, hdefOp, hresult, -, -, hbefore, hid⟩ :=
      defined_of_verify hverify hinfo hdef
    have hkept : id ∉ gone := by
      intro hgone
      obtain ⟨b', v', hdead⟩ := h.undemanded id hgone
      obtain ⟨op', hop', hresult', -⟩ := hdead.op
      obtain rfl := Option.some.inj (hdefOp.symm.trans hop')
      obtain rfl := Option.some.inj (hresult.symm.trans hresult')
      exact hunread id hgone b' v hdead hreached
    have hout : gone.contains id = false := by simpa using hkept
    obtain ⟨after, hafter, hid⟩ := h.mem_block hbefore hid hkept
    refine ⟨?_, h.op_of_kept hkept, after, List.mem_of_getElem? hafter, hid⟩
    rw [h.values, hinfo, Option.map_some, hdef, Option.any_some, hout, if_neg Bool.false_ne_true]
  · by_cases hgone : id ∈ gone
    · obtain ⟨_, v, hdead⟩ := h.undemanded id hgone
      obtain ⟨op, hop, hresult, -⟩ := hdead.op
      exact .inr ⟨op, v, hop, hresult, hdead.undemanded⟩
    · exact .inl (h.mem_block hbefore hid hgone)

end Swept

/-! ## Elimination on demand, round by round -/

section Rounds

variable {f g : IlFunction} {gone : List Nat}

theorem mem_deadOps {needed : List Nat} {b id : Nat} : (b, id) ∈ g.deadOps needed ↔
  ∃ block, g.blocks[b]? = some block ∧ id ∈ block.ops ∧ g.isDead needed id = true := by
  unfold deadOps
  constructor
  · intro h
    obtain ⟨⟨block, b'⟩, hblock, h⟩ := List.mem_flatMap.mp h
    obtain ⟨id', hid, heq⟩ := List.mem_map.mp h
    obtain ⟨rfl, rfl⟩ := Prod.mk.inj heq
    obtain ⟨hid, hdead⟩ := List.mem_filter.mp hid
    exact ⟨block, List.mem_zipIdx_iff_getElem?.mp hblock, hid, hdead⟩
  · rintro ⟨block, hblock, hid, hdead⟩
    exact List.mem_flatMap.mpr ⟨(block, b), List.mem_zipIdx_iff_getElem?.mpr hblock,
      List.mem_map.mpr ⟨id, List.mem_filter.mpr ⟨hid, hdead⟩, rfl⟩⟩

theorem isDead_iff {needed : List Nat} {id : Nat} : g.isDead needed id = true ↔
  ∃ op v, g.ops[id]? = some op ∧ op.result = some v ∧ (op.code = .phi ∨ op.code = .load) ∧
    v ∉ needed := by
  unfold isDead
  cases g.ops[id]? with
  | none => simp
  | some op => cases hresult : op.result <;> simp [hresult, and_comm]

theorem map_snd_deadOps (needed : List Nat) :
  (g.deadOps needed).map Prod.snd = g.placed.filter (g.isDead needed) := by
  have hsnd : ∀ (b : Nat) (ops : List Nat), (ops.map fun id => (b, id)).map Prod.snd = ops := by
    intro b ops
    rw [List.map_map]
    exact List.map_id ops
  rw [deadOps, placed, List.map_flatMap, List.filter_flatMap]
  simp only [hsnd]
  have hfst := List.zipIdx_map_fst 0 g.blocks
  rw [← hfst, List.flatMap_map]
  rw [hfst]

namespace Swept

theorem placed_sublist (h : Swept f g gone) : g.placed.Sublist f.placed := by
  have hblocks : g.blocks = f.blocks.map fun block =>
      { block with ops := block.ops.filter fun id => !gone.contains id } := by
    refine List.ext_getElem? fun b => ?_
    rw [h.blocks, List.getElem?_map]
  rw [placed, placed, hblocks, List.flatMap_map, ← List.filter_flatMap]
  exact List.filter_sublist

variable {needed : List Nat} {id : Nat}

theorem undemanded_of_dead (hverify : verify f .ssa = true) (h : Swept f g gone) (hneeded : ∀ v, v ∈ needed ↔ g.Demanded v) {b : Nat}
  (hdead : (b, id) ∈ g.deadOps needed) : id ∉ gone ∧ ∃ v, f.Undemanded b id v := by
  obtain ⟨after, hafter, hid, hdead⟩ := mem_deadOps.mp hdead
  obtain ⟨op, v, hop, hresult, hcode, hv⟩ := isDead_iff.mp hdead
  obtain ⟨before, hbefore, hsub, hkept⟩ := h.of_mem_block hafter
  rw [hneeded, h.demanded_iff hverify] at hv
  rw [h.op_of_kept (hkept id hid)] at hop
  exact ⟨hkept id hid, v, ⟨before, hbefore, hsub.subset hid⟩, ⟨op, hop, hresult, hcode⟩, hv⟩

theorem nodup_dead (hverify : verify f .ssa = true) (h : Swept f g gone) (hneeded : ∀ v, v ∈ needed ↔ g.Demanded v) :
  ((g.deadOps needed).map Prod.snd).Nodup := by
  rw [List.nodup_iff_count]
  intro id
  by_cases hid : id ∈ (g.deadOps needed).map Prod.snd
  · obtain ⟨⟨b, id'⟩, hdead, rfl⟩ := List.mem_map.mp hid
    obtain ⟨-, v, hundemanded⟩ := h.undemanded_of_dead hverify hneeded hdead
    obtain ⟨block, hblock, hid⟩ := hundemanded.block
    obtain ⟨op, hop, hresult, -⟩ := hundemanded.op
    have hsub : ((g.deadOps needed).map Prod.snd).Sublist f.placed := by
      rw [map_snd_deadOps]
      exact List.filter_sublist.trans h.placed_sublist
    exact Nat.le_trans (hsub.count_le _) (count_placed hverify hblock hid hop hresult)
  · rw [List.count_eq_zero.mpr hid]
    exact Nat.zero_le 1

theorem removeOps (hverify : verify f .ssa = true) (dead : List (Nat × Nat))
  (hnodup : (dead.map Prod.snd).Nodup) (h : Swept f g gone)
  (hdead : ∀ op ∈ dead, op.2 ∉ gone ∧ ∃ v, f.Undemanded op.1 op.2 v) :
  ∃ g' gone', g.removeOps dead = some g' ∧ Swept f g' gone' ∧
    gone'.length = gone.length + dead.length := by
  induction dead generalizing g gone with
  | nil => exact ⟨g, gone, rfl, h, rfl⟩
  | cons op dead ih =>
    obtain ⟨hnot, hnodup⟩ := List.nodup_cons.mp hnodup
    obtain ⟨hkept, v, hundemanded⟩ := hdead op List.mem_cons_self
    obtain ⟨g₁, hg₁, h₁⟩ := h.removeOp hverify hundemanded hkept
    obtain ⟨g', gone', hg', h', hlength⟩ := ih hnodup h₁ fun other hother => by
      obtain ⟨hout, hrest⟩ := hdead other (List.mem_cons_of_mem op hother)
      refine ⟨fun hin => ?_, hrest⟩
      rcases List.mem_cons.mp hin with heq | hin
      · exact hnot (heq ▸ List.mem_map_of_mem hother)
      · exact hout hin
    refine ⟨g', gone', ?_, h', ?_⟩
    · rw [IlFunction.removeOps, List.foldlM_cons, hg₁]
      exact hg'
    · rw [hlength, List.length_cons, List.length_cons]
      omega

/-- Where nothing is dead, what is left reads demanded values only. -/
theorem unread_of_deadOps (hverify : verify f .ssa = true) (h : Swept f g gone) (hneeded : ∀ v, v ∈ needed ↔ g.Demanded v)
  (hdead : g.deadOps needed = []) : Unread f g gone := by
  intro id _ b v hundemanded hreached
  refine hundemanded.undemanded ((h.demanded_iff hverify).mp ?_)
  obtain ⟨after, hafter, op, hop, hreads⟩ := mem_reached.mp hreached
  obtain ⟨b', id', before, hbefore, hid', hkept, hop'⟩ := h.of_mem_opsOf hafter hop
  by_cases hobserved : op.code.observed = true
  · exact .root hafter hop hobserved hreads
  by_cases hcode : op.code = .phi ∨ op.code = .load
  · obtain ⟨u, hresult⟩ := result_of_verify hverify hbefore hid' hop' hcode
    have hu : u ∈ needed := by
      by_contra hu
      obtain ⟨after', hafter', hidAfter⟩ := h.mem_block hbefore hid' hkept
      have hin : (b', id') ∈ g.deadOps needed :=
        mem_deadOps.mpr ⟨after', hafter', hidAfter,
          isDead_iff.mpr ⟨op, u, (h.op_of_kept hkept).trans hop', hresult, hcode, hu⟩⟩
      rw [hdead] at hin
      cases hin
    have hdemanded := (hneeded u).mp hu
    obtain ⟨info, hinfo, hdefinition, -⟩ := recorded_of_verify hverify hbefore hid' hop' hresult
    refine .step hdemanded ?_ hreads
    rw [h.definitionOf_of_demanded hverify ((h.demanded_iff hverify).mp hdemanded), definitionOf,
      hinfo, Option.bind_some, hdefinition, Option.bind_some, hop']
  · have hnone := reads_of_verify hverify hbefore hid' hop' (by simpa using hobserved)
      (fun hphi => hcode (.inl hphi)) (fun hload => hcode (.inr hload))
    rw [hnone] at hreads
    cases hreads

theorem dce (hverify : verify f .ssa = true) {fuel : Nat} {any : Bool} (h : Swept f g gone)
  (hfuel : f.placed.length < fuel + gone.length) :
  ∃ g' any', dce fuel g any = some (g', any') ∧ Eliminates f g' := by
  induction fuel generalizing g gone any with
  | zero => exact absurd h.length_le (by omega)
  | succ fuel ih =>
    obtain ⟨needed, hsome, hneeded⟩ := @needed_demanded g
    rw [IlFunction.dce, hsome]
    dsimp only
    split
    · rename_i hdead
      exact ⟨g, any, rfl, h.eliminates hverify (h.unread_of_deadOps hverify hneeded hdead)⟩
    · rename_i hdead
      obtain ⟨g', gone', hg', h', hlength⟩ :=
        h.removeOps hverify (g.deadOps needed) (h.nodup_dead hverify hneeded)
          fun op hop => h.undemanded_of_dead hverify hneeded hop
      have hpos := List.length_pos_iff.mpr hdead
      rw [hg']
      exact ih h' (by omega)

/-! ## Orphans, round by round -/

theorem reached_subset {g' : IlFunction} (h : Swept f g gone)
  (h' : Swept f g' (id :: gone)) {v : Nat} (hv : v ∈ g'.reached) : v ∈ g.reached := by
  obtain ⟨after, hafter, op, hop, hreads⟩ := mem_reached.mp hv
  obtain ⟨b, id', before, hbefore, hid', hkept, hop⟩ := h'.of_mem_opsOf hafter hop
  obtain ⟨after', hafter', hop⟩ :=
    h.mem_opsOf hbefore hid' (fun hin => hkept (List.mem_cons_of_mem id hin)) hop
  exact mem_reached.mpr ⟨after', hafter', op, hop, hreads⟩

/-- A load whose result nothing reads is not demanded; what it read may become unread,
nothing else. -/
theorem removeOrphan (hverify : verify f .ssa = true) (h : Swept f g gone)
  (hunread : Unread f g gone) {v : Nat} {info : ValueInfo} {op : PoolOp}
  (hv : v ∉ g.reached) (hinfo : g.values[v]? = some info)
  (hdefinition : info.definition = some id) (hop : g.definitionOf v = some op)
  (hload : op.code = .load) :
  ∃ b g', info.block = some b ∧ g.removeOp b id = some g' ∧ Swept f g' (id :: gone) ∧
    Unread f g' (id :: gone) ∧ ∀ u ∈ g'.reached, u ∈ g.reached := by
  obtain ⟨b, id', block, info', -, hinfo', hdefinition', hb, hblock, hid, hkept, hopf, hresult⟩ :=
    h.of_definitionOf hverify hop
  obtain rfl := Option.some.inj (hinfo.symm.trans hinfo')
  obtain rfl := Option.some.inj (hdefinition.symm.trans hdefinition')
  have hundemanded : f.Undemanded b id v := ⟨⟨block, hblock, hid⟩, ⟨op, hopf, hresult, .inr hload⟩,
    fun hdemanded => hv (h.reached_of_demanded hverify hdemanded)⟩
  obtain ⟨g', hg', h'⟩ := h.removeOp hverify hundemanded hkept
  have hsubset : ∀ u ∈ g'.reached, u ∈ g.reached := fun u hu => h.reached_subset h' hu
  refine ⟨b, g', hb, hg', h', fun other hother b' u hu hreached => ?_, hsubset⟩
  rcases List.mem_cons.mp hother with rfl | hother
  · obtain ⟨op', hop', hresult', -⟩ := hu.op
    obtain rfl := Option.some.inj (hopf.symm.trans hop')
    obtain rfl := Option.some.inj (hresult.symm.trans hresult')
    exact hv (hsubset v hreached)
  · exact hunread other hother b' u hu (hsubset u hreached)

theorem removeUnread (hverify : verify f .ssa = true) {reached : List Nat} (candidates : List Nat)
  {next : List Nat} {removed : Bool} (h : Swept f g gone) (hunread : Unread f g gone)
  (hreached : ∀ v ∈ g.reached, v ∈ reached) :
  ∃ g' next' removed' gone',
    IlFunction.removeUnread reached candidates (g, next, removed) = some (g', next', removed') ∧
    Swept f g' gone' ∧ Unread f g' gone' ∧ gone.length ≤ gone'.length ∧
    (removed' = true → removed = true ∨ gone.length < gone'.length) := by
  induction candidates generalizing g gone next removed with
  | nil => exact ⟨g, next, removed, gone, rfl, h, hunread, Nat.le_refl _, .inl⟩
  | cons v rest ih =>
    rw [IlFunction.removeUnread]
    split
    · exact ih h hunread hreached
    · rename_i hout
      have hv : v ∉ g.reached := fun hin => hout (by simpa using hreached v hin)
      split
      · exact ih h hunread hreached
      · rename_i info hinfo
        split
        · rename_i id op hdefinition hop
          split
          · rename_i hload
            obtain ⟨b, g₁, hb, hg₁, h₁, hunread₁, hsubset⟩ :=
              h.removeOrphan hverify hunread hv hinfo hdefinition hop hload
            obtain ⟨g', next', removed', gone', hg', h', hunread', hle, -⟩ :=
              @ih g₁ (id :: gone) (next ++ op.reads) true h₁ hunread₁
                fun u hu => hreached u (hsubset u hu)
            rw [List.length_cons] at hle
            rw [hb]
            dsimp only
            rw [hg₁]
            exact ⟨g', next', removed', gone', hg', h', hunread', by omega,
              fun _ => .inr (by omega)⟩
          · exact ih h hunread hreached
        · exact ih h hunread hreached

theorem removeRounds (hverify : verify f .ssa = true) {fuel : Nat} {candidates : List Nat}
  (h : Swept f g gone) (hunread : Unread f g gone)
  (hfuel : f.placed.length < fuel + gone.length) :
  ∃ g', IlFunction.removeRounds fuel g candidates = some g' ∧ Eliminates f g' := by
  induction fuel generalizing g gone candidates with
  | zero => exact absurd h.length_le (by omega)
  | succ fuel ih =>
    rw [IlFunction.removeRounds]
    split
    · exact ⟨g, rfl, h.eliminates hverify hunread⟩
    · obtain ⟨g', next, removed, gone', hg', h', hunread', -, hgrew⟩ :=
        @removeUnread f g gone hverify g.reached (g.ascending candidates) [] false h hunread
          fun _ => id
      rw [hg']
      dsimp only
      split
      · rename_i hremoved
        have hlt := (hgrew hremoved).resolve_left Bool.false_ne_true
        exact ih h' hunread' (by omega)
      · exact ⟨g', rfl, h'.eliminates hverify hunread'⟩

end Swept

end Rounds

/-- **Dead code.**  Both eliminations end, without failing an assertion, in a function
where everything observed stands in its place, nothing that is left depends on a
definition that was removed, and nothing was removed that is demanded. -/
theorem elimination_exact (f : IlFunction) (hverify : verify f .ssa = true) {fuel : Nat}
    (hfuel : f.placed.length < fuel) :
    (∃ g any, dce fuel f false = some (g, any) ∧ Eliminates f g) ∧
      ∀ discardedTargets, ∃ g, f.removeOrphanedLoads fuel discardedTargets = some g ∧
        Eliminates f g :=
  ⟨(Swept.refl f).dce hverify hfuel, fun _ =>
    (Swept.refl f).removeRounds hverify (fun _ hid => nomatch hid) hfuel⟩

/-! ## An idle loop -/

def idleWord (n : U64) : Expr := .leaf .const (Ty.integer 64) n

def idleValue (v : Nat) : Expr := .leaf .value (Ty.integer 64) (BitVec.ofNat 64 v)

/-- A phi whose only use is itself and a load that nothing reads, beside a store. -/
def idleLoop : IlFunction where
  file := .empty
  nameOf _ := ""
  passCount := 1
  entryBlock := some 0
  blocks :=
    [⟨0x1000#64, 0x1004#64, [0], [1], [], false⟩,
     ⟨0x1004#64, 0x1010#64, [1, 2, 3, 4], [1], [0, 1], false⟩]
  ops :=
    [{ code := .branch, type := Ty.voidType, va := 0x1000#64, result := none, payload := 0
       operands := [], targets := [1], origin := 0 },
     { code := .phi, type := Ty.integer 64, va := 0x1004#64, result := some 0, payload := 0
       operands := [idleWord 0#64, idleValue 0], targets := [], origin := 0 },
     { code := .load, type := Ty.integer 64, va := 0x1004#64, result := some 1, payload := 0
       operands := [idleValue 0], targets := [], origin := 0 },
     { code := .store, type := Ty.integer 64, va := 0x1008#64, result := none, payload := 0
       operands := [idleWord 0#64, idleWord 0#64], targets := [], origin := 0 },
     { code := .branch, type := Ty.voidType, va := 0x100c#64, result := none, payload := 0
       operands := [], targets := [1], origin := 0 }]
  values := [⟨Ty.integer 64, some 1, some 1⟩, ⟨Ty.integer 64, some 2, some 1⟩]
  exprs := [idleWord 0#64, idleValue 0, idleValue 1]
  values_le := by
    show 2 ≤ 2 ^ 32
    decide
  operands_mem := by decide
  closed := by decide

/-- The store and the branches stay. -/
theorem elimination_exact_idleLoop :
    ∃ g, idleLoop.removeOrphanedLoads 6 [idleValue 1] = some g ∧ Eliminates idleLoop g :=
  (elimination_exact idleLoop (by decide) (by decide)).2 [idleValue 1]

example : (dce 6 idleLoop false).map (fun s => s.1.blocks.map IlBlock.ops) =
    some [[0], [3, 4]] := by
  decide

end IlFunction

end Xdec

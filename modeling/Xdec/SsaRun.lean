import Xdec.VerifiedBlocks

/-!
# Running a function in SSA form

The interpreter runs one block and has no case for a phi.  A run of a whole
function goes from block to block: the operations of a block are the
interpreter's, the phis of the block entered take their operands of the edge at
once, and a call comes back with whatever result and surroundings it has.
Values stay defined when a block is left; the registers are those of the entry,
for a function in SSA form has values in their place.

A value that is defined at some point of a run got its contents from its
definition at an earlier point (`SsaRun.arises`).
-/

namespace Xdec

structure SsaState (W : Type) where
  block : Nat
  /-- The operations of the block still to run. -/
  rest : List Op
  machine : Machine W

variable {W : Type}

/-- What expressions read in a state. -/
def SsaState.env (f : IlFunction) (host : HostFloat) (s : SsaState W) : Env :=
  ⟨host, s.machine.values, Interpreter.readRegister f.file s.machine.registers⟩

namespace IlFunction

def phisOf (f : IlFunction) (block : IlBlock) : List Op :=
  (f.blockOps block).takeWhile fun op => op.code == .phi

/-- The operations behind the phis. -/
def bodyOf (f : IlFunction) (block : IlBlock) : List Op :=
  (f.blockOps block).dropWhile fun op => op.code == .phi

end IlFunction

/-- The phis take their operands of edge `i`, all evaluated before the first is
set; one whose operand has no value has none. -/
def enterPhis (env : Env) (phis : List Op) (i : Nat) (v : Nat) : Option U128 :=
  match phis.find? fun phi => phi.result == some v with
  | some phi => phi.operands[i]?.bind fun arm => (eval env arm 0).toOption
  | none => env.value v

/-- The block a terminator goes on with. -/
inductive Takes (f : IlFunction) (env : Env) (op : Op) : Nat → Prop where
  | branch {t : Nat} (hcode : op.code = .branch) (ht : op.targets[0]? = some t) : Takes f env op t
  | condBranch {t : Nat} {condition : U128} (hcode : op.code = .condBranch)
      (hcondition : eval env (op.operand 0) 0 = .ok condition)
      (ht : op.targets[if condition.lo &&& 1#64 ≠ 0#64 then 0 else 1]? = some t) : Takes f env op t
  | indirectBranch {t : Nat} {target : U128} {block : IlBlock} (hcode : op.code = .indirectBranch)
      (htarget : eval env (op.operand 0) 0 = .ok target) (ht : t ∈ op.targets)
      (hblock : f.blocks[t]? = some block) (hva : block.va = target.lo) : Takes f env op t

inductive SsaStep (f : IlFunction) (host : HostFloat) (b : Backend W) :
    SsaState W → SsaState W → Prop where
  | op {s : SsaState W} {block : IlBlock} {op : Op} {rest : List Op} {m : Machine W}
      (hblock : f.blocks[s.block]? = some block) (hrest : s.rest = op :: rest)
      (hrun : Machine.runOp (f.blockContext host block) b.hooks s.machine op = (m, none)) :
      SsaStep f host b s ⟨s.block, rest, m⟩
  | call {s : SsaState W} {op : Op} {rest : List Op} {target : U128} (result : U128) (w : W)
      (hrest : s.rest = op :: rest) (hcode : op.code = .call)
      (htarget : eval (s.env f host) (op.operand 0) 0 = .ok target) :
      SsaStep f host b s ⟨s.block, rest, { s.machine with world := w }.define op.result result⟩
  | edge {s : SsaState W} {op : Op} {t i : Nat} {target : IlBlock} (hrest : s.rest = [op])
      (htakes : Takes f (s.env f host) op t) (htarget : f.blocks[t]? = some target)
      (hfrom : target.predecessors[i]? = some s.block) :
      SsaStep f host b s ⟨t, f.bodyOf target,
        { s.machine with values := enterPhis (s.env f host) (f.phisOf target) i }⟩

/-- The states of a run from the entry of the function, the last one first. -/
inductive SsaRun (f : IlFunction) (host : HostFloat) (b : Backend W) :
    List (SsaState W) → Prop where
  | start {entry : Nat} {block : IlBlock} (registers : Cells) (world : W)
      (hentry : f.entryBlock = some entry) (hblock : f.blocks[entry]? = some block) :
      SsaRun f host b [⟨entry, f.bodyOf block, ⟨registers, fun _ => none, world⟩⟩]
  | step {s s' : SsaState W} {past : List (SsaState W)} (hrun : SsaRun f host b (s :: past))
      (hstep : SsaStep f host b s s') : SsaRun f host b (s' :: s :: past)

/-- The expression is the value itself. -/
def Expr.Refers (e : Expr) (v : Nat) : Prop := e.op = .value ∧ e.immediate.toNat % 2 ^ 32 = v

/-- How `op` came to give its value `v` the contents `x`: a phi from an operand
other than `v` itself, a load from memory. -/
structure Arises (f : IlFunction) (host : HostFloat) (b : Backend W) (run : List (SsaState W))
    (op : Op) (v : Nat) (x : U128) : Prop where
  phi : op.code = .phi → ∃ s ∈ run, ∃ arm ∈ op.operands, ¬ arm.Refers v ∧
    eval (s.env f host) arm 0 = .ok x
  load : op.code = .load → ∃ s ∈ run, s.rest.head? = some op ∧
    ∃ a, eval (s.env f host) (op.operand 0) 0 = .ok a ∧
      b.read s.machine.world a.lo (op.type.bits / 8) = .ok x

section Runs

variable {f : IlFunction} {host : HostFloat} {b : Backend W} {run : List (SsaState W)}
  {s s' : SsaState W} {op : Op} {v : Nat} {x : U128}

theorem Arises.mono {run' : List (SsaState W)} (h : Arises f host b run op v x)
  (hsub : run ⊆ run') : Arises f host b run' op v x := by
  refine ⟨fun hcode => ?_, fun hcode => ?_⟩
  · obtain ⟨s, hs, harm⟩ := h.phi hcode
    exact ⟨s, hsub hs, harm⟩
  · obtain ⟨s, hs, hread⟩ := h.load hcode
    exact ⟨s, hsub hs, hread⟩

theorem Arises.other (hphi : op.code ≠ .phi) (hload : op.code ≠ .load) :
  Arises f host b run op v x :=
  ⟨fun h => absurd h hphi, fun h => absurd h hload⟩

theorem eval_of_machine_eval {c : BlockContext} {m : Machine W} {e : Expr}
  (h : m.eval c e = .ok x) : eval (m.env c) e 0 = .ok x := by
  unfold Machine.eval at h
  split at h
  · rename_i hv
    rw [hv, Except.ok.inj h]
  · cases h

theorem define_values {m : Machine W} {result : Option Nat} {contents : U128}
  (h : (m.define result contents).values v = some x) :
  m.values v = some x ∨ result = some v ∧ contents = x := by
  cases result with
  | none => exact .inl h
  | some r =>
    have h : Function.update m.values r (some contents) v = some x := h
    by_cases hr : v = r
    · subst hr
      rw [Function.update_self] at h
      exact .inr ⟨rfl, Option.some.inj h⟩
    · rw [Function.update_of_ne hr] at h
      exact .inl h

theorem Expr.Refers.value_eq {env : Env} {e : Expr} {depth : Nat} (he : e.Refers v)
  (h : eval env e depth = .ok x) : env.value v = some x := by
  obtain ⟨hop, hv⟩ := he
  rw [eval, evalAs_eq, evalEnter, evalNode] at h
  split at h
  · cases h
  · split at h
    · cases h
    · cases hargs : (e.operands.map (evalAs env)).mapM
          fun operand => operand e.op.readsFlags (depth + 1) with
      | error d =>
        rw [hargs] at h
        cases h
      | ok args =>
        rw [hargs] at h
        have happly : applyOp env e args = .ok x := h
        simp only [applyOp, hop, hv] at happly
        cases hvalue : env.value v with
        | none =>
          rw [hvalue] at happly
          cases happly
        | some y =>
          rw [hvalue] at happly
          exact congrArg some (Except.ok.inj happly)

/-- Where the operations of a state come from. -/
def SsaState.Within (f : IlFunction) (s : SsaState W) : Prop :=
  ∃ block, f.blocks[s.block]? = some block ∧ s.rest ⊆ f.blockOps block

theorem within_body {t : Nat} {block : IlBlock} {m : Machine W}
  (hblock : f.blocks[t]? = some block) :
  SsaState.Within f ⟨t, f.bodyOf block, m⟩ :=
  ⟨block, hblock, (List.dropWhile_suffix _).subset⟩

theorem SsaStep.within (h : SsaStep f host b s s') (hs : s.Within f) : s'.Within f := by
  obtain ⟨block, hblock, hsub⟩ := hs
  cases h with
  | op _ hrest _ =>
    rw [hrest] at hsub
    exact ⟨block, hblock, fun o ho => hsub (List.mem_cons_of_mem _ ho)⟩
  | call _ _ hrest _ _ =>
    rw [hrest] at hsub
    exact ⟨block, hblock, fun o ho => hsub (List.mem_cons_of_mem _ ho)⟩
  | edge _ _ htarget _ => exact within_body htarget

theorem SsaRun.within (h : SsaRun f host b run) : ∀ s ∈ run, s.Within f := by
  induction h with
  | start _ _ _ hblock =>
    intro s hs
    obtain rfl := List.mem_singleton.mp hs
    exact within_body hblock
  | step _ hstep ih =>
    intro s hs
    rcases List.mem_cons.mp hs with rfl | hs
    · exact hstep.within (ih _ (List.mem_cons_self ..))
    · exact ih s hs

/-- What an operation of the interpreter leaves in the values. -/
theorem runOp_arises {block : IlBlock} {rest : List Op} {m : Machine W} (hs : s ∈ run)
  (hrest : s.rest = op :: rest)
  (h : Machine.runOp (f.blockContext host block) b.hooks s.machine op = (m, none))
  (hv : m.values v = some x) :
  s.machine.values v = some x ∨ op.result = some v ∧ Arises f host b run op v x := by
  have hnot : op.code ≠ .phi := by
    intro hcode
    rw [Machine.runOp, hcode] at h
    cases h
  obtain ⟨eff, w, hhas, rfl, -⟩ := (Machine.runOp_succeeds h (by rintro _ ⟨⟩)).effect
  cases hhas with
  | snapshot hcode =>
    rcases define_values hv with hold | ⟨hresult, -⟩
    · exact .inl hold
    · exact .inr ⟨hresult, .other hnot (by rw [hcode]; decide)⟩
  | load hcode ha hread =>
    rcases define_values hv with hold | ⟨hresult, rfl⟩
    · exact .inl hold
    · exact .inr ⟨hresult, fun h => absurd h hnot,
        fun _ => ⟨s, hs, by rw [hrest]; rfl, _, eval_of_machine_eval ha, hread⟩⟩
  | intrinsic hcode =>
    rcases define_values hv with hold | ⟨hresult, -⟩
    · exact .inl hold
    · exact .inr ⟨hresult, .other hnot (by rw [hcode]; decide)⟩
  | write _ _ => exact .inl hv
  | stopped _ => exact .inl hv
  | none _ => exact .inl hv

/-- **Provenance.**  What a value holds it was given by an operation of the
function at some point of the run. -/
theorem SsaRun.arises (h : SsaRun f host b run) :
  ∀ s ∈ run, ∀ v x, s.machine.values v = some x →
    ∃ block ∈ f.blocks, ∃ op ∈ f.blockOps block, op.result = some v ∧
      Arises f host b run op v x := by
  induction h with
  | start _ _ _ _ =>
    intro s hs v x hv
    obtain rfl := List.mem_singleton.mp hs
    cases hv
  | @step s s' past hrun hstep ih =>
    have hlift : ∀ v x, s.machine.values v = some x →
        ∃ block ∈ f.blocks, ∃ op ∈ f.blockOps block, op.result = some v ∧
          Arises f host b (s' :: s :: past) op v x := by
      intro v x hv
      obtain ⟨block, hblock, op, hop, hresult, harises⟩ := ih s (List.mem_cons_self ..) v x hv
      exact ⟨block, hblock, op, hop, hresult, harises.mono (List.subset_cons_self ..)⟩
    have hmem : s ∈ s' :: s :: past := List.mem_cons_of_mem _ (List.mem_cons_self ..)
    obtain ⟨block, hblock, hsub⟩ := hrun.within s (List.mem_cons_self ..)
    have hmemBlock : block ∈ f.blocks := List.mem_of_getElem? hblock
    intro s₁ hs₁ v x hv
    rcases List.mem_cons.mp hs₁ with rfl | hs₁
    · cases hstep with
      | op _ hrest hrunOp =>
        rcases runOp_arises hmem hrest hrunOp hv with hold | ⟨hresult, harises⟩
        · exact hlift v x hold
        · exact ⟨block, hmemBlock, _, hsub (hrest ▸ List.mem_cons_self ..), hresult, harises⟩
      | call result w hrest hcode _ =>
        rcases define_values hv with hold | ⟨hresult, -⟩
        · exact hlift v x hold
        · exact ⟨block, hmemBlock, _, hsub (hrest ▸ List.mem_cons_self ..), hresult,
            .other (by rw [hcode]; decide) (by rw [hcode]; decide)⟩
      | @edge op t i target hrest _ htarget _ =>
        have hv : enterPhis (s.env f host) (f.phisOf target) i v = some x := hv
        unfold enterPhis at hv
        split at hv
        · rename_i phi hfind
          have hphi :=
            List.all_eq_true.mp List.all_takeWhile phi (List.mem_of_find?_eq_some hfind)
          have hresult : phi.result = some v := by
            simpa using List.find?_some hfind
          obtain ⟨arm, harm, heval⟩ := Option.bind_eq_some_iff.mp hv
          have heval : eval (s.env f host) arm 0 = .ok x := by
            cases h : eval (s.env f host) arm 0 with
            | error d =>
              rw [h] at heval
              cases heval
            | ok y =>
              rw [h] at heval
              exact congrArg Except.ok (Option.some.inj heval)
          by_cases hself : arm.Refers v
          · -- The phi keeps what it holds.
            exact hlift v x (hself.value_eq heval)
          · refine ⟨target, List.mem_of_getElem? htarget, phi,
              (List.takeWhile_prefix _).subset (List.mem_of_find?_eq_some hfind), hresult, ?_⟩
            refine ⟨fun _ => ⟨s, hmem, arm, List.mem_of_getElem? harm, hself, heval⟩, ?_⟩
            intro hload
            rw [hload] at hphi
            cases hphi
        · exact hlift v x hv
    · obtain ⟨block, hblock, op, hop, hresult, harises⟩ := ih s₁ hs₁ v x hv
      exact ⟨block, hblock, op, hop, hresult, harises.mono (List.subset_cons_self ..)⟩

end Runs

/-! ## Verified functions -/

section Verified

open Verifier

variable {f : IlFunction} {level : Maturity} {blockId : Nat} {block : IlBlock}

theorem checkOp_of_checkSequence {ids : List Nat} {seenPhiEnd : Bool} {id : Nat}
  (h : checkSequence f level blockId seenPhiEnd ids = true) (hid : id ∈ ids) :
  ∃ op, f.ops[id]? = some op ∧ checkOp f level blockId op = true := by
  induction ids generalizing seenPhiEnd with
  | nil => cases hid
  | cons first rest ih =>
    cases hop : f.ops[first]? with
    | none => simp [checkSequence, hop] at h
    | some op =>
      simp only [checkSequence, hop, Bool.and_eq_true] at h
      obtain ⟨⟨-, hcheck⟩, hrest⟩ := h
      rcases List.mem_cons.mp hid with rfl | hid
      · exact ⟨op, hop, hcheck⟩
      · exact ih hrest hid

/-- What the verifier demands of an operation in a block. -/
theorem checkOpCode_of_verify (hverify : verify f level = true)
  (hblock : f.blocks[blockId]? = some block) {op : Op} (hop : op ∈ f.blockOps block) :
  checkOpCode f level blockId op = true := by
  simp only [verify, checkBlocks, Bool.and_eq_true] at hverify
  obtain ⟨⟨⟨-, -, hblocks⟩, -⟩, -⟩ := hverify
  have hcheck := of_blocks hblocks hblock
  obtain ⟨pool, hpool, rfl⟩ := List.mem_map.mp hop
  obtain ⟨id, hid, hget⟩ := List.mem_filterMap.mp hpool
  unfold checkBlock at hcheck
  split at hcheck
  · rename_i hempty
    rw [List.isEmpty_iff.mp hempty] at hid
    cases hid
  · obtain ⟨op, hop, hcheckOp⟩ := checkOp_of_checkSequence hcheck hid
    obtain rfl := Option.some.inj (hget.symm.trans hop)
    simp only [checkOp, Bool.and_eq_true] at hcheckOp
    exact hcheckOp.1.2

/-- A value is defined by the operation recorded for it, which has its type. -/
theorem definition_of_verify (hverify : verify f level = true)
  (hblock : f.blocks[blockId]? = some block) {op : Op} (hop : op ∈ f.blockOps block) {v : Nat}
  (hv : op.result = some v) :
  ∃ info id pool, f.values[v]? = some info ∧ info.definition = some id ∧
    f.ops[id]? = some pool ∧ pool.toOp = op ∧ info.type = op.type := by
  simp only [verify, checkValues, Bool.and_eq_true] at hverify
  obtain ⟨⟨-, ⟨hdefs, -⟩, -⟩, -⟩ := hverify
  have hdef := of_blocks hdefs hblock
  obtain ⟨pool, hpool, rfl⟩ := List.mem_map.mp hop
  obtain ⟨id, hid, hget⟩ := List.mem_filterMap.mp hpool
  have hcheck := List.all_eq_true.mp hdef id hid
  simp only [hget, Option.all_some, checkDefinition, hv] at hcheck
  cases hinfo : f.values[v]? with
  | none => simp [hinfo] at hcheck
  | some info =>
    simp only [hinfo, Bool.and_eq_true, beq_iff_eq] at hcheck
    exact ⟨info, id, pool, rfl, hcheck.1.1, hget, rfl, hcheck.2⟩

end Verified

end Xdec

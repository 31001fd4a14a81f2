import Xdec.StackAlias
import Xdec.StackMemory

/-!
# Loads that are printed where they are read

A load whose readers all follow it in its block, with nothing between that may
write its bytes, needs no variable: `findFoldableStackLoads` and
`findFoldableMemoryLoads` find these loads, and `ExprPrinter::value` spells the
access in place of the value.  A reader can be such a load itself, which is then
printed with its address further down.

The searches compare a load with its own readers only.  That is enough: a load
that reads a value has an address no alias answer is given for, so nothing at all
is written between it and its own readers (`PrintedAt.untouched`).
-/

namespace Xdec

/-! ## Readers -/

/-- The values an operation reads. -/
def Op.valueLeaves (op : Op) : List Nat := op.operands.flatMap (Expr.leaves .value)

structure ValueUseSite where
  block : Nat
  op : Nat
deriving DecidableEq

/-- `collectValueUses`: the operations that read the value. -/
def valueSites (f : IlFunction) (v : Nat) : List ValueUseSite :=
  f.blocks.zipIdx.flatMap fun (block, blockId) =>
    (block.ops.filter fun opId => (f.ops[opId]?).any fun op => op.valueLeaves.contains v).map
      fun opId => ⟨blockId, opId⟩

namespace LoadInline

section Searches

variable (f : IlFunction) (deadOps : List Nat)

/-- The positions of the readers that print, when all are behind the load in its block. -/
def liveUseIndices (blockId : Nat) (ops : List Nat) (loadIndex : Nat) :
    List ValueUseSite → Option (List Nat)
  | [] => some []
  | site :: rest =>
    if site.op ∈ deadOps then liveUseIndices blockId ops loadIndex rest
    else if site.block ≠ blockId then none
    else if site.op ∉ ops ∨ ops.idxOf site.op ≤ loadIndex then none
    else (liveUseIndices blockId ops loadIndex rest).map (ops.idxOf site.op :: ·)

/-- Whether the operation could overwrite the bytes. -/
def clobbers (loadAddress : Expr) (loadWidth : Nat) (op : Op) : Bool :=
  match op.code with
  | .store =>
    StackFrame.mayAlias f loadAddress (BitVec.ofNat 32 loadWidth) (op.operand 0)
      (BitVec.ofNat 32 (op.type.bits / 8)) != .no
  -- Opaque effects.
  | .call | .intrinsic | .unimplemented => true
  | _ => false

def clobberedBetween (ops : List Nat) (loadIndex useIndex : Nat) (loadAddress : Expr)
    (loadWidth : Nat) : Bool :=
  ((ops.take useIndex).drop (loadIndex + 1)).any fun opId =>
    (f.ops[opId]?).any fun op => clobbers f loadAddress loadWidth op.toOp

/-- Whether the value is the address of the access. -/
def isAddressOperand (useOp : Op) (result : Nat) : Bool :=
  (useOp.code == .load || useOp.code == .store) &&
    useOp.operands.head?.any fun address => address.op == .value && address.handle == result

/-- What both searches ask for: a reader that prints, all of them behind the load
in its block, and its bytes untouched in front of each. -/
def isFresh (blockId : Nat) (ops : List Nat) (loadIndex : Nat) (load : Op) (result : Nat) : Bool :=
  match liveUseIndices deadOps blockId ops loadIndex (valueSites f result) with
  | none => false
  | some uses =>
    !uses.isEmpty && uses.all fun useIndex =>
      !clobberedBetween f ops loadIndex useIndex (load.operand 0) (load.type.bits / 8)

structure FoldableStackLoad where
  delta : Int
  width : Nat
  usedAsAddress : Bool
deriving DecidableEq

structure FoldableMemoryLoad where
  address : Expr
  width : Nat
deriving DecidableEq

def foldableStackLoad (blockId : Nat) (ops : List Nat) (loadIndex : Nat) (load : Op) :
    Option FoldableStackLoad :=
  match load.result, StackFrame.classify f (load.operand 0) with
  | some result, .stackSlot delta =>
    if load.code = .load ∧ isFresh f deadOps blockId ops loadIndex load result = true then
      some
        { delta := delta
          width := load.type.bits
          usedAsAddress := (valueSites f result).all fun site =>
            decide (site.op ∈ deadOps) ||
              (f.ops[site.op]?).any fun op => isAddressOperand op.toOp result }
    else none
  | _, _ => none

def foldableMemoryLoad (blockId : Nat) (ops : List Nat) (loadIndex : Nat) (load : Op) :
    Option FoldableMemoryLoad :=
  match load.result, StackFrame.classify f (load.operand 0) with
  | _, .stackSlot _ => none
  | none, _ => none
  | some result, _ =>
    if load.code = .load ∧ isFresh f deadOps blockId ops loadIndex load result = true ∧
        ((valueSites f result).any fun site =>
          decide (site.op ∉ deadOps) &&
            (f.ops[site.op]?).any fun op => isAddressOperand op.toOp result) = false then
      some ⟨load.operand 0, load.type.bits⟩
    else none

/-- The loop of a search over the operations of the blocks. -/
def findLoads {α : Type} (foldable : Nat → List Nat → Nat → Op → Option α) : List (Nat × α) :=
  f.blocks.zipIdx.flatMap fun (block, blockId) =>
    (List.range block.ops.length).filterMap fun loadIndex =>
      block.ops[loadIndex]?.bind fun loadOpId =>
        (f.ops[loadOpId]?).bind fun load =>
          (foldable blockId block.ops loadIndex load.toOp).map fun found => (loadOpId, found)

def findFoldableStackLoads : List (Nat × FoldableStackLoad) :=
  findLoads f (foldableStackLoad f deadOps)

def findFoldableMemoryLoads : List (Nat × FoldableMemoryLoad) :=
  findLoads f (foldableMemoryLoad f deadOps)

/-- The stack loads that have a text, in `prepareEmitRedundancy`. -/
def appliedStackLoads (filter : Nat → FoldableStackLoad → Bool) : List Nat :=
  ((findFoldableStackLoads f deadOps).filter fun (opId, load) => filter opId load).map Prod.fst

/-- What `prepareEmitRedundancy` has found after both searches; the second takes the
stack loads of the first that are applied for dead. -/
def acceptedLoads (filter : Nat → FoldableStackLoad → Bool) : List Nat :=
  (findFoldableStackLoads f deadOps).map Prod.fst ++
    (findFoldableMemoryLoads f (deadOps ++ appliedStackLoads f deadOps filter)).map Prod.fst

end Searches

/-- Where the text for a value stands: at an operation that prints and reads it,
and where a load that reads it and is not printed itself is. -/
inductive PrintedAt (f : IlFunction) (deadOps inlined : List Nat) : Nat → Nat → Nat → Prop where
  | reader {v blockId index opId : Nat} {block : IlBlock} {op : PoolOp}
      (hblock : f.blocks[blockId]? = some block) (hindex : block.ops[index]? = some opId)
      (hop : f.ops[opId]? = some op) (hlive : opId ∉ deadOps) (hreads : v ∈ op.valueLeaves) :
      PrintedAt f deadOps inlined v blockId index
  | through {v w blockId index opId blockId' index' : Nat} {block : IlBlock} {op : PoolOp}
      (hblock : f.blocks[blockId]? = some block) (hindex : block.ops[index]? = some opId)
      (hop : f.ops[opId]? = some op) (hlive : opId ∉ deadOps) (hreads : v ∈ op.valueLeaves)
      (hinlined : opId ∈ inlined) (hresult : op.result = some w)
      (hprinted : PrintedAt f deadOps inlined w blockId' index') :
      PrintedAt f deadOps inlined v blockId' index'

end LoadInline

/-! ## Functions in SSA form -/

/-- The operation does not read what the other defines; a phi reads on the edges. -/
def Op.Avoids (op other : Op) : Prop :=
  op.code ≠ .phi → ∀ v ∈ other.result.toList, v ∉ op.valueLeaves

instance (op other : Op) : Decidable (op.Avoids other) := by
  unfold Op.Avoids
  infer_instance

/-- An operation is at one place and reads no value of its own nor of a later operation
of its block, and registers that are written have values in place of their contents
at entry. -/
structure SsaForm (f : IlFunction) : Prop where
  verified : verify f .ssa = true
  nodup : ∀ block ∈ f.blocks, block.ops.Nodup
  ordered : ∀ block ∈ f.blocks, (f.blockOps block).Pairwise Op.Avoids
  irreflexive : ∀ block ∈ f.blocks, ∀ op ∈ f.blockOps block, op.Avoids op
  entries : ∀ block ∈ f.blocks, ∀ op ∈ f.blockOps block, op.code = .writeReg →
    ∀ e ∈ f.exprs, ∀ r ∈ e.leaves .entryReg, ∀ cells value,
      Interpreter.readRegister f.file (Interpreter.writeRegister f.file cells op.reg value) r =
        Interpreter.readRegister f.file cells r

variable {W : Type}

/-- The operation at the position is the next of the block. -/
def SsaState.At (f : IlFunction) (s : SsaState W) (blockId index : Nat) : Prop :=
  s.block = blockId ∧ ∃ block, f.blocks[blockId]? = some block ∧
    index ≤ (f.blockOps block).length ∧ s.rest = (f.blockOps block).drop index

/-- The alias answers are right in a state: what cannot alias has no byte in common. -/
def SoundAliases (f : IlFunction) (host : HostFloat) (s : SsaState W) : Prop :=
  ∀ block ∈ f.blocks, ∀ load ∈ f.blockOps block, ∀ store ∈ f.blockOps block,
    load.code = .load → store.code = .store →
    StackFrame.mayAlias f (load.operand 0) (BitVec.ofNat 32 (load.type.bits / 8))
      (store.operand 0) (BitVec.ofNat 32 (store.type.bits / 8)) = .no →
    ∀ a b, eval (s.env f host) (load.operand 0) 0 = .ok a →
      eval (s.env f host) (store.operand 0) 0 = .ok b →
      Disjoint (bytesAt a.lo (load.type.bits / 8)) (bytesAt b.lo (store.type.bits / 8))

/-! ## What is found -/

namespace LoadInline

variable {f : IlFunction} {deadOps ops uses : List Nat} {sites : List ValueUseSite}
  {site : ValueUseSite} {blockId loadIndex useIndex v : Nat} {block : IlBlock} {address : Expr}
  {width : Nat}

theorem mem_valueSites {index opId : Nat} {op : PoolOp} (hblock : f.blocks[blockId]? = some block)
  (hindex : block.ops[index]? = some opId) (hop : f.ops[opId]? = some op)
  (hreads : v ∈ op.valueLeaves) : ⟨blockId, opId⟩ ∈ valueSites f v := by
  refine List.mem_flatMap.mpr ⟨(block, blockId), List.mem_zipIdx_iff_getElem?.mpr hblock, ?_⟩
  refine List.mem_map.mpr ⟨opId, List.mem_filter.mpr ⟨List.mem_of_getElem? hindex, ?_⟩, rfl⟩
  simpa [hop] using hreads

theorem liveUseIndices_spec (h : liveUseIndices deadOps blockId ops loadIndex sites = some uses)
  (hsite : site ∈ sites) (hlive : site.op ∉ deadOps) :
  site.block = blockId ∧ site.op ∈ ops ∧ loadIndex < ops.idxOf site.op ∧
    ops.idxOf site.op ∈ uses := by
  induction sites generalizing uses with
  | nil => cases hsite
  | cons first rest ih =>
    rw [liveUseIndices] at h
    split at h
    · rename_i hdead
      rcases List.mem_cons.mp hsite with rfl | hrest
      · exact absurd hdead hlive
      · exact ih h hrest
    · split at h
      · cases h
      · split at h
        · cases h
        · rename_i hblock hplace
          obtain ⟨others, hothers, rfl⟩ := Option.map_eq_some_iff.mp h
          obtain ⟨hmem, hlate⟩ := not_or.mp hplace
          rcases List.mem_cons.mp hsite with rfl | hrest
          · exact ⟨not_not.mp hblock, not_not.mp hmem, by omega, List.mem_cons_self ..⟩
          · obtain ⟨hsame, hin, hbehind, hused⟩ := ih hothers hrest
            exact ⟨hsame, hin, hbehind, List.mem_cons_of_mem _ hused⟩

theorem clobberedBetween_eq_false :
  clobberedBetween f ops loadIndex useIndex address width = false ↔
    ∀ index, loadIndex < index → index < useIndex → ∀ opId op, ops[index]? = some opId →
      f.ops[opId]? = some op → clobbers f address width op.toOp = false := by
  unfold clobberedBetween
  rw [List.any_eq_false]
  constructor
  · intro h index hlow hhigh opId op hindex hop
    have hmem : opId ∈ (ops.take useIndex).drop (loadIndex + 1) := by
      refine List.mem_iff_getElem?.mpr ⟨index - (loadIndex + 1), ?_⟩
      rw [List.getElem?_drop, List.getElem?_take_of_lt (by omega), ← hindex]
      congr 1
      omega
    simpa [hop] using h opId hmem
  · intro h opId hmem
    obtain ⟨n, hn⟩ := List.mem_iff_getElem?.mp hmem
    rw [List.getElem?_drop] at hn
    have hlt : loadIndex + 1 + n < useIndex := by
      have hlength := (List.getElem?_eq_some_iff.mp hn).1
      rw [List.length_take] at hlength
      omega
    rw [List.getElem?_take_of_lt hlt] at hn
    cases hop : f.ops[opId]? with
    | none => simp
    | some op => simpa using h _ (by omega) hlt opId op hn hop

/-! ### Addresses that read a value -/

section Addresses

variable {e : Expr} {delta : Int} {depth : Nat}

theorem leaves_of_asConstant {c : U64} (hverified : e.verified f.ctx = true)
  (h : e.asConstant = some c) : e.leaves .value = [] := by
  unfold Expr.asConstant at h
  split at h
  · rename_i hop
    have hnode := (Expr.verified_iff.mp hverified).1
    simp only [Expr.nodeVerified, Bool.and_eq_true, decide_eq_true_eq] at hnode
    have hnone : e.operands = [] := by
      simpa [hop, ExprOp.info, Expr.operandCount] using hnode.1.1.1.2
    rw [Expr.leaves_eq, hop, hnone]
    rfl
  · cases h

/-- A chain of constants over the stack pointer reads no value. -/
theorem leaves_of_frameDelta (hverified : e.verified f.ctx = true)
  (h : StackFrame.frameDelta f depth e = some delta) : e.leaves .value = [] := by
  induction depth generalizing e delta with
  | zero => cases h
  | succ depth ih =>
    obtain ⟨-, hoperands⟩ := Expr.verified_iff.mp hverified
    have hconstant : ∀ {x c}, x ∈ e.operands → x.asConstant = some c → x.leaves .value = [] :=
      fun hx hc => leaves_of_asConstant (hoperands _ hx) hc
    have hsides : ∀ {lhs rhs}, e.operands = [lhs, rhs] → e.op ≠ .value →
        lhs.leaves .value = [] → rhs.leaves .value = [] → e.leaves .value = [] := by
      intro lhs rhs hargs hop hl hr
      rw [Expr.leaves_eq, if_neg hop, hargs]
      simp [hl, hr]
    rw [StackFrame.frameDelta] at h
    split at h
    · rename_i hop
      have hnone := (Expr.shaped_of_verified hverified).node.leaf (.inr hop)
      rw [Expr.leaves_eq, hop, hnone]
      rfl
    · rename_i lhs rhs hop hargs
      have hlhs : lhs ∈ e.operands := by simp [hargs]
      have hrhs : rhs ∈ e.operands := by simp [hargs]
      rw [Option.orElse_eq_orElse, Option.orElse_eq_or, Option.or_eq_some_iff] at h
      rcases h with h | ⟨-, h⟩
      · obtain ⟨constant, hconst, h⟩ := Option.bind_eq_some_iff.mp h
        obtain ⟨inner, hinner, rfl⟩ := Option.map_eq_some_iff.mp h
        exact hsides hargs (by simp [hop]) (ih (hoperands lhs hlhs) hinner)
          (hconstant hrhs hconst)
      · obtain ⟨constant, hconst, h⟩ := Option.bind_eq_some_iff.mp h
        obtain ⟨inner, hinner, rfl⟩ := Option.map_eq_some_iff.mp h
        exact hsides hargs (by simp [hop]) (hconstant hlhs hconst)
          (ih (hoperands rhs hrhs) hinner)
    · rename_i lhs rhs hop hargs
      have hlhs : lhs ∈ e.operands := by simp [hargs]
      have hrhs : rhs ∈ e.operands := by simp [hargs]
      obtain ⟨constant, hconst, h⟩ := Option.bind_eq_some_iff.mp h
      obtain ⟨inner, hinner, rfl⟩ := Option.map_eq_some_iff.mp h
      exact hsides hargs (by simp [hop]) (ih (hoperands lhs hlhs) hinner)
        (hconstant hrhs hconst)
    · cases h

/-- No alias answer is given for an address that reads a value. -/
theorem classify_of_reads (hverified : e.verified f.ctx = true) (hreads : v ∈ e.leaves .value) :
  StackFrame.classify f e = .other := by
  unfold StackFrame.classify
  split
  · rename_i delta hdelta
    rw [leaves_of_frameDelta hverified hdelta] at hreads
    cases hreads
  · split
    · rename_i constant hconstant
      rw [leaves_of_asConstant hverified hconstant] at hreads
      cases hreads
    · rfl

end Addresses

/-! ### Loads that are found -/

theorem address_of_load {level : Maturity} (hverify : verify f level = true)
  (hblock : f.blocks[blockId]? = some block) {load : Op} (hload : load ∈ f.blockOps block)
  (hcode : load.code = .load) :
  load.operands = [load.operand 0] ∧ (load.operand 0).verified f.ctx = true := by
  have hcheck := checkOpCode_of_verify hverify hblock hload
  simp only [Verifier.checkOpCode, hcode, Verifier.expectOperands, Bool.and_eq_true,
    beq_iff_eq] at hcheck
  obtain ⟨e, he⟩ := List.length_eq_one_iff.mp hcheck.1
  have hoperand : load.operand 0 = e := by simp [Op.operand, he]
  rw [hoperand]
  refine ⟨he, ?_⟩
  obtain ⟨pool, hpool, rfl⟩ := List.mem_map.mp hload
  obtain ⟨id, -, hget⟩ := List.mem_filterMap.mp hpool
  refine Verifier.verified_of_checkExpressions (Verifier.checkExpressions_of_verify hverify) ?_
  exact f.operands_mem pool (List.mem_of_getElem? hget) e (by simp [he])

/-- The operation at a place of a block. -/
structure Placed (f : IlFunction) (blockId index opId : Nat) (block : IlBlock) (op : PoolOp) :
    Prop where
  hblock : f.blocks[blockId]? = some block
  hindex : block.ops[index]? = some opId
  hop : f.ops[opId]? = some op

theorem Placed.mem_blockOps {index opId : Nat} {op : PoolOp}
  (h : Placed f blockId index opId block op) : op.toOp ∈ f.blockOps block :=
  List.mem_map_of_mem (List.mem_filterMap.mpr ⟨opId, List.mem_of_getElem? h.hindex, h.hop⟩)

/-- A load one of the searches finds. -/
structure Found (f : IlFunction) (deadOps : List Nat) (blockId index opId : Nat) (block : IlBlock)
    (load : PoolOp) (v : Nat) : Prop extends Placed f blockId index opId block load where
  code : load.code = .load
  result : load.result = some v
  fresh : isFresh f deadOps blockId block.ops index load.toOp v = true

section Founds

variable {index opId : Nat} {load op : PoolOp} {filter : Nat → FoldableStackLoad → Bool}

theorem mem_findLoads {α : Type} {foldable : Nat → List Nat → Nat → Op → Option α} {found : α}
  (h : (opId, found) ∈ findLoads f foldable) :
  ∃ blockId index block load, Placed f blockId index opId block load ∧
    foldable blockId block.ops index load.toOp = some found := by
  obtain ⟨⟨block, blockId⟩, hblock, h⟩ := List.mem_flatMap.mp h
  obtain ⟨index, -, h⟩ := List.mem_filterMap.mp h
  obtain ⟨loadOpId, hindex, h⟩ := Option.bind_eq_some_iff.mp h
  obtain ⟨load, hop, h⟩ := Option.bind_eq_some_iff.mp h
  obtain ⟨found', hfound, heq⟩ := Option.map_eq_some_iff.mp h
  obtain ⟨rfl, rfl⟩ := Prod.mk.inj heq
  exact ⟨blockId, index, block, load, ⟨List.mem_zipIdx_iff_getElem?.mp hblock, hindex, hop⟩, hfound⟩

theorem found_of_stack (h : opId ∈ (findFoldableStackLoads f deadOps).map Prod.fst) :
  ∃ blockId index block load v delta, Found f deadOps blockId index opId block load v ∧
    StackFrame.classify f (load.operand 0) = .stackSlot delta := by
  obtain ⟨⟨_, found⟩, hmem, rfl⟩ := List.mem_map.mp h
  obtain ⟨blockId, index, block, load, hplaced, hfold⟩ := mem_findLoads hmem
  unfold foldableStackLoad at hfold
  split at hfold
  · rename_i result delta hresult hslot
    split at hfold
    · rename_i hfresh
      exact ⟨blockId, index, block, load, result, delta,
        ⟨hplaced, hfresh.1, hresult, hfresh.2⟩, hslot⟩
    · cases hfold
  · cases hfold

theorem found_of_memory (h : opId ∈ (findFoldableMemoryLoads f deadOps).map Prod.fst) :
  ∃ blockId index block load v, Found f deadOps blockId index opId block load v := by
  obtain ⟨⟨_, found⟩, hmem, rfl⟩ := List.mem_map.mp h
  obtain ⟨blockId, index, block, load, hplaced, hfold⟩ := mem_findLoads hmem
  unfold foldableMemoryLoad at hfold
  split at hfold
  · cases hfold
  · cases hfold
  · rename_i result hresult hslot
    split at hfold
    · rename_i hfresh
      exact ⟨blockId, index, block, load, result, hplaced, hfresh.1, hresult, hfresh.2.1⟩
    · cases hfold

variable {blockId' index' opId' : Nat} {block' : IlBlock} {level : Maturity}

/-- Every reader that prints is behind the load, and the bytes are untouched between. -/
theorem Found.reader
  (hfound : Found f deadOps blockId index opId block load v) (hnodup : block.ops.Nodup)
  (hplaced : Placed f blockId' index' opId' block' op) (hlive : opId' ∉ deadOps)
  (hreads : v ∈ op.valueLeaves) :
  blockId' = blockId ∧ block' = block ∧ index < index' ∧
    clobberedBetween f block.ops index index' (load.operand 0) (load.type.bits / 8) = false := by
  have hfresh := hfound.fresh
  unfold isFresh at hfresh
  split at hfresh
  · cases hfresh
  · rename_i uses huses
    simp only [Bool.and_eq_true, List.all_eq_true, Bool.not_eq_true'] at hfresh
    obtain ⟨rfl, hmem, hlate, hused⟩ := liveUseIndices_spec huses
      (mem_valueSites hplaced.hblock hplaced.hindex hplaced.hop hreads) hlive
    obtain rfl : block' = block := Option.some.inj (hplaced.hblock.symm.trans hfound.hblock)
    obtain ⟨hlt, hget⟩ := List.getElem?_eq_some_iff.mp hplaced.hindex
    have hplace : block'.ops.idxOf opId' = index' := by
      rw [← hget]
      exact hnodup.idxOf_getElem index' hlt
    rw [hplace] at hlate hused
    exact ⟨rfl, rfl, hlate, hfresh.2 index' hused⟩

theorem not_applied_of_reads (hverify : verify f level = true)
  (hplaced : Placed f blockId' index' opId' block' op) (hreads : v ∈ op.valueLeaves) :
  opId' ∉ appliedStackLoads f deadOps filter := by
  intro happlied
  have hmem : opId' ∈ (findFoldableStackLoads f deadOps).map Prod.fst := by
    obtain ⟨found, hin, rfl⟩ := List.mem_map.mp happlied
    exact List.mem_map_of_mem (List.mem_filter.mp hin).1
  obtain ⟨_, _, _, load, _, delta, hfound, hslot⟩ := found_of_stack hmem
  obtain rfl : op = load := Option.some.inj (hplaced.hop.symm.trans hfound.hop)
  obtain ⟨haddress, hverified⟩ :=
    address_of_load hverify hfound.hblock (hfound.mem_blockOps) hfound.code
  rw [Op.valueLeaves, haddress, List.flatMap_singleton] at hreads
  rw [classify_of_reads hverified hreads] at hslot
  cases hslot

/-- What an inlined load is for its readers. -/
structure Inlined (f : IlFunction) (deadOps : List Nat) (blockId index opId : Nat) (block : IlBlock)
    (load : PoolOp) (v : Nat) : Prop extends Placed f blockId index opId block load where
  code : load.code = .load
  result : load.result = some v
  readers : ∀ {blockId' index' opId' block' op}, Placed f blockId' index' opId' block' op →
    opId' ∉ deadOps → v ∈ op.valueLeaves → blockId' = blockId ∧ block' = block ∧ index < index' ∧
      clobberedBetween f block.ops index index' (load.operand 0) (load.type.bits / 8) = false

theorem inlined_of_accepted (hverify : verify f level = true)
  (hnodup : ∀ block ∈ f.blocks, block.ops.Nodup) (h : opId ∈ acceptedLoads f deadOps filter) :
  ∃ blockId index block load v, Inlined f deadOps blockId index opId block load v := by
  rcases List.mem_append.mp h with hstack | hmemory
  · obtain ⟨blockId, index, block, load, v, delta, hfound, -⟩ := found_of_stack hstack
    have hnodupBlock := hnodup block (List.mem_of_getElem? hfound.hblock)
    exact ⟨blockId, index, block, load, v, hfound.toPlaced, hfound.code, hfound.result,
      fun hplaced hlive hreads => hfound.reader hnodupBlock hplaced hlive hreads⟩
  · obtain ⟨blockId, index, block, load, v, hfound⟩ := found_of_memory hmemory
    have hnodupBlock := hnodup block (List.mem_of_getElem? hfound.hblock)
    refine ⟨blockId, index, block, load, v, hfound.toPlaced, hfound.code, hfound.result, ?_⟩
    intro blockId' index' opId' block' op hplaced hlive hreads
    refine hfound.reader hnodupBlock hplaced ?_ hreads
    exact fun hdead => (List.mem_append.mp hdead).elim hlive
      (not_applied_of_reads hverify hplaced hreads)

theorem Placed.definition (hverify : verify f level = true)
  (hplaced : Placed f blockId index opId block op) (hresult : op.result = some v) :
  ∃ info, f.values[v]? = some info ∧ info.definition = some opId ∧ info.block = some blockId := by
  simp only [verify, Verifier.checkValues, Bool.and_eq_true] at hverify
  obtain ⟨⟨-, ⟨hdefs, -⟩, -⟩, -⟩ := hverify
  have hcheck := List.all_eq_true.mp (Verifier.of_blocks hdefs hplaced.hblock) opId
    (List.mem_of_getElem? hplaced.hindex)
  simp only [hplaced.hop, Option.all_some, Verifier.checkDefinition, hresult] at hcheck
  cases hinfo : f.values[v]? with
  | none => simp [hinfo] at hcheck
  | some info =>
    simp only [hinfo, Bool.and_eq_true, beq_iff_eq] at hcheck
    exact ⟨info, rfl, hcheck.1.1, hcheck.1.2⟩

theorem Placed.unique (hverify : verify f level = true)
  (hnodup : ∀ block ∈ f.blocks, block.ops.Nodup)
  {op' : PoolOp} (hplaced : Placed f blockId index opId block op)
  (hplaced' : Placed f blockId' index' opId' block' op') (hresult : op.result = some v)
  (hresult' : op'.result = some v) : blockId' = blockId ∧ index' = index := by
  obtain ⟨info, hinfo, hid, hblock⟩ := hplaced.definition hverify hresult
  obtain ⟨info', hinfo', hid', hblock'⟩ := hplaced'.definition hverify hresult'
  obtain rfl : info' = info := Option.some.inj (hinfo'.symm.trans hinfo)
  obtain rfl : blockId' = blockId := Option.some.inj (hblock'.symm.trans hblock)
  obtain rfl : opId' = opId := Option.some.inj (hid'.symm.trans hid)
  obtain rfl : block' = block := Option.some.inj (hplaced'.hblock.symm.trans hplaced.hblock)
  refine ⟨rfl, ?_⟩
  obtain ⟨hlt, hget⟩ := List.getElem?_eq_some_iff.mp hplaced.hindex
  obtain ⟨hlt', hget'⟩ := List.getElem?_eq_some_iff.mp hplaced'.hindex
  exact (hnodup block' (List.mem_of_getElem? hplaced.hblock)).getElem_inj_iff.mp
    (hget'.trans hget.symm)

/-- What cannot overwrite a load that reads a value overwrites nothing. -/
theorem clobbers_of_reads {load' o : Op} (hverified : (load'.operand 0).verified f.ctx = true)
  (hreads : v ∈ (load'.operand 0).leaves .value)
  (h : clobbers f (load'.operand 0) width o = false) {width' : Nat} :
  clobbers f address width' o = false := by
  unfold clobbers at h ⊢
  cases hcode : o.code <;> rw [hcode] at h
  case store =>
    simp only [StackFrame.mayAlias, classify_of_reads hverified hreads] at h
    cases h
  case call | intrinsic | unimplemented => cases h

/-- **The closure of the inlining.**  Wherever the text for an inlined load stands,
the bytes are untouched since the load: a load it is printed with has let nothing be
written between itself and its own readers. -/
theorem PrintedAt.untouched (hverify : verify f level = true)
  (hnodup : ∀ block ∈ f.blocks, block.ops.Nodup)
  (h : PrintedAt f deadOps (acceptedLoads f deadOps filter) v blockId' index')
  (hload : Inlined f deadOps blockId index opId block load v) :
  blockId' = blockId ∧ index < index' ∧ index' < block.ops.length ∧
    clobberedBetween f block.ops index index' (load.operand 0) (load.type.bits / 8) = false := by
  induction h generalizing blockId index opId block load with
  | reader hblock hindex hop hlive hreads =>
    obtain ⟨rfl, rfl, hlt, hclear⟩ := hload.readers ⟨hblock, hindex, hop⟩ hlive hreads
    exact ⟨rfl, hlt, (List.getElem?_eq_some_iff.mp hindex).1, hclear⟩
  | @through v w b₁ middle opId₁ blockId' index' blk op hblock hindex hop hlive hreads hinlined
      hresult _ ih =>
      have hplaced : Placed f b₁ middle opId₁ blk op := ⟨hblock, hindex, hop⟩
      obtain ⟨rfl, rfl, hlt, hclear⟩ := hload.readers hplaced hlive hreads
      obtain ⟨b₂, middle₂, blk₂, inner, w₂, hinner⟩ := inlined_of_accepted hverify hnodup hinlined
      obtain rfl : inner = op := Option.some.inj (hinner.hop.symm.trans hop)
      obtain rfl : w₂ = w := Option.some.inj (hinner.result.symm.trans hresult)
      obtain ⟨rfl, rfl⟩ :=
        hplaced.unique hverify hnodup hinner.toPlaced hresult hinner.result
      obtain rfl : blk₂ = blk := Option.some.inj (hinner.hblock.symm.trans hblock)
      obtain ⟨rfl, hlt₂, hlength, hclear₂⟩ := ih hinner
      refine ⟨rfl, hlt.trans hlt₂, hlength, clobberedBetween_eq_false.mpr ?_⟩
      obtain ⟨haddress, hverified⟩ :=
        address_of_load hverify hblock hinner.mem_blockOps hinner.code
      rw [Op.valueLeaves, haddress, List.flatMap_singleton] at hreads
      intro place hlow hhigh id o hid ho
      rcases Nat.lt_trichotomy place middle₂ with hbefore | rfl | hbehind
      · exact clobberedBetween_eq_false.mp hclear place hlow hbefore id o hid ho
      · -- The inner load itself.
        obtain rfl : id = opId₁ := Option.some.inj (hid.symm.trans hindex)
        obtain rfl : o = inner := Option.some.inj (ho.symm.trans hop)
        simp [clobbers, hinner.code]
      · exact clobbers_of_reads hverified hreads
          (clobberedBetween_eq_false.mp hclear₂ place hbehind hhigh id o hid ho)

end Founds

end LoadInline

/-! ## Executions -/

open LoadInline

/-- The access of the load, made again in the state, gives what the load gave. -/
def Rereads (f : IlFunction) (host : HostFloat) (s : SsaState ByteMemory) (load : Op) (v : Nat) :
    Prop :=
  ∃ a x, s.machine.values v = some x ∧ eval (s.env f host) (load.operand 0) 0 = .ok a ∧
    s.machine.world.load a.lo (load.type.bits / 8) = x

section Executions

variable {f : IlFunction} {host : HostFloat}
  {intrinsic : ByteMemory → String → Ty → List U128 → Option U128 × ByteMemory}
  {s : SsaState ByteMemory} {blockId index opId v : Nat} {block : IlBlock} {load op : PoolOp}
  {m : Machine ByteMemory} {rest : List Op}

theorem getElem?_filterMap_of_isSome {α β : Type} {g : α → Option β} {xs : List α}
  (h : ∀ x ∈ xs, (g x).isSome = true) (i : Nat) : (xs.filterMap g)[i]? = xs[i]?.bind g := by
  induction xs generalizing i with
  | nil => simp
  | cons x xs ih =>
    obtain ⟨y, hy⟩ := Option.isSome_iff_exists.mp (h x (List.mem_cons_self ..))
    rw [List.filterMap_cons_some hy]
    cases i with
    | zero => simp [hy]
    | succ i =>
      rw [List.getElem?_cons_succ, List.getElem?_cons_succ]
      exact ih (fun x hx => h x (List.mem_cons_of_mem _ hx)) i

variable {level : Maturity}

theorem getElem?_blockOps (hverify : verify f level = true)
  (hblock : f.blocks[blockId]? = some block) (i : Nat) :
  (f.blockOps block)[i]? = block.ops[i]?.bind fun id => (f.ops[id]?).map PoolOp.toOp := by
  have hvalid : ∀ id ∈ block.ops, (f.ops[id]?).isSome = true := by
    intro id hid
    have hblocks := hverify
    simp only [verify, Verifier.checkBlocks, Bool.and_eq_true] at hblocks
    obtain ⟨⟨⟨-, -, hblocks⟩, -⟩, -⟩ := hblocks
    have hcheck := Verifier.of_blocks hblocks hblock
    unfold Verifier.checkBlock at hcheck
    split at hcheck
    · rename_i hempty
      rw [List.isEmpty_iff.mp hempty] at hid
      cases hid
    · obtain ⟨op, hop, -⟩ := checkOp_of_checkSequence hcheck hid
      rw [hop]
      rfl
  rw [IlFunction.blockOps, List.getElem?_map, IlFunction.opsOf, getElem?_filterMap_of_isSome hvalid]
  cases block.ops[i]? <;> rfl

theorem LoadInline.Placed.blockOps (hverify : verify f level = true)
  (h : Placed f blockId index opId block op) : (f.blockOps block)[index]? = some op.toOp := by
  rw [getElem?_blockOps hverify h.hblock, h.hindex, Option.bind_some, h.hop]
  rfl

theorem placed_of_blockOps (hverify : verify f level = true)
  (hblock : f.blocks[blockId]? = some block) {o : Op} (h : (f.blockOps block)[index]? = some o) :
  ∃ opId op, Placed f blockId index opId block op ∧ op.toOp = o := by
  rw [getElem?_blockOps hverify hblock] at h
  obtain ⟨opId, hindex, h⟩ := Option.bind_eq_some_iff.mp h
  obtain ⟨op, hop, rfl⟩ := Option.map_eq_some_iff.mp h
  exact ⟨opId, op, ⟨hblock, hindex, hop⟩, rfl⟩

theorem eval_alike (hverify : verify f level = true) {e : Expr}
  (hmem : e ∈ f.exprs) {env env' : Env} {u : U128} (h : eval env e 0 = .ok u)
  (hhost : env'.host = env.host) (hvalue : ∀ v ∈ e.leaves .value, env'.value v = env.value v)
  (hreg : ∀ r ∈ e.leaves .entryReg, env'.readRegister r = env.readRegister r) :
  eval env' e 0 = .ok u := by
  have hshaped := Expr.shaped_of_verified (Verifier.verified_of_checkExpressions
    (Verifier.checkExpressions_of_verify hverify) hmem)
  have hiff : ∀ env : Env, eval env e 0 = .ok u ↔ den env e = some u ∧
      0 + need e false ≤ kMaxInterpDepth := fun env =>
    evalAs_ok_iff_of_fed hshaped.fed false (by rintro ⟨⟩) 0 u
  obtain ⟨hden, hneed⟩ := (hiff env).mp h
  exact (hiff env').mpr ⟨den_congr hshaped hhost hvalue hreg hden, hneed⟩

theorem load_store_of_disjoint {memory : ByteMemory} {a b : U64} {count : Nat}
  {bytes : List (BitVec 8)} (h : Disjoint (bytesAt a count) (bytesAt b bytes.length)) :
  (memory.store b bytes).load a count = memory.load a count := by
  unfold ByteMemory.load
  congr 1
  refine List.map_congr_left fun i hi => store_elsewhere fun j hj heq => ?_
  exact Set.disjoint_left.mp h ⟨i, List.mem_range.mp hi, rfl⟩ ⟨j, hj, heq.symm⟩

section Steps

variable (hssa : SsaForm f)
include hssa

/-- What an operation leaves of the values and of the registers at entry. -/
theorem keeps_of_runOp (hblock : f.blocks[blockId]? = some block) (hop : op.toOp ∈ f.blockOps block)
  (hrun : Machine.runOp (f.blockContext host block) (ByteMemory.backend intrinsic).hooks s.machine
    op.toOp = (m, none)) :
  (∀ u, op.result ≠ some u → m.values u = s.machine.values u) ∧
    ∀ e ∈ f.exprs, ∀ r ∈ e.leaves .entryReg,
      Interpreter.readRegister f.file m.registers r =
        Interpreter.readRegister f.file s.machine.registers r := by
  obtain ⟨eff, w, hhas, rfl, -⟩ := (Machine.runOp_succeeds hrun (by rintro _ ⟨⟩)).effect
  have hdefine : ∀ (m' : Machine ByteMemory) x u, op.result ≠ some u →
      (m'.define op.result x).values u = m'.values u :=
    fun m' x u hu => m'.values_define fun w hw heq => hu (heq ▸ hw)
  cases hhas with
  | snapshot hcode => exact ⟨hdefine _ _, fun e _ r _ => by simp [Machine.perform]⟩
  | load hcode ha hv => exact ⟨hdefine _ _, fun e _ r _ => by simp [Machine.perform]⟩
  | intrinsic hcode => exact ⟨hdefine _ _, fun e _ r _ => by simp [Machine.perform]⟩
  | stopped hcode => exact ⟨fun _ _ => rfl, fun _ _ _ _ => rfl⟩
  | none hcode => exact ⟨fun _ _ => rfl, fun _ _ _ _ => rfl⟩
  | write hcode hv =>
    exact ⟨fun _ _ => rfl, fun e he r hr =>
      hssa.entries block (List.mem_of_getElem? hblock) op.toOp hop hcode e he r hr _ _⟩

/-- No operation from the load on defines what its address reads. -/
theorem address_fresh {index' opId' w : Nat} (hplaced : Placed f blockId index opId block load)
  (hcode : load.code = .load) (hplaced' : Placed f blockId index' opId' block op)
  (hlate : index ≤ index') (hresult : op.result = some w) :
  w ∉ (load.operand 0).leaves .value := by
  obtain ⟨haddress, -⟩ := address_of_load hssa.verified hplaced.hblock hplaced.mem_blockOps hcode
  have hblock := List.mem_of_getElem? hplaced.hblock
  have havoids : load.toOp.Avoids op.toOp := by
    rcases hlate.eq_or_lt with rfl | hlt
    · obtain rfl : opId' = opId := Option.some.inj (hplaced'.hindex.symm.trans hplaced.hindex)
      obtain rfl : op = load := Option.some.inj (hplaced'.hop.symm.trans hplaced.hop)
      exact hssa.irreflexive block hblock _ hplaced.mem_blockOps
    · obtain ⟨hi, hload⟩ := List.getElem?_eq_some_iff.mp (hplaced.blockOps hssa.verified)
      obtain ⟨hj, hop⟩ := List.getElem?_eq_some_iff.mp (hplaced'.blockOps hssa.verified)
      have hpair := List.pairwise_iff_getElem.mp (hssa.ordered block hblock) index index' hi hj hlt
      rwa [hload, hop] at hpair
  have hfresh := havoids (by rw [hcode]; decide) w (by simp [hresult])
  rwa [Op.valueLeaves, haddress, List.flatMap_singleton] at hfresh

theorem address_mem (hplaced : Placed f blockId index opId block load) (hcode : load.code = .load) :
  load.operand 0 ∈ f.exprs := by
  obtain ⟨haddress, -⟩ := address_of_load hssa.verified hplaced.hblock hplaced.mem_blockOps hcode
  refine f.operands_mem load (List.mem_of_getElem? hplaced.hop) _ ?_
  rw [haddress]
  exact List.mem_singleton_self _

/-- The address of a load evaluates as before behind every later operation. -/
theorem address_keeps {index' opId' : Nat} {a : U128}
  (hplaced : Placed f blockId index opId block load) (hcode : load.code = .load)
  (hplaced' : Placed f blockId index' opId' block op) (hlate : index ≤ index')
  (hrun : Machine.runOp (f.blockContext host block) (ByteMemory.backend intrinsic).hooks s.machine
    op.toOp = (m, none))
  (ha : eval (s.env f host) (load.operand 0) 0 = .ok a) :
  eval (SsaState.env f host ⟨s.block, rest, m⟩) (load.operand 0) 0 = .ok a := by
  obtain ⟨hvalues, hregisters⟩ := keeps_of_runOp hssa hplaced'.hblock hplaced'.mem_blockOps hrun
  have hmem := address_mem hssa hplaced hcode
  refine eval_alike hssa.verified hmem ha rfl ?_ (fun r hr => hregisters _ hmem r hr)
  intro u hu
  exact hvalues u fun hresult => address_fresh hssa hplaced hcode hplaced' hlate hresult hu

theorem rereads_of_load (hplaced : Placed f blockId index opId block load)
  (hcode : load.code = .load) (hresult : load.result = some v)
  (hrun : Machine.runOp (f.blockContext host block) (ByteMemory.backend intrinsic).hooks s.machine
    load.toOp = (m, none)) :
  Rereads f host ⟨s.block, rest, m⟩ load.toOp v := by
  obtain ⟨eff, w, hhas, hm, -⟩ := (Machine.runOp_succeeds hrun (by rintro _ ⟨⟩)).effect
  obtain ⟨rfl, a, x, rfl, ha, hread⟩ := hhas.of_load hcode
  refine ⟨a, x, ?_, address_keeps hssa hplaced hcode hplaced le_rfl hrun
    (eval_of_machine_eval ha), ?_⟩ <;> subst hm
  · show (Machine.define _ load.result x).values v = some x
    rw [hresult]
    exact Function.update_self ..
  · show ByteMemory.load (Machine.define _ load.result x).world a.lo (load.type.bits / 8) = x
    rw [Machine.world_define]
    exact Except.ok.inj hread

/-- An operation behind the load that cannot overwrite its bytes. -/
theorem Rereads.keep {index' opId' : Nat} (hplaced : Placed f blockId index opId block load)
  (hcode : load.code = .load) (hresult : load.result = some v)
  (hplaced' : Placed f blockId index' opId' block op) (hlate : index < index')
  (hclear : clobbers f (load.operand 0) (load.type.bits / 8) op.toOp = false)
  (hsound : SoundAliases f host s)
  (hrun : Machine.runOp (f.blockContext host block) (ByteMemory.backend intrinsic).hooks s.machine
    op.toOp = (m, none))
  (h : Rereads f host s load.toOp v) : Rereads f host ⟨s.block, rest, m⟩ load.toOp v := by
  obtain ⟨a, x, hv, ha, hread⟩ := h
  obtain ⟨hvalues, -⟩ := keeps_of_runOp hssa hplaced'.hblock hplaced'.mem_blockOps hrun
  have hother : op.result ≠ some v := by
    intro hsame
    exact hlate.ne' (hplaced.unique hssa.verified hssa.nodup hplaced' hresult hsame).2
  refine ⟨a, x, (hvalues v hother).trans hv,
    address_keeps hssa hplaced hcode hplaced' hlate.le hrun ha, ?_⟩
  show m.world.load a.lo (load.type.bits / 8) = x
  by_cases hstore : op.code = .store
  · obtain ⟨b, y, hb, -, hworld⟩ := world_of_store hstore hrun
    rw [hworld, load_store_of_disjoint, hread]
    have hno : StackFrame.mayAlias f (load.operand 0) (BitVec.ofNat 32 (load.type.bits / 8))
        (op.operand 0) (BitVec.ofNat 32 (op.type.bits / 8)) = .no := by
      simpa [clobbers, hstore] using hclear
    have hdisjoint := hsound block (List.mem_of_getElem? hplaced.hblock) _ hplaced.mem_blockOps _
      hplaced'.mem_blockOps hcode hstore hno a b ha hb
    simpa [bytesOf] using hdisjoint
  · have hintrinsic : op.code ≠ .intrinsic := by
      intro hcode'
      simp [clobbers, hcode'] at hclear
    obtain ⟨eff, w, hhas, rfl, -⟩ := (Machine.runOp_succeeds hrun (by rintro _ ⟨⟩)).effect
    have hworld : (s.machine.perform (f.blockContext host block) w eff).world = w := by
      cases eff <;> simp [Machine.perform]
    rw [hworld, hhas.world_eq hstore hintrinsic]
    exact hread

end Steps

/-- Every load passed in the block whose bytes nothing behind it could overwrite. -/
def Fresh (f : IlFunction) (host : HostFloat) (s : SsaState ByteMemory) : Prop :=
  ∀ blockId index, s.At f blockId index → ∀ loadIndex opId block load v,
    Placed f blockId loadIndex opId block load → load.code = .load → load.result = some v →
    loadIndex < index →
    clobberedBetween f block.ops loadIndex index (load.operand 0) (load.type.bits / 8) = false →
    Rereads f host s load.toOp v

section Runs

variable {s' : SsaState ByteMemory} {run : List (SsaState ByteMemory)}

/-- A block is entered behind its phis. -/
theorem SsaState.At.body {t : Nat} {target : IlBlock} {m : Machine W}
  (htarget : f.blocks[t]? = some target) :
  SsaState.At f ⟨t, f.bodyOf target, m⟩ t (f.phisOf target).length := by
  have hsplit : f.phisOf target ++ f.bodyOf target = f.blockOps target :=
    List.takeWhile_append_dropWhile
  refine ⟨rfl, target, htarget, ?_, ?_⟩
  · rw [← hsplit, List.length_append]
    exact Nat.le_add_right _ _
  · show f.bodyOf target = _
    rw [← hsplit, List.drop_left]

theorem SsaState.At.unique {s : SsaState W} {blockId' index' : Nat} (h : s.At f blockId index)
  (h' : s.At f blockId' index') : blockId' = blockId ∧ index' = index := by
  obtain ⟨rfl, block, hblock, hle, hrest⟩ := h
  obtain ⟨rfl, block', hblock', hle', hrest'⟩ := h'
  obtain rfl : block' = block := Option.some.inj (hblock'.symm.trans hblock)
  have hlength := congrArg List.length (hrest.symm.trans hrest')
  rw [List.length_drop, List.length_drop] at hlength
  exact ⟨rfl, by omega⟩

theorem SsaState.At.next {s : SsaState W} {o : Op} (h : s.At f blockId index)
  (hrest : s.rest = o :: rest) (hblock : f.blocks[blockId]? = some block) :
  (f.blockOps block)[index]? = some o ∧
    ∀ m' : Machine W, SsaState.At f ⟨s.block, rest, m'⟩ blockId (index + 1) := by
  obtain ⟨rfl, block', hblock', hle, hdrop⟩ := h
  obtain rfl : block' = block := Option.some.inj (hblock'.symm.trans hblock)
  have hcons := hdrop.symm.trans hrest
  have hget : (f.blockOps block')[index]? = some o := by
    have hzero := congrArg (·[0]?) hcons
    simpa [List.getElem?_drop] using hzero
  refine ⟨hget, fun m' => ⟨rfl, block', hblock, (List.getElem?_eq_some_iff.mp hget).1, ?_⟩⟩
  have htail := congrArg List.tail hcons
  rw [List.tail_drop, List.tail_cons] at htail
  exact htail.symm

theorem fresh_body {level : Maturity} (hverify : verify f level = true) {t : Nat} {target : IlBlock}
  (htarget : f.blocks[t]? = some target) : Fresh f host ⟨t, f.bodyOf target, m⟩ := by
  intro blockId index hat loadIndex opId block load v hplaced hcode _ hbefore _
  obtain ⟨rfl, rfl⟩ := SsaState.At.unique (SsaState.At.body htarget) hat
  obtain rfl : block = target := Option.some.inj (hplaced.hblock.symm.trans htarget)
  -- In front of the body there are phis only.
  have hphi : load.toOp ∈ f.phisOf block := by
    have hsplit : f.phisOf block ++ f.bodyOf block = f.blockOps block :=
      List.takeWhile_append_dropWhile
    have hget := hplaced.blockOps hverify
    rw [← hsplit, List.getElem?_append_left hbefore] at hget
    exact List.mem_of_getElem? hget
  have hisPhi := List.all_eq_true.mp List.all_takeWhile load.toOp hphi
  simp [hcode] at hisPhi

/-- **One step.** -/
theorem fresh_step (hssa : SsaForm f) (hsound : SoundAliases f host s)
  (hplace : ∃ blockId index, s.At f blockId index)
  (hstep : SsaStep f host (ByteMemory.backend intrinsic) s s') (h : Fresh f host s) :
  Fresh f host s' ∧ ∃ blockId index, s'.At f blockId index := by
  obtain ⟨blockId, index, hat⟩ := hplace
  have hsame := hat.1
  obtain ⟨block, hblock, -⟩ := hat.2
  cases hstep with
  | @op block' o rest m hblock' hrest hrun =>
    obtain rfl : block' = block := by
      rw [hsame] at hblock'
      exact Option.some.inj (hblock'.symm.trans hblock)
    obtain ⟨hget, hnext⟩ := hat.next hrest hblock
    obtain ⟨opId, op, hop, rfl⟩ := placed_of_blockOps hssa.verified hblock hget
    refine ⟨?_, blockId, index + 1, hnext m⟩
    intro blockId₁ index₁ hat₁ loadIndex loadId block₁ load v hplaced hcode hresult hbefore hclear
    obtain ⟨rfl, rfl⟩ := SsaState.At.unique (hnext m) hat₁
    obtain rfl : block₁ = block' := Option.some.inj (hplaced.hblock.symm.trans hblock)
    rcases Nat.lt_succ_iff_lt_or_eq.mp hbefore with hearlier | rfl
    · have hclear' := clobberedBetween_eq_false.mp hclear
      refine Rereads.keep hssa hplaced hcode hresult hop hearlier
        (hclear' index hearlier (Nat.lt_succ_self _) opId op hop.hindex hop.hop) hsound hrun ?_
      exact h blockId₁ index hat loadIndex loadId block₁ load v hplaced hcode hresult hearlier
        (clobberedBetween_eq_false.mpr fun place hlow hhigh =>
          hclear' place hlow (hhigh.trans (Nat.lt_succ_self _)))
    · obtain rfl : opId = loadId := Option.some.inj (hop.hindex.symm.trans hplaced.hindex)
      obtain rfl : op = load := Option.some.inj (hop.hop.symm.trans hplaced.hop)
      exact rereads_of_load hssa hplaced hcode hresult hrun
  | @call o rest target result w hrest hcall htarget =>
    obtain ⟨hget, hnext⟩ := hat.next hrest hblock
    obtain ⟨opId, op, hop, rfl⟩ := placed_of_blockOps hssa.verified hblock hget
    refine ⟨?_, blockId, index + 1, hnext _⟩
    intro blockId₁ index₁ hat₁ loadIndex loadId block₁ load v hplaced hcode hresult hbefore hclear
    obtain ⟨rfl, rfl⟩ := SsaState.At.unique (hnext _) hat₁
    obtain rfl : block₁ = block := Option.some.inj (hplaced.hblock.symm.trans hblock)
    rcases Nat.lt_succ_iff_lt_or_eq.mp hbefore with hearlier | rfl
    · have hclear' := clobberedBetween_eq_false.mp hclear index hearlier (Nat.lt_succ_self _) opId
        op hop.hindex hop.hop
      simp [clobbers, hcall] at hclear'
    · obtain rfl : opId = loadId := Option.some.inj (hop.hindex.symm.trans hplaced.hindex)
      obtain rfl : op = load := Option.some.inj (hop.hop.symm.trans hplaced.hop)
      rw [hcode] at hcall
      cases hcall
  | edge _ _ htarget _ => exact ⟨fresh_body hssa.verified htarget, _, _, SsaState.At.body htarget⟩

/-- **Runs.** -/
theorem fresh_run (hssa : SsaForm f)
  (hrun : SsaRun f host (ByteMemory.backend intrinsic) run)
  (hsound : ∀ s ∈ run, SoundAliases f host s) :
  ∀ s ∈ run, Fresh f host s ∧ ∃ blockId index, s.At f blockId index := by
  induction hrun with
  | start registers world _ hblock =>
    intro s hs
    obtain rfl := List.mem_singleton.mp hs
    exact ⟨fresh_body hssa.verified hblock, _, _, SsaState.At.body hblock⟩
  | @step s s' past hrun hstep ih =>
    have hpast := ih fun s hs => hsound s (List.mem_cons_of_mem _ hs)
    intro s₁ hs₁
    rcases List.mem_cons.mp hs₁ with rfl | hs₁
    · obtain ⟨hfresh, hplace⟩ := hpast s (List.mem_cons_self ..)
      have hsoundHere := hsound s (List.mem_cons_of_mem _ (List.mem_cons_self ..))
      exact fresh_step hssa hsoundHere hplace hstep hfresh
    · exact hpast s₁ hs₁

/-- **Inlined loads.**  Wherever the text for a load that was found stands, also where
it stands in the text for another, the address evaluates, and memory has there what the
load gave. -/
theorem inlinedLoads_reread {deadOps : List Nat} {filter : Nat → FoldableStackLoad → Bool}
    (hssa : SsaForm f) (hrun : SsaRun f host (ByteMemory.backend intrinsic) run)
    (hsound : ∀ s ∈ run, SoundAliases f host s)
    (hinlined : opId ∈ acceptedLoads f deadOps filter) (hload : f.ops[opId]? = some load)
    (hresult : load.result = some v)
    (hprinted : PrintedAt f deadOps (acceptedLoads f deadOps filter) v blockId index)
    (hs : s ∈ run) (hat : s.At f blockId index) : Rereads f host s load.toOp v := by
  obtain ⟨blockId', loadIndex, block', load', v', hfound⟩ :=
    inlined_of_accepted hssa.verified hssa.nodup hinlined
  obtain rfl : load' = load := Option.some.inj (hfound.hop.symm.trans hload)
  obtain rfl : v' = v := Option.some.inj (hfound.result.symm.trans hresult)
  obtain ⟨rfl, hbefore, -, hclear⟩ := hprinted.untouched hssa.verified hssa.nodup hfound
  exact (fresh_run hssa hrun hsound s hs).1 blockId index hat loadIndex opId block' load' v'
    hfound.toPlaced hfound.code hresult hbefore hclear

end Runs

end Executions

/-! ## A load printed in the text of another -/

def loadOf (va : U64) (result : Nat) (address : Expr) : PoolOp :=
  { code := .load, type := Ty.integer 64, va := va, result := some result, payload := 0
    operands := [address], targets := [], origin := 0 }

/-- A store of eight bytes below the stack pointer. -/
def storeOf (va : U64) (value : Expr) : PoolOp :=
  { code := .store, type := Ty.integer 64, va := va, result := none, payload := 0
    operands := [belowSp 8#64, value], targets := [], origin := 0 }

def valueLeaf (v : U64) : Expr := .leaf .value (Ty.integer 64) v

/-- A pointer is loaded, a slot beside it is written, and what it points to is loaded
and stored in the slot. -/
def derefFunction : IlFunction where
  file := stackFile
  nameOf _ := ""
  passCount := 1
  entryBlock := some 0
  blocks := [⟨0x1000#64, 0x1014#64, [0, 1, 2, 3, 4], [], [], false⟩]
  ops :=
    [loadOf 0x1000#64 0 (belowSp 16#64), storeOf 0x1004#64 (Expr.constant (Ty.integer 64) 7#64),
     loadOf 0x1008#64 1 (valueLeaf 0#64), storeOf 0x100c#64 (valueLeaf 1#64),
     { code := .ret, type := Ty.voidType, va := 0x1010#64, result := none, payload := 0
       operands := [], targets := [], origin := 0 }]
  values := [⟨Ty.integer 64, some 0, some 0⟩, ⟨Ty.integer 64, some 2, some 0⟩]
  exprs := [.leaf .entryReg (Ty.integer 64) 0#64, Expr.constant (Ty.integer 64) 16#64,
    Expr.constant (Ty.integer 64) 8#64, Expr.constant (Ty.integer 64) 7#64, valueLeaf 0#64,
    valueLeaf 1#64, belowSp 16#64, belowSp 8#64]
  values_le := by
    show 2 ≤ 2 ^ 32
    decide
  operands_mem := by decide
  closed := by decide

/-- The states of its run, the last one first, from a memory of zeros. -/
def derefRun : Nat → List (SsaState ByteMemory)
  | 0 =>
    [⟨0, derefFunction.bodyOf (derefFunction.blocks.getD 0 default),
      ⟨fun _ => U128.zero, fun _ => none, fun _ => 0#8⟩⟩]
  | n + 1 =>
    match derefRun n with
    | [] => []
    | s :: past =>
      match s.rest with
      | [] => s :: past
      | op :: rest =>
        let block := derefFunction.blocks.getD 0 default
        ⟨s.block, rest, (Machine.runOp (derefFunction.blockContext HostFloat.idle block)
          idleMemory.hooks s.machine op).1⟩ :: s :: past

theorem ssaForm_deref : SsaForm derefFunction where
  verified := by decide
  nodup := by decide
  ordered := by decide
  irreflexive := by decide
  entries := by
    intro block hblock op hop hcode
    have hnone : ∀ block ∈ derefFunction.blocks, ∀ op ∈ derefFunction.blockOps block,
        op.code ≠ .writeReg := by decide
    exact absurd hcode (hnone block hblock op hop)

theorem eval_belowSp_deref {s : SsaState ByteMemory} (h : s.machine.registers = fun _ => U128.zero)
  {displacement : U64} (hmem : belowSp displacement ∈ derefFunction.exprs) {a u : U128}
  (heval : eval ⟨HostFloat.idle, fun _ => none,
    Interpreter.readRegister stackFile fun _ => U128.zero⟩ (belowSp displacement) 0 = .ok u)
  (ha : eval (s.env derefFunction HostFloat.idle) (belowSp displacement) 0 = .ok a) : a = u := by
  have hsame : eval (s.env derefFunction HostFloat.idle) (belowSp displacement) 0 = .ok u := by
    refine eval_alike ssaForm_deref.verified hmem heval rfl ?_ ?_
    · intro v hv
      simp [belowSp, Expr.leaves, Expr.constant] at hv
    · intro r _
      show Interpreter.readRegister stackFile s.machine.registers r = _
      rw [h]
  exact Except.ok.inj (ha.symm.trans hsame)

/-- Only the pointer's slot has an alias answer. -/
theorem soundAliases_deref {s : SsaState ByteMemory}
  (h : s.machine.registers = fun _ => U128.zero) :
  SoundAliases derefFunction HostFloat.idle s := by
  intro block hblock load hload store hstore hcode hcode' hno a b ha hb
  have hloads : ∀ block ∈ derefFunction.blocks, ∀ load ∈ derefFunction.blockOps block,
      load.code = .load → load.type.bits / 8 = 8 ∧
        (load.operand 0 = belowSp 16#64 ∨ load.operand 0 = valueLeaf 0#64) := by decide
  have hstores : ∀ block ∈ derefFunction.blocks, ∀ store ∈ derefFunction.blockOps block,
      store.code = .store → store.type.bits / 8 = 8 ∧ store.operand 0 = belowSp 8#64 := by
    decide
  obtain ⟨hbytes, hslot⟩ := hloads block hblock load hload hcode
  obtain ⟨hbytes', hslot'⟩ := hstores block hblock store hstore hcode'
  replace hslot : load.operand 0 = belowSp 16#64 := by
    refine hslot.resolve_right fun hvalue => ?_
    rw [hvalue, StackFrame.mayAlias] at hno
    cases hno
  rw [hslot] at ha
  rw [hslot'] at hb
  obtain rfl : a = word (0#64 - 16#64) :=
    eval_belowSp_deref h (by decide) (by decide) ha
  obtain rfl : b = word (0#64 - 8#64) :=
    eval_belowSp_deref h (by decide) (by decide) hb
  rw [hbytes, hbytes', disjoint_bytesAt_iff]
  decide

theorem ssaRun_deref : SsaRun derefFunction HostFloat.idle idleMemory (derefRun 3) :=
  .step (.step (.step (.start _ _ rfl rfl) (.op rfl rfl rfl)) (.op rfl rfl rfl)) (.op rfl rfl rfl)

theorem registers_deref : ∀ s ∈ derefRun 3, s.machine.registers = fun _ => U128.zero := by
  intro s hs
  have hall : ((derefRun 3).map fun s => s.machine.registers) =
      List.replicate 4 fun _ => U128.zero := rfl
  exact List.eq_of_mem_replicate (hall ▸ List.mem_map_of_mem hs)

/-- The slot of the pointer is read where what it points to is stored. -/
theorem inlinedLoads_reread_deref :
    ∃ s ∈ derefRun 3, s.At derefFunction 0 3 ∧
      Rereads derefFunction HostFloat.idle s (loadOf 0x1000#64 0 (belowSp 16#64)).toOp 0 := by
  have haccepted : acceptedLoads derefFunction [] (fun _ _ => true) = [0, 2] := by decide
  have hprinted :
      PrintedAt derefFunction [] (acceptedLoads derefFunction [] fun _ _ => true) 0 0 3 := by
    rw [haccepted]
    have hpointer : PrintedAt derefFunction [] [0, 2] 1 0 3 := by
      refine .reader rfl rfl rfl List.not_mem_nil ?_
      decide
    have hblock : derefFunction.blocks[0]? = some (derefFunction.blocks.getD 0 default) := rfl
    have hindex : (derefFunction.blocks.getD 0 default).ops[2]? = some 2 := rfl
    refine .through hblock hindex rfl List.not_mem_nil ?_ (by simp) rfl hpointer
    decide
  obtain ⟨s, past, hrun⟩ : ∃ s past, derefRun 3 = s :: past := ⟨_, _, rfl⟩
  have hs : s ∈ derefRun 3 := by
    rw [hrun]
    exact List.mem_cons_self ..
  have hat : s.At derefFunction 0 3 := by
    have hhead : (derefRun 3).head? = some s := by
      rw [hrun]
      rfl
    obtain rfl := Option.some.inj hhead
    exact ⟨rfl, _, rfl, by decide, rfl⟩
  have hinlined : 0 ∈ acceptedLoads derefFunction [] fun _ _ => true := by
    rw [haccepted]
    exact List.mem_cons_self ..
  have hload : derefFunction.ops[0]? = some (loadOf 0x1000#64 0 (belowSp 16#64)) := rfl
  exact ⟨s, hs, hat, inlinedLoads_reread ssaForm_deref ssaRun_deref
    (fun s hs => soundAliases_deref (registers_deref s hs)) hinlined hload rfl hprinted hs hat⟩

end Xdec

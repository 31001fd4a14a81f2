import Xdec.FlagTests
import Xdec.SsaRun

/-!
# The function while boolean phis are added

The pass only appends: the entry `k` of the cache is the value `k` behind the
values of the function and its phi the operation `k` behind its operations.  The
blocks keep their phis and their other operations, with the boolean phis made so
far between them, and every operation keeps everything but its operands.

A boolean phi is pending from its creation to the moment its operands are set.
-/

namespace Xdec

namespace IlFunction

variable (f : IlFunction)

def isPhi (id : Nat) : Bool := (f.ops[id]?).any fun op => op.code == .phi

/-- The phis of a block, and what stands behind them. -/
def phiIds (block : IlBlock) : List Nat := block.ops.takeWhile f.isPhi

def bodyIds (block : IlBlock) : List Nat := block.ops.dropWhile f.isPhi

/-- The block a value is recorded in. -/
def blockOf (v : Nat) : Option Nat := f.values[v]?.bind ValueInfo.block

/-- The operation that defines the value `n` of the cache. -/
def madeId (n : Nat) : Nat := f.ops.length + (n - f.values.length)

/-- The boolean phis made for the flags phis of a block. -/
def made (cache : FlagCache) (block : Nat) : List Nat :=
  cache.filterMap fun entry =>
    if f.blockOf entry.1.1 = some block then some (f.madeId entry.2) else none

end IlFunction

def PoolOp.withOperands (op : PoolOp) (operands : List Expr) : PoolOp :=
  { op with operands := operands }

def IlBlock.withOps (block : IlBlock) (ops : List Nat) : IlBlock := { block with ops := ops }

/-- The phi made for a flags phi. -/
def booleanPhi (va : U64) (pass : Nat) (n : Nat) (arms : List Expr) : PoolOp where
  code := .phi
  type := Ty.boolean
  va := va
  result := some n
  payload := 0
  operands := arms
  targets := []
  origin := pass

structure Inv (f : IlFunction) (final : FlagCache) (pending : List Nat) (g : SsaGraph)
    (cache : FlagCache) : Prop where
  values_length : g.values.length = f.values.length + cache.length
  ops_length : g.ops.length = f.ops.length + cache.length
  blocks_length : g.blocks.length = f.blocks.length
  values : ∀ v < f.values.length, g.values[v]? = f.values[v]?
  ops : ∀ (id : Nat) (op : PoolOp), f.ops[id]? = some op → ∃ operands : List Expr,
    g.ops[id]? = some (op.withOperands operands) ∧
      List.Forall₂ (f.Keeps final) op.operands operands
  blocks : ∀ (b : Nat) (block : IlBlock), f.blocks[b]? = some block → g.blocks[b]? =
    some (block.withOps (f.phiIds block ++ f.made cache b ++ f.bodyIds block))
  entries : ∀ k p code n, cache[k]? = some ((p, code), n) → n = f.values.length + k ∧
    ∃ phi arms, f.phiOf p = some phi ∧
      g.ops[f.ops.length + k]? = some (booleanPhi phi.va g.currentPass n arms) ∧
      (n ∈ pending ∨ List.Forall₂ (f.Tests final code) phi.operands arms)

namespace IlFunction

section Verified

open Verifier

variable {f : IlFunction} {b v id : Nat} {block : IlBlock} {info : ValueInfo} {op : PoolOp}

/-! ## What verification says of phis -/

theorem exists_op_of_verify (hverify : verify f .ssa = true) (hblock : f.blocks[b]? = some block)
  (hid : id ∈ block.ops) :
  ∃ op, f.ops[id]? = some op ∧ checkOp f .ssa b op = true := by
  simp only [verify, checkBlocks, Bool.and_eq_true] at hverify
  have hcheck := of_blocks hverify.1.1.2.2 hblock
  unfold checkBlock at hcheck
  split at hcheck
  · rename_i hempty
    rw [List.isEmpty_iff.mp hempty] at hid
    cases hid
  · exact checkOp_of_checkSequence hcheck hid

theorem defined_of_verify (hverify : verify f .ssa = true) (hinfo : f.values[v]? = some info)
  (hdef : info.definition = some id) :
  ∃ op b block, f.ops[id]? = some op ∧ op.result = some v ∧ info.type = op.type ∧
    info.block = some b ∧ f.blocks[b]? = some block ∧ id ∈ block.ops := by
  have hverify' := hverify
  simp only [verify, checkValues, Bool.and_eq_true] at hverify
  obtain ⟨⟨-, ⟨hdefs, hcounts⟩, -⟩, -⟩ := hverify
  have hlt := (List.getElem?_eq_some_iff.mp hinfo).1
  have hcount := List.all_eq_true.mp hcounts v (List.mem_range.mpr hlt)
  have hmem : v ∈ definitions f := by
    by_contra hnot
    rw [List.count_eq_zero_of_not_mem hnot] at hcount
    simp [hinfo, hdef] at hcount
  obtain ⟨block, hblockMem, hv⟩ := List.mem_flatMap.mp hmem
  obtain ⟨op, hop, hresult⟩ := List.mem_filterMap.mp hv
  obtain ⟨id', hid', hget⟩ := List.mem_filterMap.mp hop
  obtain ⟨b, hblock⟩ := List.mem_iff_getElem?.mp hblockMem
  have hcheck := List.all_eq_true.mp (of_blocks hdefs hblock) id' hid'
  simp only [hget, Option.all_some, checkDefinition, hresult, hinfo, Bool.and_eq_true,
    beq_iff_eq] at hcheck
  obtain rfl := Option.some.inj (hcheck.1.1.symm.trans hdef)
  exact ⟨op, b, block, hget, hresult, hcheck.2, hcheck.1.2, hblock, hid'⟩

/-- What the function records of the result of an operation in a block. -/
theorem recorded_of_verify (hverify : verify f .ssa = true) (hblock : f.blocks[b]? = some block)
  (hid : id ∈ block.ops) (hop : f.ops[id]? = some op) (hresult : op.result = some v) :
  ∃ info, f.values[v]? = some info ∧ info.definition = some id ∧ info.block = some b ∧
    info.type = op.type := by
  simp only [verify, checkValues, Bool.and_eq_true] at hverify
  obtain ⟨⟨-, ⟨hdefs, -⟩, -⟩, -⟩ := hverify
  have hcheck := List.all_eq_true.mp (of_blocks hdefs hblock) id hid
  simp only [hop, Option.all_some, checkDefinition, hresult] at hcheck
  cases hinfo : f.values[v]? with
  | none => simp [hinfo] at hcheck
  | some info =>
    simp only [hinfo, Bool.and_eq_true, beq_iff_eq] at hcheck
    exact ⟨info, rfl, hcheck.1.1, hcheck.1.2, hcheck.2⟩

theorem phiOf_eq_some : f.phiOf v = some op ↔
  ∃ info id, f.values[v]? = some info ∧ info.definition = some id ∧ f.ops[id]? = some op ∧
    op.code = .phi := by
  simp only [phiOf, Option.bind_eq_bind, Option.bind_eq_some_iff]
  constructor
  · rintro ⟨info, hinfo, id, hid, op', hop, h⟩
    split at h
    · rename_i hcode
      obtain rfl := Option.some.inj h
      exact ⟨info, id, hinfo, hid, hop, hcode⟩
    · cases h
  · rintro ⟨info, id, hinfo, hid, hop, hcode⟩
    exact ⟨info, hinfo, id, hid, op, hop, if_pos hcode⟩

/-- A phi has one operand for each predecessor, all of its type. -/
theorem phi_of_verify (hverify : verify f .ssa = true) (hblock : f.blocks[b]? = some block)
  (hid : id ∈ block.ops) (hop : f.ops[id]? = some op) (hcode : op.code = .phi) :
  op.operands.length = block.predecessors.length ∧ ∀ x ∈ op.operands, x.type = op.type := by
  obtain ⟨op', hop', hcheck⟩ := exists_op_of_verify hverify hblock hid
  obtain rfl := Option.some.inj (hop.symm.trans hop')
  simp only [checkOp, Bool.and_eq_true] at hcheck
  have hphi := hcheck.1.2
  have hlevel : Maturity.ssa.atLeast .ssa = true := rfl
  simp only [checkOpCode, hcode, hlevel, hblock, Option.map_some, Option.getD_some, Bool.true_and,
    Bool.and_eq_true, Bool.not_eq_true', bne_eq_false_iff_eq, List.all_eq_true,
    beq_iff_eq] at hphi
  exact hphi

/-- Behind the phis of a block no phi follows. -/
theorem not_isPhi_of_checkSequence {seen : Bool} {ids : List Nat}
  (h : checkSequence f .ssa b seen ids = true) (hseen : seen = true) :
  ∀ id ∈ ids, f.isPhi id = false := by
  induction ids generalizing seen with
  | nil => rintro id ⟨⟩
  | cons first rest ih =>
    cases hop : f.ops[first]? with
    | none => simp [checkSequence, hop] at h
    | some op =>
      simp only [checkSequence, hop, Bool.and_eq_true, hseen, Bool.and_true,
        Bool.not_eq_true', Bool.true_or] at h
      intro id hid
      rcases List.mem_cons.mp hid with rfl | hid
      · simp only [isPhi, hop, Option.any_some]
        exact h.1.1.2
      · exact ih h.2 rfl id hid

theorem not_isPhi_of_verify (hverify : verify f .ssa = true) (hblock : f.blocks[b]? = some block) :
  ∀ id ∈ f.bodyIds block, f.isPhi id = false := by
  simp only [verify, checkBlocks, Bool.and_eq_true] at hverify
  have hcheck := of_blocks hverify.1.1.2.2 hblock
  unfold checkBlock at hcheck
  unfold bodyIds
  split at hcheck
  · rename_i hempty
    rw [List.isEmpty_iff.mp hempty]
    rintro id ⟨⟩
  · have hgen : ∀ ids seen, checkSequence f .ssa b seen ids = true →
        ∀ id ∈ ids.dropWhile f.isPhi, f.isPhi id = false := by
      intro ids
      induction ids with
      | nil => rintro _ _ id ⟨⟩
      | cons first rest ih =>
        intro seen h id hid
        by_cases hphi : f.isPhi first = true
        · rw [List.dropWhile_cons_of_pos hphi] at hid
          cases hop : f.ops[first]? with
          | none => simp [checkSequence, hop] at h
          | some op =>
            simp only [checkSequence, hop, Bool.and_eq_true] at h
            exact ih _ h.2 id hid
        · rw [List.dropWhile_cons_of_neg hphi] at hid
          cases hop : f.ops[first]? with
          | none => simp [checkSequence, hop] at h
          | some op =>
            simp only [isPhi, hop, Option.any_some, beq_iff_eq] at hphi
            rcases List.mem_cons.mp hid with rfl | hid
            · simp [isPhi, hop, hphi]
            · simp only [checkSequence, hop, Bool.and_eq_true] at h
              have hseen : (seen || op.code != .phi) = true := by simp [hphi]
              exact not_isPhi_of_checkSequence h.2 hseen id hid
    exact hgen block.ops false hcheck

end Verified

end IlFunction

end Xdec

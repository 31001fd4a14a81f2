import Xdec.FlagConditions
import Xdec.VerifiedBlocks

/-!
# Distributing a condition over flags phis

`flagcond(phi(...))` is not in the form the tables see: the flags reach their
test through a merge.  `FlagPhiDistributor` moves the test to the edges.  For a
flags phi and a condition it puts one boolean phi into the same block, whose
operands are the conditions of the flags phi's operands, each rewritten by the
tables, by a further boolean phi, or kept as a `flagcond`.

A boolean phi is entered in the cache before its operands exist, so that a cycle
of flags phis becomes a cycle of boolean phis.
-/

namespace Xdec

/-- The part of a function the pass reads and changes. -/
structure SsaGraph where
  blocks : List IlBlock
  ops : List PoolOp
  values : List ValueInfo
  currentPass : Nat

def IlFunction.graph (f : IlFunction) (currentPass : Nat) : SsaGraph :=
  ⟨f.blocks, f.ops, f.values, currentPass⟩

namespace SsaGraph

def operands (g : SsaGraph) (id : Nat) : List Expr :=
  (g.ops[id]?.map fun op => op.operands).getD []

def setOperands (g : SsaGraph) (id : Nat) (operands : List Expr) : SsaGraph :=
  { g with ops := g.ops.modify id fun op => { op with operands := operands } }

def isPhi (g : SsaGraph) (id : Nat) : Bool := (g.ops[id]?).any fun op => op.code == .phi

/-- `Function::prependPhi`: a phi without operands behind the phis the block has. -/
def prependPhi (g : SsaGraph) (block : Nat) (va : U64) (type : Ty) : Nat × SsaGraph :=
  let id := g.ops.length
  let value := g.values.length
  (value,
    { g with
      ops := g.ops ++ [{ code := .phi, type := type, va := va, result := some value, payload := 0,
                         operands := [], targets := [], origin := g.currentPass }]
      blocks := g.blocks.modify block fun b =>
        { b with ops := b.ops.takeWhile g.isPhi ++ id :: b.ops.dropWhile g.isPhi }
      values := g.values ++ [⟨type, some id, some block⟩] })

/-- The flags phi an expression names, with the value and its block. -/
def phiOf (g : SsaGraph) (flags : Expr) : Option (Nat × Nat × PoolOp) :=
  if flags.op = .value then do
    let info ← g.values[flags.handle]?
    let id ← info.definition
    let op ← g.ops[id]?
    let block ← info.block
    if op.code = .phi then some (flags.handle, block, op) else none
  else none

end SsaGraph

structure FlagPhiDistributor where
  function : SsaGraph
  cache : List ((Nat × ConditionCode) × Nat)

namespace FlagPhiDistributor

open Xdec.Expr

def kMaxDepth : Nat := 64

/-- The loop over the operands of a flags phi: what cannot be resolved keeps its
own condition. -/
def resolveArms (resolve : Expr → FlagPhiDistributor → Option Expr × FlagPhiDistributor)
    (code : ConditionCode) : List Expr → FlagPhiDistributor → List Expr × FlagPhiDistributor
  | [], d => ([], d)
  | flags :: incoming, d =>
    let (arm, d) := resolve flags d
    let (rewritten, d) := resolveArms resolve code incoming d
    (arm.getD (flagCondition flags code) :: rewritten, d)

/-- `resolveRec`, by the depth that is left. -/
def resolveRec (code : ConditionCode) :
    Nat → Expr → FlagPhiDistributor → Option Expr × FlagPhiDistributor
  | remaining, flags, d =>
    if flags.op = .flagDef then (FlagConditionRewrite.rewrite flags code, d)
    else
      match remaining with
      | 0 => (none, d)
      | remaining + 1 =>
        match d.function.phiOf flags with
        | none => (none, d)
        | some (value, block, phi) =>
          match d.cache.lookup (value, code) with
          | some found => (some (valueRef Ty.boolean found), d)
          | none =>
            -- A loop-carried operand that names the phi itself stays a test of it.
            if flags ∈ phi.operands then (none, d)
            else
              let (newPhi, function) := d.function.prependPhi block phi.va Ty.boolean
              let id := d.function.ops.length
              let (rewritten, d) := resolveArms (resolveRec code remaining) code
                phi.operands ⟨function, d.cache ++ [((value, code), newPhi)]⟩
              (some (valueRef Ty.boolean newPhi),
                { d with function := d.function.setOperands id rewritten })

def resolve (flags : Expr) (code : ConditionCode) (d : FlagPhiDistributor) :
    Option Expr × FlagPhiDistributor :=
  resolveRec code kMaxDepth flags d

end FlagPhiDistributor

/-! ## The walk -/

structure DistributeWalk where
  distributor : FlagPhiDistributor
  memo : Expr → Option Expr
  changed : Bool

namespace DistributeWalk

/-- What follows the operands of a node. -/
def finish (e rebuilt : Expr) (s : DistributeWalk) : Expr × DistributeWalk :=
  let (result, d) :=
    if e.op = .flagCond then
      match rebuilt.operands with
      | [] => (rebuilt, s.distributor)
      | flags :: _ =>
        if flags.op = .flagDef then (rebuilt, s.distributor)
        else
          let (resolved, d) := s.distributor.resolve flags (conditionOf rebuilt.immediate)
          (resolved.getD rebuilt, d)
    else (rebuilt, s.distributor)
  (result, { s with
    distributor := d
    memo := fun x => if x = e then some result else s.memo x })

def distributeFlagCondRec : Expr → DistributeWalk → Expr × DistributeWalk
  | e@(.leaf _ _ _), s =>
    match s.memo e with
    | some r => (r, s)
    | none => s.finish e e
  | e@(.unary o t i a), s =>
    match s.memo e with
    | some r => (r, s)
    | none =>
      let (a, s) := distributeFlagCondRec a s
      s.finish e (.unary o t i a)
  | e@(.binary o t i a b), s =>
    match s.memo e with
    | some r => (r, s)
    | none =>
      let (a, s) := distributeFlagCondRec a s
      let (b, s) := distributeFlagCondRec b s
      s.finish e (.binary o t i a b)
  | e@(.ternary o t i a b c), s =>
    match s.memo e with
    | some r => (r, s)
    | none =>
      let (a, s) := distributeFlagCondRec a s
      let (b, s) := distributeFlagCondRec b s
      let (c, s) := distributeFlagCondRec c s
      s.finish e (.ternary o t i a b c)

def distributeOperands : List Expr → DistributeWalk → List Expr × DistributeWalk
  | [], s => ([], s)
  | e :: es, s =>
    let (r, s) := distributeFlagCondRec e s
    let (rs, s) := distributeOperands es s
    (r :: rs, s)

def visitOp (s : DistributeWalk) (id : Nat) : DistributeWalk :=
  let operands := s.distributor.function.operands id
  let (rewritten, s) := distributeOperands operands s
  if rewritten = operands then s
  else
    { s with
      distributor := { s.distributor with
        function := s.distributor.function.setOperands id rewritten }
      changed := true }

/-- The operations of a block are those it has when the walk reaches it. -/
def visitBlock (s : DistributeWalk) (block : Nat) : DistributeWalk :=
  ((s.distributor.function.blocks[block]?.map IlBlock.ops).getD []).foldl visitOp s

end DistributeWalk

/-- `distributeFlagCondThroughPhi`, with the cache it ends with. -/
def distributeFlagCondThroughPhi (f : IlFunction) (currentPass : Nat) : DistributeWalk :=
  (List.range f.blocks.length).foldl DistributeWalk.visitBlock
    ⟨⟨f.graph currentPass, []⟩, fun _ => none, false⟩

end Xdec

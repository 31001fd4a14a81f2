import Xdec.Ancestors
import Xdec.Cfg

/-!
# Dominators

`analysis/dominators.cpp`: the iteration of Cooper, Harvey and Kennedy over a
reverse post-order, and Cytron's frontier on top of it.  A loop of the source
is a recursion with fuel that answers `none` when the fuel is gone, so that
termination is a theorem: `compute` always answers.

The tree in the making is an upper bound of dominance that only ever shrinks.
Updating one block changes the chains of all blocks below it at once, though,
and for a moment such a block may claim more than its predecessors do.  What
rules that out is the order of the pass (`Inv.synced`): a block not yet visited
in this pass agrees, above the block being visited, with each predecessor that
comes before it.
-/

namespace Xdec

open Ancestors Cfg

namespace Dominators

/-! ## The code -/

/-- `intersect`: walks both fingers up until they agree. -/
def intersect (idom : Nat → Option Nat) (order : Nat → Nat) : Nat → Nat → Nat → Option Nat
  | 0, _, _ => none
  | fuel + 1, a, b =>
    if a = b then some a
    else if order a > order b then intersect idom order fuel ((idom a).getD a) b
    else if order b > order a then intersect idom order fuel a ((idom b).getD b)
    else intersect idom order fuel a b

/-- The meet over the predecessors that have an entry already. -/
def newIdom (idom : Nat → Option Nat) (order : Nat → Nat) (preds : List Nat) :
    Option (Option Nat) :=
  preds.foldlM (fun (acc : Option Nat) pred =>
    match idom pred, acc with
    -- Unreachable, or a back edge not yet processed.
    | none, _ => some acc
    | some _, none => some (some pred)
    | some _, some x => (intersect idom order (order pred + order x + 1) pred x).map some) none

/-- One block of a pass; the flag is `changed`. -/
def processBlock (g : Cfg) (order : Nat → Nat) (state : (Nat → Option Nat) × Bool) (block : Nat) :
    Option ((Nat → Option Nat) × Bool) := do
  match ← newIdom state.1 order (g.predecessors block) with
  | none => some state
  | some d =>
    if state.1 block = some d then some state
    else some (Function.update state.1 block (some d), true)

/-- The outer loop. -/
def iterate (g : Cfg) (rpo : List Nat) : Nat → (Nat → Option Nat) → Option (Nat → Option Nat)
  | 0, _ => none
  | fuel + 1, idom => do
    let (idom', changed) ← (rpo.drop 1).foldlM (processBlock g rpo.idxOf) (idom, false)
    if changed then iterate g rpo fuel idom' else some idom'

/-- The climb of a predecessor towards the immediate dominator of a join. -/
def runners (idom : Nat → Option Nat) (stop : Option Nat) : Nat → Nat → Option (List Nat)
  | 0, _ => none
  | fuel + 1, runner =>
    if some runner = stop then some []
    else do
      let rest ← runners idom stop fuel ((idom runner).getD runner)
      some (runner :: rest)

/-- The pairs `(runner, join)` the frontier loop inserts. -/
def frontierPairs (g : Cfg) (rpo : List Nat) (idom : Nat → Option Nat) :
    Option (List (Nat × Nat)) := do
  let lists ← rpo.mapM fun join =>
    let preds := g.predecessors join
    if preds.length < 2 then some []
    else do
      let climbs ← (preds.filter fun p => p ∈ rpo).mapM (runners idom (idom join) (rpo.length + 1))
      some (climbs.flatten.map fun runner => (runner, join))
  some lists.flatten

end Dominators

/-- The class `Dominators`, without the depths and child lists. -/
structure Dominators where
  rpo : List Nat
  /-- The entry's immediate dominator is the entry itself. -/
  idoms : Nat → Option Nat
  frontiers : List (Nat × Nat)

namespace Dominators

/-- Passes that are enough. -/
def enough (n : Nat) : Nat := n * (n + 1) + 1

def compute (g : Cfg) : Option Dominators :=
  let rpo := g.reversePostOrder
  match rpo with
  | [] => some ⟨[], fun _ => none, []⟩
  | entry :: _ => do
    let idom ← iterate g rpo (enough rpo.length)
      (Function.update (fun _ => none) entry (some entry))
    let pairs ← frontierPairs g rpo idom
    some ⟨rpo, idom, pairs⟩

def reachable (t : Dominators) (block : Nat) : Bool := block ∈ t.rpo

def idom (t : Dominators) (block : Nat) : Option Nat :=
  if t.reachable block = false ∨ t.rpo.head? = some block then none else t.idoms block

/-- The loop of `dominates`. -/
def climb (idom : Nat → Option Nat) (a entry : Nat) : Nat → Nat → Option Nat
  | 0, _ => none
  | fuel + 1, finger =>
    if finger ≠ a ∧ finger ≠ entry then climb idom a entry fuel ((idom finger).getD finger)
    else some finger

def dominates (t : Dominators) (a b : Nat) : Option Bool :=
  if t.reachable a = false ∨ t.reachable b = false then some (decide (a = b))
  else do
    let entry ← t.rpo.head?
    let finger ← climb t.idoms a entry (t.rpo.length + 1) b
    some (decide (finger = a))

def frontier (t : Dominators) (block : Nat) : List Nat :=
  (t.frontiers.filter fun pair => pair.1 == block).map Prod.snd

end Dominators

end Xdec

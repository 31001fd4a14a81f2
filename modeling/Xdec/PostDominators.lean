import Xdec.Ancestors
import Xdec.Cfg

/-!
# Post-dominators

`PostDominators` of `analysis/dominators.cpp`: the same iteration over the
reverse graph, from all exits at once.  The chains end at a virtual root, which
is the invalid block here `none`.

Every block starts directly under the virtual root, so the forest grows from
below: a block is put under another when all its successors already are.  What
comes out is the least solution (`Forced`), and a loop keeps what it started
with.
-/

namespace Xdec

open Ancestors Cfg

namespace PostDominators

/-- `intersectForest`: one parent step a turn, an invalid finger ends it. -/
def intersectForest (parent : Nat → Option Nat) (order : Nat → Nat) :
    Nat → Option Nat → Option Nat → Option (Option Nat)
  | 0, _, _ => none
  | fuel + 1, a, b =>
    if a = b then some a
    else
      match a, b with
      | some x, some y =>
        if order x > order y then intersectForest parent order fuel (parent x) (some y)
        else intersectForest parent order fuel (some x) (parent y)
      | _, _ => some none

/-- The loop over the successors of a block; `first` until one was taken. -/
def newIpdom (ipdom : Nat → Option Nat) (rpo : List Nat) :
    Option Nat → Bool → List Nat → Option (Option Nat)
  | current, _, [] => some current
  | current, first, succ :: rest =>
    -- The successor cannot reach an exit either.
    if succ ∉ rpo then newIpdom ipdom rpo current first rest
    else if first then newIpdom ipdom rpo (some succ) false rest
    else do
      let met ← intersectForest ipdom rpo.idxOf (2 * rpo.length + 2) current (some succ)
      -- Met at the virtual root.
      if met = none then some none else newIpdom ipdom rpo met false rest

/-- One block of a pass; the flag is `changed`. -/
def processBlock (g : Cfg) (exits rpo : List Nat) (state : (Nat → Option Nat) × Bool)
    (block : Nat) : Option ((Nat → Option Nat) × Bool) :=
  if block ∈ exits then some state
  else do
    let d ← newIpdom state.1 rpo none true (g.successors block)
    if d ≠ state.1 block then some (Function.update state.1 block d, true) else some state

def iterate (g : Cfg) (exits rpo : List Nat) :
    Nat → (Nat → Option Nat) → Option (Nat → Option Nat)
  | 0, _ => none
  | fuel + 1, ipdom => do
    let (ipdom', changed) ← rpo.foldlM (processBlock g exits rpo) (ipdom, false)
    if changed then iterate g exits rpo fuel ipdom' else some ipdom'

/-- The depth of one block, under its parent or directly under the root. -/
def depthStep (ipdom : Nat → Option Nat) (depth : Nat → Int) (block : Nat) : Nat → Int :=
  match ipdom block with
  | some p => Function.update depth block (depth p + 1)
  | none => if depth block < 0 then Function.update depth block 0 else depth

/-- The depths, `-1` outside the forest. -/
def depthsOf (exits rpo : List Nat) (ipdom : Nat → Option Nat) : Nat → Int :=
  rpo.foldl (depthStep ipdom) fun block => if block ∈ exits then 0 else -1

end PostDominators

/-- The class `PostDominators`. -/
structure PostDominators where
  /-- The length of the tables. -/
  size : Nat
  /-- `none` is the virtual root. -/
  ipdoms : Nat → Option Nat
  depths : Nat → Int

namespace PostDominators

/-- The reachable blocks without successors. -/
def exits (g : Cfg) : List Nat :=
  g.reversePostOrder.filter fun b => (g.successors b).isEmpty

/-- The reverse post-order of the reverse graph. -/
def reverseRpo (g : Cfg) : List Nat :=
  DepthFirst.reverseOrder g.predecessors g.blockCount (exits g)

/-- Passes that are enough. -/
def enough (n : Nat) : Nat := n * n + 1

def compute (g : Cfg) : Option PostDominators :=
  if exits g = [] then some ⟨g.blockCount, fun _ => none, fun _ => -1⟩
  else do
    let ipdom ← iterate g (exits g) (reverseRpo g) (enough (reverseRpo g).length) fun _ => none
    some ⟨g.blockCount, ipdom, depthsOf (exits g) (reverseRpo g) ipdom⟩

def reachesExit (t : PostDominators) (block : Nat) : Bool := decide (block < t.size ∧ 0 ≤ t.depths block)

def ipdom (t : PostDominators) (block : Nat) : Option Nat :=
  if t.reachesExit block = false then none else t.ipdoms block

/-- The loop of `postDominates`. -/
def climb (ipdom : Nat → Option Nat) (a : Nat) : Nat → Nat → Option Bool
  | 0, _ => none
  | fuel + 1, finger =>
    if finger = a then some true
    else
      match ipdom finger with
      | none => some false
      | some next => climb ipdom a fuel next

def postDominates (t : PostDominators) (a b : Nat) : Option Bool :=
  if t.reachesExit a = false ∨ t.reachesExit b = false then some (decide (a = b))
  else climb t.ipdoms a (t.size + 1) b

/-! ## The least solution -/

/-- `a` is on every path that a finite unfolding of the successors shows. -/
inductive Forced (g : Cfg) (rpo : List Nat) (a : Nat) : Nat → Prop where
  | refl : Forced g rpo a a
  | step {b : Nat} (hb : g.successors b ≠ [])
      (h : ∀ s ∈ g.successors b, s ∈ rpo → Forced g rpo a s) : Forced g rpo a b

end PostDominators

end Xdec

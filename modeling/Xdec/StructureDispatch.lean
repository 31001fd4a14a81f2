import Xdec.VerifiedBlocks
import Xdec.TestTrees

/-!
# Switches recovered from compare trees

`Structurizer::collectTree` walks the tests of one value that a head block
reaches and records a case for each equality test.  An ordered test only adds its
two arms: which half of the values an arm covers is not looked at.
`tryDispatchTree` prints the cases as one switch.
-/

namespace Xdec

/-- A two-way compare of one value against a constant. -/
structure ValueTest where
  spine : Expr
  equality : Bool
  value : U64
  /-- An equality test's handler, or the true arm of an ordered test. -/
  taken : Nat
  next : Nat

structure ValueTree where
  spine : Expr
  values : List U64
  handlers : List Nat
  preds : List Nat
  defaultTarget : Option Nat
  defaultPreds : List Nat
  absorbed : List Nat
deriving DecidableEq

/-- What `collectTree` reads: the function, and the blocks already placed. -/
structure Structurizer where
  function : IlFunction
  emitted : Nat → Bool
  inProgressHeaders : Nat → Bool

namespace Structurizer

variable (s : Structurizer)

def blockOps (block : Nat) : List Op :=
  ((s.function.blocks[block]?).map s.function.blockOps).getD []

def terminatorOf (block : Nat) : Option Op :=
  (s.blockOps block).getLast?.filter fun op =>
    op.code == .branch || op.code == .condBranch || op.code == .indirectBranch ||
      op.code == .ret || op.code == .unreachable

/-- The test a condition makes, with its arms. -/
def testOf (cond : Expr) (first second : Nat) : Option ValueTest :=
  match cond with
  | .binary .cmpEq _ _ a b => b.asConstant.map fun value => ⟨a, true, value, first, second⟩
  | .binary .cmpNe _ _ a b => b.asConstant.map fun value => ⟨a, true, value, second, first⟩
  | .binary .cmpLtU _ _ a b | .binary .cmpLeU _ _ a b | .binary .cmpLtS _ _ a b
  | .binary .cmpLeS _ _ a b =>
    if b.asConstant.isSome then some ⟨a, false, 0#64, first, second⟩
    else if a.asConstant.isSome then some ⟨b, false, 0#64, first, second⟩
    else none
  | _ => none

def matchValueTest (block : Nat) (allowPhis : Bool) : Option ValueTest :=
  match s.terminatorOf block with
  | none => none
  | some op =>
    if op.code ≠ .condBranch then none
    -- A body before the compare would be lost, and so would a phi's copies.
    else if (s.blockOps block).dropLast.all fun o => o.code == .phi && allowPhis then
      match op.targets with
      | first :: second :: _ => testOf (op.operand 0) first second
      | _ => none
    else none

/-- Whether every edge of `preds` into the target carries the same phi copies. -/
def edgesAgree (target : Nat) (preds : List Nat) : Bool :=
  let predecessors := ((s.function.blocks[target]?).map IlBlock.predecessors).getD []
  ((s.blockOps target).takeWhile fun op => op.code == .phi).all fun phi =>
    let operands := preds.map fun pred => phi.operands[predecessors.idxOf pred]?
    operands.all fun operand => operand.isSome && operand == operands.head?.join

/-- One turn of the loop of `collectTree`: what it pushes, the last first. -/
def collectStep (head block : Nat) (parent : Option Nat) (tree : ValueTree) :
    Option (List (Nat × Option Nat) × ValueTree) :=
  let isRoot := block == head
  let available := isRoot || (!s.emitted block && !s.inProgressHeaders block &&
    ((s.function.blocks[block]?).map IlBlock.predecessors).map (·.map some) == some [parent])
  let test := if available then s.matchValueTest block isRoot else none
  match test.filter fun test => test.spine == tree.spine with
  | none =>
    -- Not a test of the discriminant: where the values no case names end up.
    if tree.defaultTarget.any (· ≠ block) then none
    else some ([], { tree with
      defaultTarget := some block
      defaultPreds := tree.defaultPreds ++ parent.toList })
  | some test =>
    let tree := { tree with absorbed := tree.absorbed ++ [block] }
    if test.equality then
      -- Two cases for one value: this is not one switch.
      if test.value ∈ tree.values then none
      else some ([(test.next, some block)], { tree with
        values := tree.values ++ [test.value]
        handlers := tree.handlers ++ [test.taken]
        preds := tree.preds ++ [block] })
    else some ([(test.next, some block), (test.taken, some block)], tree)

/-- The loop, for at most `fuel` turns; the head of the list is the stack's top. -/
def collectLoop (head : Nat) : Nat → List (Nat × Option Nat) → ValueTree → Option ValueTree
  | _, [], tree => some tree
  | 0, _ :: _, _ => none
  | fuel + 1, (block, parent) :: pending, tree =>
    match s.collectStep head block parent tree with
    | none => none
    | some (pushed, tree) => collectLoop head fuel (pushed ++ pending) tree

/-- `collectTree`; `none` is the result false, or a walk that does not end. -/
def collectTree (fuel head : Nat) : Option ValueTree :=
  match s.matchValueTest head true with
  | none => none
  | some root =>
    match s.collectLoop head fuel [(head, none)] ⟨root.spine, [], [], [], none, [], []⟩ with
    | none => none
    | some tree =>
      match tree.defaultTarget with
      | none => none
      | some target =>
        -- A default inside the tree would be a jump between the tests.
        if target ≠ head ∧ target ∈ tree.absorbed then none
        else if s.edgesAgree target tree.defaultPreds then some tree
        else none

end Structurizer

/-- The labels and targets of the switch statement built for a tree. -/
structure DispatchSwitch where
  head : Nat
  cond : Expr
  caseValues : List U64
  cases : List Nat
  casePreds : List Nat
  defaultCase : Nat

/-- `tryDispatchTree`, without the bodies it claims for the cases: at least three
cases, in the order of their values. -/
def dispatchTree (head : Nat) (tree : ValueTree) : Option DispatchSwitch :=
  match tree.defaultTarget with
  | none => none
  | some target =>
    if tree.values.length < 3 then none
    else
      let order := (tree.values.zip (tree.handlers.zip tree.preds)).mergeSort
        fun lhs rhs => decide (lhs.1.toNat ≤ rhs.1.toNat)
      some ⟨head, tree.spine, order.map Prod.fst, order.map fun c => c.2.1,
        order.map fun c => c.2.2, target⟩

/-- The block a switch goes to for a value. -/
def DispatchSwitch.goesTo (sw : DispatchSwitch) (v : U128) : Nat :=
  TestTree.select ((sw.caseValues.map word).zip sw.cases) sw.defaultCase v

namespace Structurizer

variable (s : Structurizer)

/-- The branch a block takes: which of its two targets. -/
def Branches (env : Env) (block slot target : Nat) : Prop :=
  ∃ op c, s.terminatorOf block = some op ∧ den env (op.operand 0) = some c ∧
    slot = (if c.lo &&& 1#64 ≠ 0#64 then 0 else 1) ∧ op.targets[slot]? = some target

/-- The slot an equality test takes when the value is the constant. -/
def equalSlot (block : Nat) : Nat :=
  if (s.terminatorOf block).any fun op => (op.operand 0).op == .cmpNe then 1 else 0

/-- A walk over the tests: the tests it passes and the block it ends at, which is
the handler of the equality test that holds or the first block without a test. -/
inductive Walk (head : Nat) (env : Env) (absorbed : List Nat) : Nat → List Nat → Nat → Prop where
  | leave {block : Nat} (h : block ∉ absorbed) : Walk head env absorbed block [] block
  | hit {block slot target : Nat} {test : ValueTest} (h : block ∈ absorbed)
      (htest : s.matchValueTest block (block == head) = some test) (heq : test.equality = true)
      (hbranch : s.Branches env block slot target) (hslot : slot = s.equalSlot block) :
      Walk head env absorbed block [block] target
  | pass {block slot target r : Nat} {test : ValueTest} {path : List Nat} (h : block ∈ absorbed)
      (htest : s.matchValueTest block (block == head) = some test) (heq : test.equality = true)
      (hbranch : s.Branches env block slot target) (hslot : slot ≠ s.equalSlot block)
      (hwalk : Walk head env absorbed target path r) :
      Walk head env absorbed block (block :: path) r
  | split {block slot target r : Nat} {test : ValueTest} {path : List Nat} (h : block ∈ absorbed)
      (htest : s.matchValueTest block (block == head) = some test) (heq : test.equality = false)
      (hbranch : s.Branches env block slot target) (hwalk : Walk head env absorbed target path r) :
      Walk head env absorbed block (block :: path) r

end Structurizer

end Xdec

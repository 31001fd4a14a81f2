import Xdec.Bits
import Xdec.SortedScan

/-!
# Encoding analysis

The model of `spec/encoding.cpp`: which encoding patterns overlap, and the
decision tree the decoder narrows its search with.

An internal node of the tree reads a run of bits and dispatches on its value; a
pattern that leaves the run unconstrained is copied into every child.  Bits are
those of a 64-bit word, and a run past its end reads as zero.  A pattern is
named by its place in the list.
-/

namespace Xdec

/-- One decodable rule, reduced to what the decoder needs. -/
structure EncodingPattern where
  /-- Index into the module's instruction list. -/
  instruction : Nat
  name : String
  mask : U64
  value : U64
  priority : Int
  hasGuards : Bool
deriving DecidableEq, Inhabited

/-- Number of set bits. -/
def countOnes (value : U64) : Nat := (List.range 64).countP fun i => value.getLsbD i

/-! ## Pairs of patterns -/

/-- Both agree on every bit they both constrain. -/
def patternsOverlap (a b : EncodingPattern) : Bool :=
  (a.value ^^^ b.value) &&& (a.mask &&& b.mask) == 0#64

/-- A word that both match. -/
def overlapWitness (a b : EncodingPattern) : U64 := a.value &&& a.mask ||| b.value &&& b.mask

def strictlyMoreSpecific (a b : EncodingPattern) : Bool :=
  a.mask &&& b.mask == b.mask && a.mask != b.mask

/-- Highest priority first, then the most constrained pattern, then declaration
order. -/
def matchesBefore (a b : EncodingPattern) : Bool :=
  if a.priority ≠ b.priority then decide (a.priority > b.priority)
  else if countOnes a.mask ≠ countOnes b.mask then decide (countOnes a.mask > countOnes b.mask)
  else decide (a.instruction < b.instruction)

/-- The decoder's test of a word. -/
def EncodingPattern.matches (p : EncodingPattern) (word : U64) : Bool := word &&& p.mask == p.value

/-! ## Overlaps -/

structure Conflict where
  first : Nat
  second : Nat
  witness : U64
deriving DecidableEq

/-- The tests of `findOverlaps` on one pair. -/
def overlapConflict (a b : EncodingPattern) : Option Conflict :=
  if !patternsOverlap a b then none
  else if a.priority ≠ b.priority then none
  else if strictlyMoreSpecific a b || strictlyMoreSpecific b a then none
  else if a.hasGuards || b.hasGuards then none
  else some ⟨a.instruction, b.instruction, overlapWitness a b⟩

/-- Every pattern against those after it. -/
def findOverlaps : List EncodingPattern → List Conflict
  | [] => []
  | a :: rest => rest.filterMap (overlapConflict a) ++ findOverlaps rest

/-! ## The decision tree -/

def kMaxFieldWidth : Nat := 4
def kLeafThreshold : Nat := 4
def kMaxDepth : Nat := 12

/-- A pointer to a node. -/
inductive DecisionNode where
  | null
  | leaf (candidates : List Nat)
  /-- Children are indexed by the value of the field; there are `2 ^ width`. -/
  | switch (shift width : Nat) (children : Nat → DecisionNode)

structure Candidate where
  shift : Nat
  width : Nat
  worstChild : Nat
  wildcards : Nat
deriving DecidableEq

namespace DecisionTree

variable (patterns : List EncodingPattern)

def pattern (index : Nat) : EncodingPattern := patterns.getD index default

/-- Order of two patterns of the list by index. -/
def indexBefore (lhs rhs : Nat) : Bool :=
  matchesBefore (pattern patterns lhs) (pattern patterns rhs)

def fieldMask (shift width : Nat) : U64 := lowMask width <<< shift

/-- The child a pattern belongs to; none when it leaves a bit of the field
unconstrained. -/
def bucketOf (shift width index : Nat) : Option Nat :=
  let field := fieldMask shift width
  let p := pattern patterns index
  if p.mask &&& field ≠ field then none
  else some ((p.value &&& field) >>> shift).toNat

def scoreField (active : List Nat) (shift width : Nat) : Candidate :=
  let wildcards := active.countP fun index => (bucketOf patterns shift width index).isNone
  let buckets := (List.range (2 ^ width)).map fun slot =>
    active.countP fun index => bucketOf patterns shift width index == some slot
  ⟨shift, width, buckets.foldl max 0 + wildcards, wildcards⟩

/-- Left to scan, whether some pattern is copied, and the number of bits. -/
def rank (c : Candidate) : Nat × Nat × Nat :=
  (max c.worstChild kLeafThreshold, if c.wildcards ≠ 0 then 1 else 0, c.width)

def rankBefore (a b : Nat × Nat × Nat) : Bool :=
  decide (a.1 < b.1 ∨ a.1 = b.1 ∧ (a.2.1 < b.2.1 ∨ a.2.1 = b.2.1 ∧ a.2.2 < b.2.2))

/-- The fields in the order they are tried. -/
def fields (insnWidth : Nat) : List (Nat × Nat) :=
  ((List.range kMaxFieldWidth).map (kMaxFieldWidth - ·)).flatMap fun width =>
    (List.range (insnWidth + 1 - width)).map fun shift => (shift, width)

/-- The field that splits the active patterns best. -/
def bestField (active : List Nat) (insnWidth : Nat) : Option Candidate :=
  (fields insnWidth).foldl (fun best field =>
    let candidate := scoreField patterns active field.1 field.2
    if candidate.wildcards = active.length then best
    else
      match best with
      | none => some candidate
      | some b => if rankBefore (rank candidate) (rank b) then some candidate else best) none

/-- The active patterns that go to a child. -/
def bucket (active : List Nat) (shift width slot : Nat) : List Nat :=
  active.filter fun index =>
    match bucketOf patterns shift width index with
    | none => true
    | some s => s == slot

def buildNode (sort : StdSort) (insnWidth : Nat) (active : List Nat) (depth : Nat) :
    DecisionNode :=
  if _h : active.length ≤ kLeafThreshold ∨ depth ≥ kMaxDepth then .leaf active
  else
    match bestField patterns active insnWidth with
    | none => .leaf (sort.run (indexBefore patterns) active)
    | some best =>
      if best.worstChild ≥ active.length then .leaf (sort.run (indexBefore patterns) active)
      else
        .switch best.shift best.width fun slot =>
          let active := bucket patterns active best.shift best.width slot
          if slot ≥ 2 ^ best.width ∨ active.isEmpty then .null
          else buildNode sort insnWidth active (depth + 1)
termination_by kMaxDepth - depth

/-- All patterns in match order. -/
def matchOrder (sort : StdSort) : List Nat :=
  sort.run (indexBefore patterns) (List.range patterns.length)

end DecisionTree

/-- `buildDecisionTree`. -/
def buildDecisionTree (sort : StdSort) (patterns : List EncodingPattern) (insnWidth : Nat) :
    DecisionNode :=
  DecisionTree.buildNode patterns sort insnWidth (DecisionTree.matchOrder patterns sort) 0

/-- `DecisionTree::lookup`. -/
def DecisionNode.lookup (word : U64) : DecisionNode → List Nat
  | null => []
  | leaf candidates => candidates
  | switch shift width children =>
    lookup word (children ((word >>> shift) &&& lowMask width).toNat)

end Xdec

import Xdec.ByteImage
import Xdec.SsaRun

/-!
# Evaluating expressions against the image

`ImageEval` answers which values an expression can take, given that memory is
the image: a bounded set, or top for "could be anything".  It follows a value to
its phi or its load, remembers what it found, and takes a value it meets again
while it is still looking at it for one that adds nothing.

The evaluator's depth counter is the number of levels that remain.  The list of
`events` is a record the code does not keep: it names the places where an answer
rests on more than the operands of a node.
-/

namespace Xdec

/-! ## Sets of values -/

/-- A bounded set of concrete values, or `top`. -/
inductive ValueSet where
  | top
  | of (values : List U64)
deriving DecidableEq

namespace ValueSet

def kCap : Nat := 16

def empty : ValueSet := .of []

def one (value : U64) : ValueSet := .of [value]

def isTop : ValueSet → Bool
  | .top => true
  | .of _ => false

/-- Adds a value; exceeding the cap degrades the whole set to top. -/
def insert : ValueSet → U64 → ValueSet
  | .top, _ => .top
  | .of values, value =>
    if value ∈ values then .of values
    else if values.length ≥ kCap then .top
    else .of (values ++ [value])

def unite : ValueSet → ValueSet → ValueSet
  | .top, _ => .top
  | .of _, .top => .top
  | .of values, .of others => others.foldl insert (.of values)

end ValueSet

def widthOk (width : Nat) : Bool := decide (0 < width) && decide (width ≤ 64)

def maskTo (width : Nat) (value : U64) : U64 :=
  if width ≥ 64 then value else value &&& ((1#64 <<< width) - 1#64)

namespace ValueSet

def map (a : ValueSet) (apply : U64 → U64) (width : Nat) : ValueSet :=
  match a with
  | .top => .top
  | .of xs =>
    if widthOk width = false then .top
    else xs.foldl (fun out x => out.insert (maskTo width (apply x))) empty

def cross (a b : ValueSet) (apply : U64 → U64 → U64) (width : Nat) : ValueSet :=
  match a, b with
  | .of xs, .of ys =>
    if widthOk width = false ∨ xs.length * ys.length > kCap then .top
    else xs.foldl (fun out x =>
      ys.foldl (fun out y => out.insert (maskTo width (apply x y))) out) empty
  | _, _ => .top

end ValueSet

/-! ## Registers the platform fixes -/

inductive EntryRegBinding where
  | unknown
  | literal (value : U64)
  | basePlusOffset (companion : String) (offset : U64)
deriving DecidableEq

structure EntryRegFacts where
  bindings : String → Option EntryRegBinding
  companionBases : String → Option U64

/-- `EntryRegFacts::resolve`. -/
def EntryRegFacts.resolve (facts : EntryRegFacts) (regName : String) : Option U64 :=
  match facts.bindings regName with
  | some (.literal value) => some value
  | some (.basePlusOffset companion offset) =>
    (facts.companionBases companion).map fun base => base + offset
  | some .unknown | none => none

/-! ## The evaluator -/

/-- Where an answer rests on more than the operands. -/
inductive EvalEvent where
  /-- An expression still under evaluation was met, directly inside `inner`. -/
  | reentry (inner : Option Expr) (e : Expr)
  /-- A bare register read was left out beside a computed arm. -/
  | leftOut (arm : Expr)
  /-- A binary operator was computed. -/
  | computed (e : Expr)
  | loaded (op : Op)
  | entryReg (reg : Nat) (value : U64)
deriving DecidableEq

structure EvalState where
  memo : Expr → Option ValueSet
  valueMemo : Nat → Option ValueSet
  /-- Expressions under evaluation, the innermost first. -/
  active : List Expr
  events : List EvalEvent

def EvalState.initial : EvalState := ⟨fun _ => none, fun _ => none, [], []⟩

abbrev EvalM := StateM EvalState

structure ImageEval where
  function : IlFunction
  reader : ByteImage
  entryRegs : Option EntryRegFacts

namespace ImageEval

def kMaxDepth : Nat := 256

def note (event : EvalEvent) : EvalM Unit :=
  modify fun s => { s with events := event :: s.events }

/-- `unordered_map::emplace`: an entry that is there stays. -/
def emplace {α : Type} [DecidableEq α] (memo : α → Option ValueSet) (key : α) (result : ValueSet) :
    α → Option ValueSet :=
  if (memo key).isSome then memo else Function.update memo key (some result)

variable (c : ImageEval)

/-- The definition of a value, as long as it is there. -/
def definitionOf (v : Nat) : Option PoolOp :=
  c.function.values[v]?.bind fun info => info.definition.bind fun definition =>
    c.function.ops[definition]?

/-- The loop of `loadFrom`; unmapped memory is not zero. -/
def loadEach (type : Ty) : List U64 → ValueSet → ValueSet
  | [], out => out
  | address :: addresses, out =>
    match c.reader.word address (type.bits / 8) with
    | none => .top
    | some value => loadEach type addresses (out.insert (maskTo type.bits value))

def loadFrom (addresses : ValueSet) (type : Ty) : ValueSet :=
  match addresses with
  | .top => .top
  | .of values =>
    if type.isScalarInteger = false ∨ type.bits > 64 then .top
    else c.loadEach type values .empty

def isRawEntryReg (e : Expr) : Bool := e.op == .entryReg

def evalEntryReg (e : Expr) : EvalM ValueSet :=
  let reg := e.immediate.toNat % 2 ^ 32
  match c.entryRegs with
  | none => pure .top
  | some facts =>
    if ¬ reg < c.function.file.registers.length then pure .top
    else
      match facts.resolve (c.function.file.info reg).name with
      | none => pure .top
      | some resolved => do
        note (.entryReg reg (maskTo e.bits resolved))
        pure (.one (maskTo e.bits resolved))

section Levels

-- `eval`, one level further down.
variable (recur : Expr → EvalM ValueSet)

def operand (e : Expr) (index : Nat) : Expr :=
  e.operands.getD index (Expr.undefined Ty.voidType)

def uniteArms (anyComputed : Bool) : List Expr → ValueSet → EvalM ValueSet
  | [], result => pure result
  | arm :: arms, result =>
    if anyComputed && isRawEntryReg arm then do
      note (.leftOut arm)
      uniteArms anyComputed arms result
    else do
      let values ← recur arm
      uniteArms anyComputed arms (result.unite values)

def unionEntryRegAware (arms : List Expr) : EvalM ValueSet :=
  uniteArms recur (arms.any fun arm => !isRawEntryReg arm) arms .empty

/-- The part of `evalValue` below its memo. -/
def evalDefinition (type : Ty) (definition : PoolOp) : EvalM ValueSet :=
  if definition.code = .phi then unionEntryRegAware recur definition.operands
  else if definition.code = .load then do
    let addresses ← recur (definition.operand 0)
    note (.loaded definition.toOp)
    pure (c.loadFrom addresses type)
  else pure .top

def evalValue (v : Nat) : EvalM ValueSet := do
  let s ← get
  match c.function.values[v]?, s.valueMemo v, c.definitionOf v with
  | none, _, _ => pure .top
  | some _, some found, _ => pure found
  | some _, none, none => pure .top
  | some info, none, some definition => do
    let result ← c.evalDefinition recur info.type definition
    modify fun s => { s with valueMemo := emplace s.valueMemo v result }
    pure result

def evalUnary (e : Expr) : EvalM ValueSet := do
  let width := e.bits
  let a ← recur (operand e 0)
  match e.op with
  | .not => pure (a.map (fun x => ~~~x) width)
  | .neg => pure (a.map (fun x => ~~~x + 1#64) width)
  | .clz =>
    pure (a.map (fun x =>
      BitVec.ofNat 64 (if x = 0#64 then width else (maskTo width x).clz.toNat - (64 - width)))
      width)
  | _ => pure .top

/-- `uint64_t{condition}`. -/
def bit (condition : Bool) : U64 := if condition then 1#64 else 0#64

/-- The function `evalBinary` applies, with the width of the result. -/
def binaryFunction (op : ExprOp) (width : Nat) : Option ((U64 → U64 → U64) × Nat) :=
  match op with
  | .add => some (fun x y => x + y, width)
  | .sub => some (fun x y => x - y, width)
  | .mul => some (fun x y => x * y, width)
  | .and => some (fun x y => x &&& y, width)
  | .or => some (fun x y => x ||| y, width)
  | .xor => some (fun x y => x ^^^ y, width)
  | .shl => some (fun x y => if y.toNat ≥ width then 0#64 else x <<< y.toNat, width)
  | .shrU => some (fun x y => if y.toNat ≥ width then 0#64 else maskTo width x >>> y.toNat, width)
  | .shrS =>
    some (fun x y =>
      let sx := signExtend x width
      if y.toNat ≥ width then (if sx.msb then ~~~0#64 else 0#64)
      else sx.sshiftRight y.toNat, width)
  | .rotR => some (fun x y => rotateRight x width (y.toNat % 2 ^ 32), width)
  | .rotL => some (fun x y => rotateLeft x width (y.toNat % 2 ^ 32), width)
  | .cmpEq => some (fun x y => bit (x == y), 1)
  | .cmpNe => some (fun x y => bit (x != y), 1)
  | .cmpLtU => some (fun x y => bit (x.ult y), 1)
  | .cmpLeU => some (fun x y => bit (x.ule y), 1)
  -- The width extended from is that of the result, which is a boolean.
  | .cmpLtS => some (fun x y => bit ((signExtend x width).slt (signExtend y width)), 1)
  | .cmpLeS => some (fun x y => bit ((signExtend x width).sle (signExtend y width)), 1)
  | _ => none

def evalBinary (e : Expr) : EvalM ValueSet := do
  let a ← recur (operand e 0)
  let b ← recur (operand e 1)
  match binaryFunction e.op e.bits with
  | none => pure .top
  | some (apply, width) => do
    if a.isTop || b.isTop then pure .top
    else do
      note (.computed e)
      pure (a.cross b apply width)

def evalSelect (e : Expr) : EvalM ValueSet := do
  let condition ← recur (operand e 0)
  match condition with
  | .of [x] => recur (operand e (if x ≠ 0#64 then 1 else 2))
  | _ => unionEntryRegAware recur [operand e 1, operand e 2]

def evalCast (e : Expr) : EvalM ValueSet := do
  let source ← recur (operand e 0)
  let toWidth := e.bits
  match e.op with
  | .zext => pure (source.map (fun x => x) toWidth)
  | .sext => pure (source.map (fun x => signExtend x (operand e 0).bits) toWidth)
  | .trunc => pure (source.map (fun x => x) toWidth)
  | .extract =>
    pure (source.map (fun x => extractBits x (e.immediate.toNat % 2 ^ 32) toWidth) toWidth)
  | _ => pure .top

/-- The switch of `eval`. -/
def evalOp (e : Expr) : EvalM ValueSet :=
  match e.op with
  | .const => pure (.one (maskTo e.bits e.immediate))
  | .value => c.evalValue recur (e.immediate.toNat % 2 ^ 32)
  | .select => evalSelect recur e
  | .zext | .sext | .trunc | .extract => evalCast recur e
  | .entryReg => c.evalEntryReg e
  | op =>
    match op.info.category with
    | .intArithmetic | .intBitwise | .intShift | .intCompare =>
      if e.operandCount = 1 then evalUnary recur e else evalBinary recur e
    -- Flags, flag conditions, and everything else stay top.
    | _ => pure .top

end Levels

/-- What `eval` does before and after the switch. -/
def remembered (e : Expr) (compute : EvalM ValueSet) : EvalM ValueSet := do
  let s ← get
  match s.memo e with
  | some found => pure found
  | none =>
    if e ∈ s.active then do
      note (.reentry s.active.head? e)
      pure .empty
    else compute

/-- The evaluation of an expression proper. -/
def activate (e : Expr) (compute : EvalM ValueSet) : EvalM ValueSet := do
  modify fun s => { s with active := e :: s.active }
  let result ← compute
  modify fun s => { s with active := s.active.erase e, memo := emplace s.memo e result }
  pure result

/-- `ImageEval::eval` with so many levels left before `kMaxDepth`. -/
def evalWithin : Nat → Expr → EvalM ValueSet
  | 0, e => remembered e (pure .top)
  | remaining + 1, e => remembered e (activate e (c.evalOp (evalWithin remaining) e))

def eval (e : Expr) : EvalM ValueSet := c.evalWithin kMaxDepth e

/-- The answers to a sequence of queries of one evaluator. -/
def answers (queries : List Expr) : List ValueSet × EvalState :=
  (queries.mapM c.eval).run .initial

end ImageEval

end Xdec

import Xdec.Block

/-!
# The execution session

`ExecSession` runs block after block.  It keeps the registers twice: the
caller's `MachineState`, which `state()` hands out, and the cells of the
interpreter.  A flag says that the interpreter has to take over the caller's
copy before the next block, and after a block the roots it can write travel
back.

The spec engine, the guest memory and the external handler are parameters: an
`Environment` says what lifting a block and using the memory give, and each
turn of the loop is told what the handler answers.  Trace records are written
and never read, so only their number is kept.
-/

namespace Xdec

open RegisterFile

/-! ## Compiled blocks -/

structure ExecInstruction where
  pc : U64
  length : Nat
  callTargetKnown : Bool

/-- What lifting leaves for the block at an address. -/
structure LiftedBlock where
  ops : List Op
  blockVa : Nat → U64
  nameOf : Nat → String
  endVa : U64
  instructions : List ExecInstruction
  /-- A page and its generation when it was read. -/
  codePages : List (U64 × Nat)

/-- The cell a write to a register lands in: none for the zero class, and a
flags bundle owns its cell. -/
def writtenRoot (f : RegisterFile) (reg : RegId) : Option RegId :=
  if (f.info reg).regClass = .zero then none
  else if (f.info reg).regClass = .flags then some reg
  else some (f.rootOf reg)

/-- The loop of `compileExecBlock` over the register writes. -/
def writtenRoots (f : RegisterFile) (ops : List Op) : List RegId :=
  ops.foldl (fun roots op =>
    if op.code = .writeReg then
      match writtenRoot f op.reg with
      | none => roots
      | some root => if root ∈ roots then roots else roots ++ [root]
    else roots) []

/-- A compiled block comes with the roots its writes target. -/
structure ExecBlock (f : RegisterFile) extends LiftedBlock where
  roots : List RegId
  roots_eq : roots = writtenRoots f ops

def compileExecBlock (f : RegisterFile) (lifted : LiftedBlock) : ExecBlock f :=
  { lifted with roots := writtenRoots f lifted.ops, roots_eq := rfl }

namespace ExecBlock

variable {f : RegisterFile}

def instructionAt (block : ExecBlock f) (pc : U64) : Option ExecInstruction :=
  block.instructions.find? fun instruction => instruction.pc == pc

def validFor (block : ExecBlock f) (generationAt : U64 → Nat) : Bool :=
  block.codePages.all fun stamp => generationAt stamp.1 == stamp.2

end ExecBlock

/-! ## Boundaries -/

inductive BoundaryKind where
  | directCall | indirectCall | syscall | intrinsic | pageRequest
deriving DecidableEq

structure ExternalRequest where
  kind : BoundaryKind
  pc : U64
  returnPc : U64
  target : U64
  name : String
  arguments : List U128
  dirty : List (U64 × U64)
deriving DecidableEq

inductive ExternalAction where
  | handledContinue | returnFromCall | redirect | stop
deriving DecidableEq

/-- `P` are the patches of the guest memory. -/
structure ExternalResponse (P : Type) where
  action : ExternalAction
  nextPc : U64
  continuationPc : U64
  /-- Register patches, applied in order. -/
  state : List (RegId × U128)
  memory : List P
  memoryAlreadySynchronized : Bool

inductive SessionStop where
  | returned | instructionBudget | externalBoundary | handlerStop | fault | unimplemented
  | unreachable | invalidResume | invalidConfiguration
deriving DecidableEq

structure ExecResult where
  stop : SessionStop
  pc : U64
  instructions : Nat
  detail : String
  boundary : Option ExternalRequest
  /-- Session and generation of the token. -/
  resume : Option (Nat × Nat)
deriving DecidableEq

/-- A result without boundary and token. -/
def ExecResult.plain (stop : SessionStop) (pc : U64) (instructions : Nat) (detail : String) :
    ExecResult := ⟨stop, pc, instructions, detail, none, none⟩

/-! ## The session -/

structure RedirectFrame where
  returnPc : U64
  continuationPc : U64
deriving DecidableEq

/-- What the session is built over: the engine, the memory `M` with its
patches `P`, and the options. -/
structure Environment (M P : Type) where
  file : RegisterFile
  host : HostFloat
  /-- Bytes of one instruction. -/
  insnBytes : Nat
  /-- Fetching, decoding and lifting up to a number of instructions. -/
  lift : M → U64 → Nat → Except String LiftedBlock
  read : M → U64 → Nat → Except String U128 × M
  write : M → U64 → Nat → U128 → Except String Unit × M
  /-- Written pages may be supplied, also where it fails. -/
  validate : M → List P → Except String Unit × M
  apply : M → List P → Except String Unit × M
  clearDirty : M → M
  dirtyRanges : M → List (U64 × U64)
  generationAt : M → U64 → Nat
  maxInstructions : Nat
  maxBlockInstructions : Nat
  maxInstructionRecords : Nat
  hasObserver : Bool
  externalDirtyRanges : Bool
  externalBranch : U64 → U64 → Bool

/-- `MachineState`. -/
structure CallerState where
  cells : Cells
  pc : U64

structure Session (f : RegisterFile) (M : Type) where
  state : CallerState
  /-- Absent before the first block. -/
  interpreter : Option Cells
  memory : M
  cache : U64 → Option (ExecBlock f)
  stateNeedsImport : Bool
  /-- Innermost frame first. -/
  redirectedCallReturns : List RedirectFrame
  executed : Nat
  emitted : Nat
  sessionId : Nat
  tokenGeneration : Nat
  suspended : Option ExternalRequest
  configurationValid : Bool

/-- The register file's full registers. -/
def rootRegisters (f : RegisterFile) : List RegId :=
  (List.range f.registers.length).filter fun reg => f.rootOf reg = reg

def importState (f : RegisterFile) (state : Cells) (roots : List RegId) (interpreter : Cells) :
    Cells :=
  roots.foldl (fun cells reg =>
    Interpreter.writeRegister f cells reg (MachineState.read f state reg)) interpreter

def exportState (f : RegisterFile) (interpreter : Cells) (roots : List RegId) (state : Cells) :
    Cells :=
  roots.foldl (fun cells reg =>
    MachineState.write f cells reg (Interpreter.readRegister f interpreter reg)) state

namespace Session

variable {M P : Type} {env : Environment M P}

/-- A new session. -/
def start (env : Environment M P) (memory : M) (state : CallerState)
    (cache : U64 → Option (ExecBlock env.file)) (sessionId : Nat) : Session env.file M :=
  ⟨state, none, memory, cache, true, [], 0, 0, sessionId, 0, none,
    decide (env.maxBlockInstructions ≠ 0)⟩

def setPc (s : Session env.file M) (pc : U64) : Session env.file M :=
  { s with state := { s.state with pc := pc } }

def suspend (s : Session env.file M) (request : ExternalRequest) (reason : SessionStop)
    (detail : String) : Session env.file M × ExecResult :=
  let s := { s with suspended := some request, tokenGeneration := s.tokenGeneration + 1 }
  (s, ⟨reason, s.state.pc, s.executed, detail, some request, some (s.sessionId, s.tokenGeneration)⟩)

/-- `MachineState::apply`. -/
def applyPatch (f : RegisterFile) : List (RegId × U128) → Cells → Except String Cells
  | [], cells => .ok cells
  | (reg, value) :: rest, cells =>
    if reg < f.registers.length then applyPatch f rest (MachineState.write f cells reg value)
    else .error "bad-format: state patch contains an invalid register"

/-- The redirect frames after a response. -/
def framesAfter (request : ExternalRequest) (response : ExternalResponse P)
    (frames : List RedirectFrame) : List RedirectFrame :=
  match response.action with
  | .redirect =>
    if request.kind = .directCall ∨ request.kind = .indirectCall then
      ⟨request.returnPc, response.continuationPc⟩ :: frames
    else frames
  | .returnFromCall =>
    match frames with
    | frame :: rest => if frame.returnPc = request.returnPc then rest else frames
    | [] => []
  | _ => frames

def pcAfter (request : ExternalRequest) (response : ExternalResponse P) (pc : U64) : U64 :=
  match response.action with
  | .redirect => response.nextPc
  | .returnFromCall | .handledContinue => request.returnPc
  | .stop => pc

def applyResponse (env : Environment M P) (s : Session env.file M) (request : ExternalRequest)
    (response : ExternalResponse P) : Session env.file M × Except String Unit :=
  match applyPatch env.file response.state s.state.cells with
  | .error message => (s, .error message)
  | .ok cells =>
    match env.validate s.memory response.memory with
    | (.error message, memory) => ({ s with memory := memory }, .error message)
    | (.ok _, memory) =>
      let s :=
        { s with redirectedCallReturns := framesAfter request response s.redirectedCallReturns }
      match env.apply memory response.memory with
      | (.error message, memory) => ({ s with memory := memory }, .error message)
      | (.ok _, memory) =>
        let memory := if response.memoryAlreadySynchronized then env.clearDirty memory
          else memory
        ({ s with
          memory := memory
          state := ⟨cells, pcAfter request response s.state.pc⟩
          stateNeedsImport := true }, .ok ())

/-! ## The hooks of a block -/

/-- What the hooks of one block share. -/
structure BlockWorld (M : Type) where
  memory : M
  executed : Nat
  emitted : Nat
  /-- Address of the instruction being recorded. -/
  active : Option U64
  intrinsicName : String
  intrinsicArguments : List U128

def finalize (env : Environment M P) (w : BlockWorld M) : BlockWorld M :=
  match w.active with
  | none => w
  | some _ =>
    { w with
      executed := w.executed + 1
      emitted := if env.hasObserver then w.emitted + 1 else w.emitted
      active := none }

/-- Intrinsics without an effect here. -/
def inertIntrinsics : List String :=
  ["aarch64.acquire", "aarch64.release", "aarch64.reserve", "aarch64.clrex", "aarch64.dmb",
    "aarch64.dsb", "aarch64.isb", "aarch64.hint", "aarch64.bti", "aarch64.pac.ia",
    "aarch64.pac.ib", "aarch64.aut.ia", "aarch64.aut.ib", "aarch64.dc.zva", "aarch64.dc.ivac",
    "aarch64.dc.isw", "aarch64.dc.cvau", "aarch64.dc.cvac", "aarch64.dc.csw", "aarch64.dc.cvap",
    "aarch64.dc.cvadp", "aarch64.dc.civac", "aarch64.dc.cisw", "aarch64.ic.ialluis",
    "aarch64.ic.iallu", "aarch64.ic.ivau"]

/-- Pointer authentication, the identity here. -/
def pointerIntrinsics : List String :=
  ["aarch64.pacia", "aarch64.pacib", "aarch64.pacda", "aarch64.pacdb", "aarch64.autia",
    "aarch64.autib", "aarch64.autda", "aarch64.autdb"]

/-- Compare and swap: answers the old contents. -/
def compareAndSwap (env : Environment M P) (w : BlockWorld M) (type : Ty) (arguments : List U128) :
    Option U128 × BlockWorld M :=
  match arguments with
  | address :: expected :: desired :: _ =>
    if type.bits = 0 ∨ type.bits % 8 ≠ 0 ∨ type.bits > 128 then (none, w)
    else
      match env.read w.memory address.lo (type.bits / 8) with
      | (.error _, memory) => (none, { w with memory := memory })
      | (.ok current, memory) =>
        if current = expected then
          match env.write memory address.lo (type.bits / 8) desired with
          | (.error _, memory) => (none, { w with memory := memory })
          | (.ok _, memory) => (some current, { w with memory := memory })
        else (some current, { w with memory := memory })
  | _ => (none, w)

def intrinsicHook (env : Environment M P) (w : BlockWorld M) (name : String) (type : Ty)
    (arguments : List U128) : Option U128 × BlockWorld M :=
  if name ∈ inertIntrinsics then (some U128.zero, w)
  else if name = "aarch64.store_exclusive_status" then (some U128.zero, w)
  else if name = "aarch64.cas" then compareAndSwap env w type arguments
  else if name ∈ pointerIntrinsics then
    match arguments with
    | _ :: pointer :: _ => (some pointer, w)
    | _ => (none, w)
  else (none, { w with intrinsicName := name, intrinsicArguments := arguments })

def hooks (env : Environment M P) (block : ExecBlock env.file) : Hooks (BlockWorld M) where
  interrupt w op :=
    w.active.isSome && w.active != some op.va && !block.validFor (env.generationAt w.memory)
  enter w op :=
    if w.active = some op.va then w else { finalize env w with active := some op.va }
  intrinsic := intrinsicHook env
  read w address bytes :=
    match env.read w.memory address bytes with
    | (r, memory) => (r, { w with memory := memory })
  write w address bytes value :=
    match env.write w.memory address bytes value with
    | (r, memory) => (r, { w with memory := memory })

/-! ## One turn of the loop -/

/-- The handler's answer to a request; `none` when no handler is installed. -/
abbrev Answer (P : Type) := Option (Except String (ExternalResponse P))

/-- A request at a boundary: the session stops, or goes on when the answer
could be applied.  The source repeats these lines at each kind of boundary. -/
def atBoundary (env : Environment M P) (s : Session env.file M) (request : ExternalRequest)
    (answer : Answer P) : Session env.file M × Option ExecResult :=
  let s := s.setPc request.pc
  match answer with
  | none => (s.suspend request .externalBoundary "").map id some
  | some (.error message) => (s.suspend request .handlerStop message).map id some
  | some (.ok response) =>
    match applyResponse env s request response with
    | (s, .error message) => (s.suspend request .fault message).map id some
    | (s, .ok _) =>
      if response.action = .stop then (s.suspend request .handlerStop "").map id some
      else (s, none)

def collectDirty (env : Environment M P) (s : Session env.file M) : List (U64 × U64) :=
  if env.externalDirtyRanges then env.dirtyRanges s.memory else []

/-- `state_.read("x30")`. -/
def readLink (s : Session env.file M) : Except String U128 :=
  match env.file.registers.findIdx? fun info => info.name == "x30" with
  | none => .error "bad-format: unknown register 'x30'"
  | some reg => .ok (MachineState.read env.file s.state.cells reg)

/-- A taken branch, possibly a tail call out of the code domain. -/
def afterBranch (env : Environment M P) (s : Session env.file M) (kind : BoundaryKind)
    (outcome : ExecOutcome) (answer : Answer P) : Session env.file M × Option ExecResult :=
  if env.externalBranch outcome.va outcome.target then
    match s.readLink with
    | .error message => (s, some (.plain .fault outcome.va s.executed message))
    | .ok link =>
      atBoundary env s ⟨kind, outcome.va, link.lo, outcome.target, "", [], collectDirty env s⟩
        answer
  else (s.setPc outcome.target, none)

def afterReturn (env : Environment M P) (s : Session env.file M) (outcome : ExecOutcome)
    (answer : Answer P) : Session env.file M × Option ExecResult :=
  let returned := ((s.setPc outcome.va), some (ExecResult.plain .returned outcome.va s.executed ""))
  match s.redirectedCallReturns, s.readLink with
  | frame :: rest, .ok link =>
    if link.lo = frame.returnPc then
      let s := { s with redirectedCallReturns := rest }
      if frame.continuationPc = 0#64 then (s.setPc frame.returnPc, none)
      else
        -- The model that redirected into the callee finishes the call itself.
        atBoundary env s ⟨.directCall, outcome.va, frame.returnPc, frame.continuationPc, "", [],
          collectDirty env s⟩ answer
    else returned
  | _, _ => returned

/-- A call or an intrinsic nobody modelled. -/
def externalRequest (env : Environment M P) (s : Session env.file M) (block : ExecBlock env.file)
    (w : BlockWorld M) (outcome : ExecOutcome) : ExternalRequest :=
  let instruction := block.instructionAt outcome.va
  let returnPc := outcome.va +
    BitVec.ofNat 64 ((instruction.map ExecInstruction.length).getD env.insnBytes)
  let dirty := collectDirty env s
  if outcome.stop = .call then
    let known := (instruction.map ExecInstruction.callTargetKnown).getD false
    ⟨if known then .directCall else .indirectCall, outcome.va, returnPc, outcome.target, "", [],
      dirty⟩
  else
    let kind := if w.intrinsicName = "aarch64.svc" then BoundaryKind.syscall else .intrinsic
    let name := if w.intrinsicName = "" then outcome.detail else w.intrinsicName
    let target := if kind = .syscall then
      (w.intrinsicArguments[1]?.map U128.lo).getD 0#64 else 0#64
    ⟨kind, outcome.va, returnPc, target, name, w.intrinsicArguments, dirty⟩

/-- What follows the outcome of a block. -/
def afterBlock (env : Environment M P) (s : Session env.file M) (block : ExecBlock env.file)
    (w : BlockWorld M) (outcome : ExecOutcome) (answer : Answer P) :
    Session env.file M × Option ExecResult :=
  match outcome.stop with
  | .branch => afterBranch env s .directCall outcome answer
  | .condBranch =>
    (s.setPc (if outcome.condition then outcome.target else outcome.fallthrough), none)
  | .indirectBranch => afterBranch env s .indirectCall outcome answer
  | .interrupted => (s.setPc outcome.va, none)
  | .returned => afterReturn env s outcome answer
  | .unreachable =>
    (s, some (.plain .unreachable s.state.pc s.executed
      "execution reached an unreachable instruction"))
  | .unimplemented => (s, some (.plain .unimplemented outcome.va s.executed outcome.detail))
  | .error => (s, some (.plain .fault outcome.va s.executed outcome.detail))
  | .call | .intrinsic => atBoundary env s (externalRequest env s block w outcome) answer

/-- The registers a block starts with. -/
def bound (s : Session env.file M) : Cells :=
  let cells := s.interpreter.getD Cells.zero
  if s.stateNeedsImport then
    importState env.file s.state.cells (rootRegisters env.file) cells
  else cells

/-- Running a block and carrying its writes back. -/
def execute (env : Environment M P) (s : Session env.file M) (block : ExecBlock env.file) :
    Session env.file M × BlockWorld M × ExecOutcome :=
  let context : BlockContext := ⟨env.file, env.host, block.blockVa, block.nameOf, block.endVa⟩
  let world : BlockWorld M := ⟨s.memory, s.executed, s.emitted, none, "", []⟩
  let ran := Machine.runBlock context (hooks env block) block.ops s.bound world
  let w := finalize env ran.1.world
  ({ s with
    interpreter := some ran.1.registers
    stateNeedsImport := false
    memory := w.memory
    executed := w.executed
    emitted := w.emitted
    state := { s.state with
      cells := exportState env.file ran.1.registers block.roots s.state.cells } }, w, ran.2)

/-- The block for the current address, from the cache or compiled. -/
def blockFor (env : Environment M P) (s : Session env.file M) (budget : Nat) :
    Except String (ExecBlock env.file) :=
  match s.cache s.state.pc with
  | some block =>
    if block.validFor (env.generationAt s.memory) && block.instructions.length ≤ budget then
      .ok block
    else (env.lift s.memory s.state.pc budget).map (compileExecBlock env.file)
  | none => (env.lift s.memory s.state.pc budget).map (compileExecBlock env.file)

def instructionLimit (env : Environment M P) : Nat :=
  if env.maxInstructions = 0 then 2 ^ 64 - 1 else env.maxInstructions

/-- The block a turn runs, or the result it returns with instead. -/
def nextBlock (env : Environment M P) (s : Session env.file M) :
    Except ExecResult (ExecBlock env.file) :=
  if s.executed ≥ instructionLimit env then
    .error (.plain .instructionBudget s.state.pc s.executed "instruction budget exhausted")
  else if env.hasObserver ∧ env.maxInstructionRecords ≠ 0 ∧
      s.emitted ≥ env.maxInstructionRecords then
    .error (.plain .instructionBudget s.state.pc s.executed "trace record budget exhausted")
  else
    let executionRemaining := instructionLimit env - s.executed
    let traceRemaining := if env.hasObserver ∧ env.maxInstructionRecords ≠ 0 then
      env.maxInstructionRecords - s.emitted else executionRemaining
    let budget := min (min executionRemaining traceRemaining) env.maxBlockInstructions
    match blockFor env s budget with
    | .error message => .error (.plain .fault s.state.pc s.executed message)
    | .ok block => .ok block

/-- Running a block that was found or compiled. -/
def ran (env : Environment M P) (s : Session env.file M) (block : ExecBlock env.file) :
    Session env.file M × BlockWorld M × ExecOutcome :=
  execute env { s with cache := Function.update s.cache s.state.pc (some block) } block

/-- One turn of `runLoop`; with a result it returns. -/
def turn (env : Environment M P) (s : Session env.file M) (answer : Answer P) :
    Session env.file M × Option ExecResult :=
  match nextBlock env s with
  | .error result => (s, some result)
  | .ok block =>
    let after := ran env s block
    afterBlock env after.1 block after.2.1 after.2.2 answer

/-- `run`: a result at once, or the loop is entered. -/
def run (s : Session env.file M) : Option ExecResult :=
  if s.configurationValid = false then
    some (.plain .invalidConfiguration s.state.pc s.executed
      ("machine state and execution engine use different register files, " ++
        "or the block budget is zero"))
  else if s.suspended.isSome then
    some (.plain .invalidResume s.state.pc s.executed
      "session is suspended; resume with its token")
  else none

/-- `resume`: a result at once, or the loop is entered. -/
def resume (env : Environment M P) (s : Session env.file M) (token : Nat × Nat)
    (response : ExternalResponse P) : Session env.file M × Option ExecResult :=
  match s.suspended with
  | none =>
    (s, some (.plain .invalidResume s.state.pc s.executed
      "resume token does not belong to this suspended session"))
  | some request =>
    if token ≠ (s.sessionId, s.tokenGeneration) then
      (s, some (.plain .invalidResume s.state.pc s.executed
        "resume token does not belong to this suspended session"))
    else
      match applyResponse env s request response with
      | (s, .error message) =>
        (s, some ⟨.fault, s.state.pc, s.executed, message, some request, some token⟩)
      | (s, .ok _) =>
        let s := { s with suspended := none }
        if response.action = .stop then (s.suspend request .handlerStop "").map id some
        else (s, none)

end Session

end Xdec

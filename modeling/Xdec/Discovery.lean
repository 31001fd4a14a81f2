import Xdec.Verify
import Xdec.SpecEngine
import Xdec.ByteImage

/-!
# Discovery

Lifting starts by probing: `scan` follows direct control flow from its entries
and maps the extent of every block, depth first, without building IL.  A target
inside an extent that is already there splits it, by dropping the extent and
scanning its start again.

A loop of the source that need not end has fuel; `none` says that it ran out.
-/

namespace Xdec

def InsnFlow.terminates (flow : InsnFlow) : Bool := flow.kind != .fallthrough

structure LiftCoverage where
  contains : U64 → Bool
  successors : U64 → List U64

/-- What a scan reads: the bytes, the engine that decodes and probes them, the
calls known not to return, and recorded coverage. -/
structure Discovery where
  width : Nat
  valid : width ≠ 0 ∧ width ≤ 16
  reader : ByteImage
  probe : List (BitVec 8) → U64 → InsnFlow
  isNoreturnCallTarget : U64 → Bool
  coverage : Option LiftCoverage

/-- Why a scan of an extent ends. -/
inductive ScanEnd where
  | leader
  | uncovered
  | unmapped
  | noreturn
  | terminator (flow : InsnFlow)
deriving DecidableEq

structure DiscoveryState where
  leaders : List U64
  external : List U64
  /-- Block start and just past its end. -/
  extents : List (U64 × U64)
  unresolved : List U64
  worklist : List U64
deriving DecidableEq

namespace DiscoveryState

variable (s : DiscoveryState)

def starts : List U64 := s.extents.map Prod.fst

def addExternal (target : U64) : DiscoveryState :=
  { s with external := if target ∈ s.external then s.external else target :: s.external }

/-- A new leader is scanned later. -/
def addLeader (target : U64) : DiscoveryState :=
  if target ∈ s.leaders then s
  else { s with leaders := target :: s.leaders, worklist := s.worklist ++ [target] }

/-- The extent before `upper_bound(target)`. -/
def before (target : U64) : Option (U64 × U64) :=
  s.extents.foldl
    (fun best extent =>
      if extent.1 ≤ target ∧ best.all (fun b => decide (b.1 < extent.1)) = true then some extent
      else best)
    none

/-- The coarse extent around a target is dropped and its start scanned again. -/
def split (existing : List U64) (target : U64) : DiscoveryState :=
  match s.before target with
  | none => s
  | some (start, stop) =>
    if start < target ∧ target < stop ∧ start ∉ existing then
      { s with
        worklist := s.worklist ++ [start]
        extents := s.extents.filter fun extent => extent.1 != start }
    else s

def setExtent (start stop : U64) : DiscoveryState :=
  { s with extents := (start, stop) :: s.extents.filter fun extent => extent.1 != start }

end DiscoveryState

namespace Discovery

variable (d : Discovery)

def next (address : U64) : U64 := address + BitVec.ofNat 64 d.width

def readWord (address : U64) : Option (List (BitVec 8)) := d.reader.read address d.width

def readable (address : U64) : Bool := (d.readWord address).isSome

/-- Everything counts without coverage. -/
def covered (address : U64) : Bool := d.coverage.all fun c => c.contains address

/-- A call that is known to never return. -/
def isNoreturn (flow : InsnFlow) : Bool :=
  flow.calls && flow.callTargetKnown && d.isNoreturnCallTarget flow.callTarget

/-- The loop over the instructions of one extent, from `address` on. -/
def scanExtent (leaders : List U64) (start : U64) : Nat → U64 → Option (U64 × ScanEnd)
  | 0, _ => none
  | fuel + 1, address =>
    if address ≠ start ∧ address ∈ leaders then some (address, .leader)
    else if d.covered address = false then some (address, .uncovered)
    else
      match d.readWord address with
      | none => some (address, .unmapped)
      | some bytes =>
        let flow := d.probe bytes address
        if d.isNoreturn flow then some (d.next address, .noreturn)
        else if flow.terminates = false then scanExtent leaders start fuel (d.next address)
        else some (d.next address, .terminator flow)

/-- The targets of a terminator, as encoded or as recorded. -/
def targetsOf (address : U64) (flow : InsnFlow) : List U64 :=
  match d.coverage with
  | some c => c.successors address
  | none => [flow.target, flow.fallthrough]

/-- What a terminator leaves for others to resolve. -/
def noteFlow (start address : U64) (flow : InsnFlow) (s : DiscoveryState) : DiscoveryState :=
  match d.coverage with
  | some c =>
    ([flow.target, flow.fallthrough].filter fun encoded =>
      encoded != 0#64 && !(c.successors address).contains encoded).foldl
        DiscoveryState.addExternal s
  | none =>
    if flow.kind = .indirectBranch ∨ flow.kind = .unknown then
      { s with unresolved := s.unresolved ++ [start] }
    else s

/-- One target of a terminator. -/
def visit (existing : List U64) (s : DiscoveryState) (target : U64) : DiscoveryState :=
  if target = 0#64 then s
  else if d.readable target = false then s.addExternal target
  else (s.addLeader target).split existing target

/-- The work after the scan of an extent. -/
def finishExtent (existing : List U64) (start stop : U64) (why : ScanEnd) (s : DiscoveryState) :
    DiscoveryState :=
  let s :=
    match why with
    | .unmapped => { s with unresolved := s.unresolved ++ [start] }
    | .terminator flow =>
      let address := stop - BitVec.ofNat 64 d.width
      (d.targetsOf address flow).foldl (d.visit existing) (d.noteFlow start address flow s)
    | _ => s
  s.setExtent start stop

/-- One round of the worklist. -/
def step (fuel : Nat) (existing : List U64) (s : DiscoveryState) : Option DiscoveryState :=
  match s.worklist with
  | [] => some s
  | start :: rest =>
    let s := { s with worklist := rest }
    if start ∈ s.starts then some s
    else
      (d.scanExtent s.leaders start fuel start).map fun scanned =>
        d.finishExtent existing start scanned.1 scanned.2 s

def run (fuel : Nat) (existing : List U64) : Nat → DiscoveryState → Option DiscoveryState
  | 0, s => if s.worklist = [] then some s else none
  | rounds + 1, s =>
    if s.worklist = [] then some s
    else (d.step fuel existing s).bind (run fuel existing rounds)

/-- A block that exists is a boundary and an edge target, and is not scanned if it
has content. -/
def addBlock (s : DiscoveryState) (block : IlBlock) : DiscoveryState :=
  { s with
    leaders := if block.va ∈ s.leaders then s.leaders else block.va :: s.leaders
    extents :=
      if block.external = true ∨ block.va ∈ s.starts then s.extents
      else (block.va, block.endVa) :: s.extents }

/-- The constructor. -/
def seed (blocks : List IlBlock) : DiscoveryState := blocks.foldl addBlock ⟨[], [], [], [], []⟩

def addEntry (s : DiscoveryState) (entry : U64) : DiscoveryState :=
  if entry ∉ s.starts ∧ d.readable entry = true ∧ d.covered entry = true then
    { s with
      leaders := if entry ∈ s.leaders then s.leaders else entry :: s.leaders
      worklist := s.worklist ++ [entry] }
  else s

/-- `scan`, with fuel for each extent and for the rounds. -/
def scan (fuel rounds : Nat) (blocks : List IlBlock) (entries : List U64) : Option DiscoveryState :=
  d.run fuel (blocks.map IlBlock.va) rounds (entries.foldl d.addEntry (seed blocks))

end Discovery

end Xdec

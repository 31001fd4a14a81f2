import Xdec.Verify

/-!
# The pass registry

Passes are registered by name.  `resolve` finds the pipeline that walks a function from one
maturity to another: the candidates of the walk, their requirement edges, Kahn's algorithm
with a fixed ready order, and a check of the walk itself.
-/

namespace Xdec

/-- `il::toString`. -/
def Maturity.toString : Maturity → String
  | .lifted => "lifted"
  | .blockLocal => "local"
  | .cfg => "cfg"
  | .ssa => "ssa"
  | .resolved => "resolved"
  | .optimized => "optimized"
  | .vars => "vars"
  | .structured => "structured"
  | .typed => "typed"

/-- What the registry schedules on. -/
structure PassInfo where
  name : String
  /-- The maturity the function must be at when the pass runs. -/
  level : Maturity
  /-- The maturity the function is at when the pass finishes. -/
  produces : Maturity
  /-- The passes that must have run before this one. -/
  requirements : List String
deriving DecidableEq

/-- The passes in the order of their registration. -/
structure Registry where
  passes : List PassInfo
  named : ∀ pass ∈ passes, pass.name ≠ ""
  forward : ∀ pass ∈ passes, pass.level.index ≤ pass.produces.index
  unique : (passes.map PassInfo.name).Nodup

/-- The errors of the registry, all of them `DiagCode::Internal`. -/
inductive RegistryError where
  | nullPass
  | emptyName
  | producesBelow (name : String) (produces level : Maturity)
  | duplicateName (name : String)
  | backwards (start target : Maturity)
  | unregistered (name requirement : String)
  | beyondTarget (name requirement : String) (produces target : Maturity)
  | cycle (names : List String)
  | gap (name : String) (level reached : Maturity)
  | short (start reached target : Maturity)
deriving DecidableEq

def RegistryError.message : RegistryError → String
  | .nullPass => "cannot register a null pass"
  | .emptyName => "cannot register a pass with an empty name"
  | .producesBelow name produces level =>
    "pass '" ++ name ++ "': produces (" ++ produces.toString ++
      ") is below its own level (" ++ level.toString ++ ")"
  | .duplicateName name => "duplicate pass name '" ++ name ++ "'"
  | .backwards start target =>
    "cannot resolve a pipeline from " ++ start.toString ++ " backwards to " ++
      target.toString
  | .unregistered name requirement =>
    "pass '" ++ name ++ "' requires '" ++ requirement ++ "', which is not registered"
  | .beyondTarget name requirement produces target =>
    "pass '" ++ name ++ "' requires '" ++ requirement ++ "', which produces " ++
      produces.toString ++ " — beyond the target " ++ target.toString
  | .cycle names => "pass requirement cycle involving: " ++ ", ".intercalate names
  | .gap name level reached =>
    "gap in the maturity walk: pass '" ++ name ++ "' needs the function at " ++
      level.toString ++ ", but the pipeline reaches only " ++ reached.toString ++
      " — no pass bridges " ++ reached.toString ++ " to " ++ level.toString
  | .short start reached target =>
    "pipeline from " ++ start.toString ++ " reaches only " ++ reached.toString ++
      "; no pass bridges " ++ reached.toString ++ " to " ++ target.toString

namespace Registry

def empty : Registry where
  passes := []
  named := by simp
  forward := by simp
  unique := by simp

/-- The first registered pass of the name. -/
def find (r : Registry) (name : String) : Option PassInfo :=
  r.passes.find? fun pass => pass.name == name

theorem find_eq_none {r : Registry} {name : String} :
  r.find name = none ↔ name ∉ r.passes.map PassInfo.name := by
  simp [find]

/-- `Registry::add`; a null pointer is `none`. -/
def add (r : Registry) : Option PassInfo → Except RegistryError Registry
  | none => .error .nullPass
  | some info =>
    if hname : info.name = "" then
      .error .emptyName
    else if hforward : info.produces.index < info.level.index then
      .error (.producesBelow info.name info.produces info.level)
    else if hfind : (r.find info.name).isSome then
      .error (.duplicateName info.name)
    else
      .ok {
        passes := r.passes ++ [info]
        named := by
          intro pass hpass
          rcases List.mem_append.mp hpass with hpass | hpass
          · exact r.named pass hpass
          · obtain rfl := List.mem_singleton.mp hpass
            exact hname
        forward := by
          intro pass hpass
          rcases List.mem_append.mp hpass with hpass | hpass
          · exact r.forward pass hpass
          · obtain rfl := List.mem_singleton.mp hpass
            exact Nat.le_of_not_lt hforward
        unique := by
          have hnew : info.name ∉ r.passes.map PassInfo.name :=
            find_eq_none.mp (by simpa using hfind)
          simp only [List.map_append, List.map_cons, List.map_nil]
          exact List.nodup_append.mpr
            ⟨r.unique, List.nodup_singleton _, fun a ha b hb h =>
              hnew (List.mem_singleton.mp hb ▸ h ▸ ha)⟩ }

/-- The passes the walk can use, in registration order. -/
def candidates (r : Registry) (start target : Maturity) : List PassInfo :=
  r.passes.filter fun info =>
    start.index ≤ info.level.index && info.produces.index ≤ target.index

/-- The requirement edges: who waits for a name, and for how many requirements a name
still waits. -/
structure Edges where
  dependents : String → List PassInfo
  pending : String → Nat

/-- One requirement of a pass, with the count of its edges so far. -/
def wireRequirement (r : Registry) (start target : Maturity) (pass : PassInfo)
    (state : (String → List PassInfo) × Nat) (requirement : String) :
    Except RegistryError ((String → List PassInfo) × Nat) :=
  match r.find requirement with
  | none => .error (.unregistered pass.name requirement)
  | some required =>
    if required.level.index < start.index then
      -- It ran before the walk started.
      .ok state
    else if target.index < required.produces.index then
      .error (.beyondTarget pass.name requirement required.produces target)
    else
      .ok (Function.update state.1 required.name (state.1 required.name ++ [pass]),
        state.2 + 1)

def wirePass (r : Registry) (start target : Maturity) (edges : Edges) (pass : PassInfo) :
    Except RegistryError Edges := do
  let (dependents, count) ←
    pass.requirements.foldlM (wireRequirement r start target pass) (edges.dependents, 0)
  pure { dependents, pending := Function.update edges.pending pass.name count }

def wire (r : Registry) (start target : Maturity) : Except RegistryError Edges :=
  (r.candidates start target).foldlM (wirePass r start target)
    { dependents := fun _ => [], pending := fun _ => 0 }

/-- The place of a name among the candidates. -/
def order (candidates : List PassInfo) (name : String) : Nat :=
  candidates.findIdx fun pass => pass.name == name

/-- Lowest level first, then the lowest produced level, then registration order. -/
def before (candidates : List PassInfo) (a b : PassInfo) : Bool :=
  if a.level ≠ b.level then
    a.level.index < b.level.index
  else if a.produces ≠ b.produces then
    a.produces.index < b.produces.index
  else
    order candidates a.name < order candidates b.name

/-- The pass on top of the heap. -/
def top (candidates : List PassInfo) : List PassInfo → Option PassInfo
  | [] => none
  | pass :: rest =>
    match top candidates rest with
    | none => some pass
    | some least => if before candidates least pass then some least else some pass

/-- The state of Kahn's algorithm; the ready passes are the heap, in no particular order. -/
structure Kahn where
  pending : String → Nat
  ready : List PassInfo
  pipeline : List PassInfo

/-- One dependent of a pass that has just run. -/
def release (s : Kahn) (dependent : PassInfo) : Kahn :=
  let left := s.pending dependent.name
  { s with
    pending := Function.update s.pending dependent.name (left - 1)
    ready := if left = 1 then s.ready ++ [dependent] else s.ready }

/-- The loop of Kahn's algorithm, for as many turns as the fuel allows. -/
def drain (candidates : List PassInfo) (dependents : String → List PassInfo) :
    Nat → Kahn → Kahn
  | 0, s => s
  | fuel + 1, s =>
    match top candidates s.ready with
    | none => s
    | some next =>
      drain candidates dependents fuel
        ((dependents next.name).foldl release
          { s with ready := s.ready.erase next, pipeline := s.pipeline ++ [next] })

/-- The walk itself: every pass has to find the function at its level. -/
def checkWalk : Maturity → List PassInfo → Except RegistryError Maturity
  | at', [] => .ok at'
  | at', info :: rest =>
    if info.level ≠ at' then
      .error (.gap info.name info.level at')
    else
      checkWalk info.produces rest

def resolve (r : Registry) (start target : Maturity) :
    Except RegistryError (List PassInfo) := do
  if target.index < start.index then
    throw (.backwards start target)
  let candidates := r.candidates start target
  let edges ← r.wire start target
  let ready := candidates.filter fun pass => edges.pending pass.name == 0
  -- No pass enters the heap twice, so the loop turns once for every candidate at most.
  let s := drain candidates edges.dependents candidates.length
    { pending := edges.pending, ready, pipeline := [] }
  if s.pipeline.length ≠ candidates.length then
    throw (.cycle ((candidates.filter fun pass => 0 < s.pending pass.name).map PassInfo.name))
  let reached ← checkWalk start s.pipeline
  if reached ≠ target then
    throw (.short start reached target)
  return s.pipeline

end Registry

end Xdec
